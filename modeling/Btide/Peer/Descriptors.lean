import Mathlib.Data.List.Nodup
import Btide.Peer.Server

/-!
# `Peer.Descriptors` — which descriptors the server thread has open

`Tracked` says who has opened what: the descriptors that stand for a socket or an epoll instance of `server`
are those that its program counter accounts for (`ServerPc.held`), and the eventfd is the one that `efd` names
as long as `main` has it open. A number that has been closed can come back as something else, so after a
refusal, when `server` knows two descriptors that it has closed already, it accounts for none.
-/

namespace Btide

/-! ## Where the threads are -/

/-- `eventfd` and `pthread_create` have not both returned. -/
def MainPc.early : MainPc → Bool
  | .eventfd => true
  | .create => true
  | _ => false

/-- Before the server thread has been joined. -/
def MainPc.serving : MainPc → Bool
  | .eventfd => false
  | .create => false
  | .release => false
  | .closeEfd => false
  | .returned => false
  | _ => true

/-- The eventfd is open, if it could be created. -/
def MainPc.efdOpen : MainPc → Bool
  | .eventfd => false
  | .returned => false
  | _ => true

/-- The descriptors the thread knows. -/
def AfterClose.names : AfterClose → List Nat
  | .addEvent fds => [fds.server, fds.epoll]
  | _ => []

def ServerPc.names : ServerPc → List Nat
  | .absent => []
  | .socket => []
  | .setup fd _ => [fd]
  | .epollCreate fd => [fd]
  | .addServer fds => [fds.server, fds.epoll]
  | .addEvent fds => [fds.server, fds.epoll]
  | .loop fds _ => [fds.server, fds.epoll]
  | .closing todo after => todo ++ after.names
  | .ended => []

/-- The descriptors that `server` has open. After a refusal it has closed them all. -/
def ServerPc.held (refused : Bool) : ServerPc → List Nat
  | .addEvent fds => if refused then [] else [fds.server, fds.epoll]
  | .closing todo .ends => if refused then [] else todo
  | .closing todo _ => todo
  | pc => pc.names

/-- How many of the last two calls of `close` are to come. -/
def ServerPc.remaining : ServerPc → Nat
  | .closing todo .ends => todo.length
  | .ended => 0
  | _ => 2

/-- Where the thread can be after a refusal. -/
def ServerPc.refused : ServerPc → Bool
  | .addEvent _ => true
  | .closing _ .exits => false
  | .closing _ _ => true
  | .ended => true
  | _ => false

/-- Where the thread is only after a refusal. -/
def ServerPc.resumes : ServerPc → Bool
  | .closing _ (.addEvent _) => true
  | _ => false

/-- The thread can take steps. -/
def ServerPc.active : ServerPc → Bool
  | .absent => false
  | .ended => false
  | _ => true

namespace Server

/-- The listening socket could not be added to the epoll instance. -/
def Refused (s : Server) : Prop := refusal ∈ s.perrors

instance (s : Server) : Decidable s.Refused := inferInstanceAs (Decidable (refusal ∈ s.perrors))

/-! ## The descriptors -/

/-- Who has which descriptor open. -/
structure Tracked (s : Server) : Prop where
  early : s.main.early = true → s.server = .absent
  serving : s.server.active = true → s.main.serving = true
  efd : ∀ n, s.descriptors n = some .event ↔ s.main.efdOpen = true ∧ s.efd = n
  names : ∀ n ∈ s.server.names, s.efd ≠ n
  owns : ∀ n, s.ofServer n = true ↔ n ∈ s.server.held (decide s.Refused)
  nodup : (s.server.held (decide s.Refused)).Nodup
  calm : s.Refused → s.server.refused = true
  resumes : s.server.resumes = true → s.Refused
  strays : if s.Refused then s.strays.length + s.server.remaining = 2 else s.strays = []

theorem not_early {pc : MainPc} (h : pc.serving = true) : pc.early = false := by
  cases pc <;> first | rfl | cases h

theorem efdOpen_of_serving {pc : MainPc} (h : pc.serving = true) : pc.efdOpen = true := by
  cases pc <;> first | rfl | cases h

section Steps

variable {s t : Server} {r : Result}

theorem refused_append {m : Str} (hm : refusal ≠ m) : refusal ∈ s.perrors ++ [m] ↔ s.Refused := by
  rw [List.mem_append, List.mem_singleton]
  exact or_iff_left hm

theorem Tracked.early_of_serving (h : Tracked s) (hactive : s.server.active = true)
    (hmain : t.main = s.main) : t.main.early = true → t.server = .absent := fun hearly => by
  rw [hmain, not_early (h.serving hactive)] at hearly
  cases hearly

/-- A step that opens and closes nothing. -/
structure Quiet (s t : Server) : Prop where
  main : t.main = s.main
  efd : t.efd = s.efd
  descriptors : t.descriptors = s.descriptors
  strays : t.strays = s.strays
  refused : t.Refused ↔ s.Refused

theorem Tracked.quiet {pc pc' : ServerPc} (h : Tracked s) (q : Quiet s t) (hs : s.server = pc)
    (ht : t.server = pc') (hactive : pc.active = true) (hnames : pc'.names ⊆ pc.names)
    (hheld : (pc'.held (decide s.Refused)).Perm (pc.held (decide s.Refused)))
    (hremaining : pc'.remaining = pc.remaining) (hcalm : s.Refused → pc'.refused = true)
    (hresumes : pc'.resumes = true → s.Refused) : Tracked t where
  early := h.early_of_serving (hs ▸ hactive) q.main
  serving := fun _ => by
    rw [q.main]
    exact h.serving (hs ▸ hactive)
  efd := by
    rw [q.descriptors, q.efd, q.main]
    exact h.efd
  names := fun n hn => by
    rw [q.efd]
    exact h.names n (hs ▸ hnames (ht ▸ hn))
  owns := fun n => by
    have howns := h.owns n
    rw [ofServer, hs] at howns
    rw [ofServer, q.descriptors, howns, ht]
    simp only [q.refused]
    exact hheld.mem_iff.symm
  nodup := by
    have hnodup := h.nodup
    rw [hs] at hnodup
    rw [ht]
    simp only [q.refused]
    exact hheld.nodup_iff.mpr hnodup
  calm := fun hr => by
    rw [ht]
    exact hcalm (q.refused.mp hr)
  resumes := fun hr => q.refused.mpr (hresumes (ht ▸ hr))
  strays := by
    have hstrays := h.strays
    rw [hs, ← hremaining] at hstrays
    simp only [q.refused, q.strays, ht]
    exact hstrays

/-- Nothing has been refused while the thread is where it cannot be after that. -/
theorem Tracked.not_refused {pc : ServerPc} (h : Tracked s) (hs : s.server = pc)
    (hpc : pc.refused = false) : ¬ s.Refused := by
  intro hr
  have hcalm := h.calm hr
  rw [hs, hpc] at hcalm
  cases hcalm

theorem descriptors_setDescriptor (s : Server) (fd n : Nat) (d : Option Descriptor) :
    (s.setDescriptor fd d).descriptors n = if n = fd then d else s.descriptors n :=
  Function.update_apply ..

theorem ofServer_setDescriptor (s : Server) (fd n : Nat) (d : Option Descriptor) :
    (s.setDescriptor fd d).ofServer n = if n = fd then d.any Descriptor.ofServer else s.ofServer n := by
  rw [ofServer, descriptors_setDescriptor]
  split <;> rfl

/-- A change at another descriptor than the eventfd. -/
theorem event_setDescriptor {fd n : Nat} {d : Option Descriptor} (hold : s.descriptors fd ≠ some .event)
    (hnew : d ≠ some .event) :
    (s.setDescriptor fd d).descriptors n = some .event ↔ s.descriptors n = some .event := by
  rw [descriptors_setDescriptor]
  split
  · next heq =>
      rw [heq]
      exact ⟨fun h => absurd h hnew, fun h => absurd h hold⟩
  · exact Iff.rfl

/-- A call that returns a new descriptor. -/
theorem Tracked.opens {pc server : ServerPc} {d : Descriptor} {n : Nat} (h : Tracked s)
    (hstep : s.openStep n d server = some t) (hs : s.server = pc) (hactive : pc.active = true)
    (hd : d.ofServer = true) (hpc : pc.refused = false) (hnames : server.names = pc.names ++ [n])
    (hheld : server.held false = pc.held false ++ [n]) (hresumes : server.resumes = false) :
    Tracked t := by
  subst hs
  have hserving := h.serving hactive
  have hcalm := h.not_refused rfl hpc
  have howns := h.owns
  have hnodup := h.nodup
  have hstrays := h.strays
  rw [decide_eq_false hcalm] at howns hnodup
  rw [if_neg hcalm] at hstrays
  unfold openStep at hstep
  split at hstep <;> cases hstep
  next hfree =>
  -- the eventfd is open, so it is not the new descriptor
  have hnew : s.efd ≠ n := by
    intro hefd
    rw [(h.efd n).mpr ⟨efdOpen_of_serving hserving, hefd⟩] at hfree
    cases hfree
  have hnot : n ∉ s.server.held false := by
    rw [← howns, ofServer, hfree]
    simp
  refine ⟨h.early_of_serving hactive rfl, fun _ => hserving, fun m => ?_, ?_, ?_, ?_,
    fun hr => absurd hr hcalm, fun hr => ?_, ?_⟩
  · exact (event_setDescriptor (by simp [hfree]) (by rintro ⟨⟩; cases hd)).trans (h.efd m)
  · intro m hm
    rcases List.mem_append.mp (hnames ▸ hm) with hm | hm
    · exact h.names m hm
    · rwa [List.mem_singleton.mp hm]
  · intro m
    show (s.setDescriptor n (some d)).ofServer m = true ↔ m ∈ server.held (decide s.Refused)
    rw [decide_eq_false hcalm, hheld, List.mem_append, List.mem_singleton, ← howns,
      ofServer_setDescriptor]
    split
    · next heq => simp [hd, heq]
    · next hne => simp [hne]
  · show (server.held (decide s.Refused)).Nodup
    rw [decide_eq_false hcalm, hheld, List.nodup_append]
    refine ⟨hnodup, List.nodup_cons.mpr ⟨List.not_mem_nil, List.nodup_nil⟩, fun a ha b hb hab => hnot ?_⟩
    rwa [← List.mem_singleton.mp hb, ← hab]
  · rw [hresumes] at hr
    cases hr
  · show if s.Refused then s.strays.length + server.remaining = 2 else s.strays = []
    rwa [if_neg hcalm]

/-- The socket is still the server's when it listens. -/
theorem Tracked.listens {fd : Nat} (h : Tracked s) (hpc : s.server = .setup fd .listen) :
    Tracked { s.setDescriptor fd (some .listener) with server := .epollCreate fd } := by
  have hactive : s.server.active = true := by
    rw [hpc]
    rfl
  have hcalm := h.not_refused hpc rfl
  have howns := h.owns
  have hnodup := h.nodup
  have hnames := h.names
  have hstrays := h.strays
  rw [hpc] at howns hnodup hnames hstrays
  have hfd : s.ofServer fd = true := (howns fd).mpr (List.mem_singleton_self fd)
  have hold : s.descriptors fd ≠ some .event := by
    intro hevent
    rw [ofServer, hevent] at hfd
    cases hfd
  refine ⟨h.early_of_serving hactive rfl, fun _ => h.serving hactive, fun m => ?_, hnames, ?_, hnodup,
    fun hr => absurd hr hcalm, nofun, hstrays⟩
  · exact (event_setDescriptor hold (by simp)).trans (h.efd m)
  · intro m
    refine Iff.trans ?_ (howns m)
    show (s.setDescriptor fd (some .listener)).ofServer m = true ↔ s.ofServer m = true
    rw [ofServer_setDescriptor]
    split
    · next heq =>
        rw [heq, hfd]
        rfl
    · exact Iff.rfl

theorem Tracked.setup {fd : Nat} {pc : SetupPc} (h : Tracked s) (hpc : s.server = .setup fd pc)
    (hstep : s.setupStep fd pc r = some t) : Tracked t := by
  have hcalm := h.not_refused hpc rfl
  unfold setupStep at hstep
  split at hstep <;> cases hstep
  · exact h.quiet ⟨rfl, rfl, rfl, rfl, Iff.rfl⟩ hpc rfl rfl (List.Subset.refl _) (List.Perm.refl _) rfl
      hcalm.elim nofun
  · exact h.quiet ⟨rfl, rfl, rfl, rfl, refused_append (by decide)⟩ hpc hpc rfl (List.Subset.refl _)
      (List.Perm.refl _) rfl hcalm.elim nofun
  · exact h.quiet ⟨rfl, rfl, rfl, rfl, Iff.rfl⟩ hpc rfl rfl (List.Subset.refl _) (List.Perm.refl _) rfl
      hcalm.elim nofun
  · exact h.quiet ⟨rfl, rfl, rfl, rfl, refused_append (by decide)⟩ hpc rfl rfl (List.Subset.refl _)
      (List.Perm.refl _) rfl hcalm.elim nofun
  · exact h.quiet ⟨rfl, rfl, rfl, rfl, Iff.rfl⟩ hpc rfl rfl (List.Subset.refl _) (List.Perm.refl _) rfl
      hcalm.elim nofun
  · exact h.quiet ⟨rfl, rfl, rfl, rfl, refused_append (by decide)⟩ hpc rfl rfl (List.Subset.refl _)
      (List.Perm.refl _) rfl hcalm.elim nofun
  · exact h.listens hpc
  · exact h.quiet ⟨rfl, rfl, rfl, rfl, refused_append (by decide)⟩ hpc rfl rfl (List.Subset.refl _)
      (List.Perm.refl _) rfl hcalm.elim nofun

/-- Every step in the loop leaves it or stays there. -/
theorem Tracked.loop {fds : ServerFds} {pc : PollPc} (h : Tracked s) (hpc : s.server = .loop fds pc)
    (hstep : s.loopStep fds pc r = some t) : Tracked t := by
  have hcalm := h.not_refused hpc rfl
  have hstay : Quiet s t → ∀ pc', t.server = .loop fds pc' → Tracked t := fun q pc' ht =>
    h.quiet q hpc ht rfl (List.Subset.refl _) (List.Perm.refl _) rfl hcalm.elim nofun
  have hleave : Quiet s t → t.server = .closing [fds.epoll, fds.server] .ends → Tracked t := by
    intro q ht
    refine h.quiet q hpc ht rfl ?_ ?_ rfl hcalm.elim nofun
    · exact (List.Perm.swap _ _ _).subset
    · rw [decide_eq_false hcalm]
      exact List.Perm.swap _ _ _
  unfold loopStep waitStep at hstep
  split at hstep
  · split at hstep
    · dsimp only at hstep
      split at hstep
      · split at hstep <;> cases hstep
        exact h
      · split at hstep <;> cases hstep
        exact hstay ⟨rfl, rfl, rfl, rfl, Iff.rfl⟩ _ rfl
    · split at hstep <;> cases hstep
      exact hleave ⟨rfl, rfl, rfl, rfl, refused_append (by decide)⟩ rfl
  · cases hstep
    exact hstay ⟨rfl, rfl, rfl, rfl, Iff.rfl⟩ _ rfl
  · split at hstep <;> cases hstep <;> exact hstay ⟨rfl, rfl, rfl, rfl, Iff.rfl⟩ _ rfl
  · split at hstep <;> cases hstep
    exact hstay ⟨rfl, rfl, rfl, rfl, Iff.rfl⟩ _ rfl
  · split at hstep <;> cases hstep
    exact hstay ⟨rfl, rfl, rfl, rfl, Iff.rfl⟩ _ rfl
  · cases hstep
    exact hstay ⟨rfl, rfl, rfl, rfl, Iff.rfl⟩ _ rfl
  · next flag =>
    cases hstep
    cases flag with
    | true => exact hleave ⟨rfl, rfl, rfl, rfl, Iff.rfl⟩ rfl
    | false => exact hstay ⟨rfl, rfl, rfl, rfl, Iff.rfl⟩ _ rfl
  · cases hstep

theorem ofServer_closeOwn (s : Server) (fd n : Nat) :
    (s.closeOwn fd).ofServer n = if n = fd then false else s.ofServer n :=
  ofServer_setDescriptor s fd n none

/-- `close` takes the next descriptor off the list, or hits one that is not the server's. -/
theorem Tracked.closes {fd : Nat} {todo : List Nat} {after : AfterClose} (h : Tracked s)
    (hpc : s.server = .closing (fd :: todo) after) :
    Tracked { s.closeOwn fd with server := .closing todo after } := by
  have hactive : s.server.active = true := by
    rw [hpc]
    rfl
  have howns := h.owns
  have hnodup := h.nodup
  have hnames := h.names
  have hcalm := h.calm
  have hresumes := h.resumes
  have hstrays := h.strays
  rw [hpc] at howns hnodup hnames hcalm hresumes hstrays
  have hefd : s.descriptors fd ≠ some .event := by
    intro hevent
    exact hnames fd List.mem_cons_self ((h.efd fd).mp hevent).2
  have hheld : ∀ refused, (ServerPc.closing (fd :: todo) after).held refused = [] ∧
      (ServerPc.closing todo after).held refused = [] ∧ refused = true ∧ after = .ends ∨
      (ServerPc.closing (fd :: todo) after).held refused = fd :: todo ∧
      (ServerPc.closing todo after).held refused = todo ∧ (refused = false ∨ after ≠ .ends) := by
    intro refused
    cases after <;> cases refused <;> simp [ServerPc.held]
  refine ⟨h.early_of_serving hactive rfl, fun _ => h.serving hactive, fun m => ?_, ?_, fun m => ?_, ?_,
    ?_, ?_, ?_⟩
  · exact (event_setDescriptor hefd (by simp)).trans (h.efd m)
  · exact fun m hm => hnames m (List.mem_cons_of_mem _ hm)
  · show (s.closeOwn fd).ofServer m = true ↔ m ∈ (ServerPc.closing todo after).held (decide s.Refused)
    have hm := howns m
    rw [ofServer_closeOwn]
    rcases hheld (decide s.Refused) with ⟨hbefore, hnow, _, _⟩ | ⟨hbefore, hnow, _⟩
    · rw [hbefore] at hm
      rw [hnow]
      split
      · simp
      · exact hm
    · rw [hbefore, List.mem_cons] at hm
      rw [hbefore, List.nodup_cons] at hnodup
      rw [hnow]
      split
      · next heq => simp [heq, hnodup.1]
      · next hne => exact hm.trans (or_iff_right hne)
  · show ((ServerPc.closing todo after).held (decide s.Refused)).Nodup
    rcases hheld (decide s.Refused) with ⟨_, hnow, _, _⟩ | ⟨hbefore, hnow, _⟩
    · rw [hnow]
      exact List.nodup_nil
    · rw [hbefore] at hnodup
      rw [hnow]
      exact (List.nodup_cons.mp hnodup).2
  · cases after <;> exact hcalm
  · cases after <;> exact hresumes
  · show if s.Refused then (if s.ofServer fd then s.strays else s.strays ++ [fd]).length +
        (ServerPc.closing todo after).remaining = 2
      else (if s.ofServer fd then s.strays else s.strays ++ [fd]) = []
    have hfd := howns fd
    rcases hheld (decide s.Refused) with ⟨hbefore, _, hr, rfl⟩ | ⟨hbefore, _, hr⟩
    · rw [hbefore] at hfd
      have hnot : ¬ s.ofServer fd = true := fun ho => absurd (hfd.mp ho) List.not_mem_nil
      rw [if_pos (of_decide_eq_true hr)] at hstrays ⊢
      rw [if_neg hnot, List.length_append, List.length_singleton]
      show s.strays.length + 1 + todo.length = 2
      have hlen : s.strays.length + (todo.length + 1) = 2 := hstrays
      omega
    · rw [hbefore] at hfd
      have hyes : s.ofServer fd = true := hfd.mpr List.mem_cons_self
      rw [if_pos hyes]
      rcases hr with hr | hafter
      · rw [if_neg (of_decide_eq_false hr)] at hstrays ⊢
        exact hstrays
      · cases after with
        | ends => exact absurd rfl hafter
        | exits => exact hstrays
        | addEvent fds => exact hstrays

theorem Tracked.closing {todo : List Nat} {after : AfterClose} (h : Tracked s)
    (hpc : s.server = .closing todo after) (hstep : s.closingStep todo after = some t) : Tracked t := by
  unfold closingStep at hstep
  split at hstep <;> cases hstep
  · exact h.closes hpc
  · exact h.quiet ⟨rfl, rfl, rfl, rfl, Iff.rfl⟩ hpc hpc rfl (List.Subset.refl _) (List.Perm.refl _) rfl
      (fun hr => hpc ▸ h.calm hr) nofun
  · have hr : s.Refused := h.resumes (by rw [hpc]; rfl)
    refine h.quiet ⟨rfl, rfl, rfl, rfl, Iff.rfl⟩ hpc rfl rfl (List.Subset.refl _) ?_ rfl (fun _ => rfl)
      nofun
    simp [ServerPc.held, hr]
  · exact h.quiet ⟨rfl, rfl, rfl, rfl, Iff.rfl⟩ hpc rfl rfl (List.nil_subset _)
      (by simp [ServerPc.held, ServerPc.names]) rfl (fun _ => rfl) nofun

/-- An added descriptor is watched; nothing is opened or closed. -/
theorem quiet_add {epollFd : Nat} {fd : Int} {pc : ServerPc} (hstep : s.addStep epollFd fd pc = some t) :
    Quiet s t ∧ t.server = pc ∧ s.descriptors epollFd = some .epoll ∧
      (∃ n : Nat, fd = n ∧ t.epoll = s.epoll.add s.readable n) ∧ t.counter = s.counter ∧
      t.shutdownMutex = s.shutdownMutex := by
  unfold addStep at hstep
  split at hstep <;> cases hstep
  next hadd =>
  exact ⟨⟨rfl, rfl, rfl, rfl, Iff.rfl⟩, rfl, hadd.1, ⟨fd.toNat, (Int.toNat_of_nonneg hadd.2.1).symm, rfl⟩,
    rfl, rfl⟩

/-- After the refusal both descriptors are closed before the next statement. -/
theorem Tracked.refuses {fds : ServerFds} (h : Tracked s) (hpc : s.server = .addServer fds) :
    Tracked { s.perror refusal with server := .closing [fds.server, fds.epoll] (.addEvent fds) } := by
  have hactive : s.server.active = true := by
    rw [hpc]
    rfl
  have hcalm := h.not_refused hpc rfl
  have howns := h.owns
  have hnodup := h.nodup
  have hnames := h.names
  have hstrays := h.strays
  rw [hpc] at howns hnodup hnames hstrays
  rw [if_neg hcalm] at hstrays
  have hr : refusal ∈ s.perrors ++ [refusal] := List.mem_append_right _ List.mem_cons_self
  refine ⟨h.early_of_serving hactive rfl, fun _ => h.serving hactive, h.efd, ?_, howns, hnodup,
    fun _ => rfl, fun _ => hr, ?_⟩
  · intro m hm
    refine hnames m ?_
    rcases List.mem_append.mp hm with hm | hm <;> exact hm
  · show if refusal ∈ s.perrors ++ [refusal] then s.strays.length + 2 = 2 else s.strays = []
    rw [if_pos hr, hstrays]
    rfl

theorem Tracked.server (h : Tracked s) (hstep : s.serverStep r = some t) : Tracked t := by
  unfold serverStep at hstep
  split at hstep
  · next hpc => exact h.opens hstep hpc rfl rfl rfl rfl rfl rfl
  · next hpc =>
      cases hstep
      exact h.quiet ⟨rfl, rfl, rfl, rfl, refused_append (by decide)⟩ hpc hpc rfl (List.Subset.refl _)
        (List.Perm.refl _) rfl (h.not_refused hpc rfl).elim nofun
  · next hpc => exact h.setup hpc hstep
  · next hpc => exact h.opens hstep hpc rfl rfl rfl rfl rfl rfl
  · next hpc =>
      cases hstep
      exact h.quiet ⟨rfl, rfl, rfl, rfl, refused_append (by decide)⟩ hpc hpc rfl (List.Subset.refl _)
        (List.Perm.refl _) rfl (h.not_refused hpc rfl).elim nofun
  · next hpc =>
      have hcalm := h.not_refused hpc rfl
      obtain ⟨q, ht, _⟩ := quiet_add hstep
      refine h.quiet q hpc ht rfl (List.Subset.refl _) ?_ rfl hcalm.elim nofun
      simp [ServerPc.held, ServerPc.names, hcalm]
  · next hpc =>
      cases hstep
      exact h.refuses hpc
  · next fds hpc =>
      obtain ⟨q, ht, hepoll, _⟩ := quiet_add hstep
      -- after a refusal there is no epoll instance
      have hcalm : ¬ s.Refused := by
        intro hr
        have howns := (h.owns fds.epoll).mp (by rw [ofServer, hepoll]; rfl)
        simp [hpc, ServerPc.held, hr] at howns
      refine h.quiet q hpc ht rfl (List.Subset.refl _) ?_ rfl hcalm.elim nofun
      simp [ServerPc.held, ServerPc.names, hcalm]
  · next hpc =>
      cases hstep
      exact h.quiet ⟨rfl, rfl, rfl, rfl, refused_append (by decide)⟩ hpc rfl rfl (List.Subset.refl _)
        (List.Perm.refl _) rfl (fun _ => rfl) nofun
  · next hpc => exact h.loop hpc hstep
  · next hpc => exact h.closing hpc hstep
  · cases hstep

/-- A step of another thread that leaves the descriptors alone. -/
theorem Tracked.turn (h : Tracked s) (hserver : t.server = s.server) (hefd : t.efd = s.efd)
    (hdesc : t.descriptors = s.descriptors) (hstrays : t.strays = s.strays)
    (hrefused : t.Refused ↔ s.Refused) (hearly : t.main.early = true → s.main.early = true)
    (hserving : s.main.serving = true → t.server.active = true → t.main.serving = true)
    (hopen : t.main.efdOpen = s.main.efdOpen) : Tracked t where
  early := fun he => hserver ▸ h.early (hearly he)
  serving := fun hactive => hserving (h.serving (hserver ▸ hactive)) hactive
  efd := by
    rw [hdesc, hefd, hopen]
    exact h.efd
  names := by
    rw [hserver, hefd]
    exact h.names
  owns := fun n => by
    have howns := h.owns n
    rw [ofServer] at howns ⊢
    simp only [hrefused]
    rwa [hdesc, hserver]
  nodup := by
    simp only [hrefused, hserver]
    exact h.nodup
  calm := fun hr => by
    rw [hserver]
    exact h.calm (hrefused.mp hr)
  resumes := fun hr => hrefused.mpr (h.resumes (hserver ▸ hr))
  strays := by
    simp only [hrefused, hserver, hstrays]
    exact h.strays

/-- A descriptor that is neither the server's nor the eventfd changes hands. -/
theorem Tracked.others {fd : Nat} {d : Option Descriptor} (h : Tracked s) (hserver : t.server = s.server)
    (hmain : t.main = s.main) (hefd : t.efd = s.efd)
    (hdesc : t.descriptors = Function.update s.descriptors fd d) (hstrays : t.strays = s.strays)
    (hrefused : t.Refused ↔ s.Refused)
    (hold : s.descriptors fd = none ∨ s.descriptors fd = some .other) (hnew : d = none ∨ d = some .other) :
    Tracked t := by
  have hevent : ∀ n, t.descriptors n = some .event ↔ s.descriptors n = some .event := by
    intro n
    rw [hdesc]
    apply event_setDescriptor
    · rcases hold with hold | hold <;> simp [hold]
    · rcases hnew with rfl | rfl <;> simp
  have hown : ∀ n, t.ofServer n = s.ofServer n := by
    intro n
    rw [ofServer, hdesc]
    refine (ofServer_setDescriptor s fd n d).trans ?_
    split
    · next heq =>
        rw [heq, ofServer]
        rcases hold with hold | hold <;> rcases hnew with rfl | rfl <;> rw [hold] <;> rfl
    · rfl
  -- the rest is as if nothing had happened
  have hturn : Tracked { t with descriptors := s.descriptors } :=
    h.turn hserver hefd rfl hstrays hrefused (fun he => hmain ▸ he) (fun hs _ => hmain ▸ hs)
      (congrArg MainPc.efdOpen hmain)
  refine ⟨hturn.early, hturn.serving, fun n => (hevent n).trans (hturn.efd n), hturn.names, fun n => ?_,
    hturn.nodup, hturn.calm, hturn.resumes, hturn.strays⟩
  rw [hown]
  exact hturn.owns n

/-- The eventfd, when there is no server thread yet or no longer. -/
theorem Tracked.eventfd {fd : Nat} {d : Option Descriptor} (h : Tracked s)
    (hidle : s.server.active = false) (hserver : t.server = s.server)
    (hdesc : t.descriptors = Function.update s.descriptors fd d) (hstrays : t.strays = s.strays)
    (hrefused : t.Refused ↔ s.Refused) (hearly : t.main.early = true → s.main.early = true)
    (hold : s.descriptors fd = none ∨ s.descriptors fd = some .event) (hnew : d = none ∨ d = some .event)
    (hefd : ∀ n, t.descriptors n = some .event ↔ t.main.efdOpen = true ∧ t.efd = n) : Tracked t := by
  have hown : ∀ n, t.ofServer n = s.ofServer n := by
    intro n
    rw [ofServer, hdesc]
    refine (ofServer_setDescriptor s fd n d).trans ?_
    split
    · next heq =>
        rw [heq, ofServer]
        rcases hold with hold | hold <;> rcases hnew with rfl | rfl <;> rw [hold] <;> rfl
    · rfl
  have hnames : s.server.names = [] := by
    cases hs : s.server <;> rw [hs] at hidle <;> first | rfl | cases hidle
  refine ⟨fun he => hserver ▸ h.early (hearly he), fun ha => ?_, hefd, fun n hn => ?_, fun n => ?_, ?_,
    fun hr => ?_, fun hr => ?_, ?_⟩
  · rw [hserver, hidle] at ha
    cases ha
  · rw [hserver, hnames] at hn
    cases hn
  · simp only [hrefused]
    rw [hown, hserver]
    exact h.owns n
  · simp only [hrefused, hserver]
    exact h.nodup
  · rw [hserver]
    exact h.calm (hrefused.mp hr)
  · exact hrefused.mpr (h.resumes (hserver ▸ hr))
  · simp only [hrefused, hserver, hstrays]
    exact h.strays

end Steps

end Server

end Btide
