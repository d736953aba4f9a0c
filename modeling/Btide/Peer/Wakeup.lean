import Btide.Peer.Descriptors

/-!
# `Peer.Wakeup` — the flag, the mutex and the eventfd

`Synced` says how far the two threads have come together. Its heart is `Watches`: once `QUIT` has written to
the eventfd, the epoll instance has the eventfd on its ready list or `server` has it among the events it has
yet to look at. The write may come before the eventfd is watched, while the thread waits, or between two
calls of `epoll_wait`.

With `Tracked` this is the invariant `Kept`, which every step of the system keeps up (`Kept.step`).
-/

namespace Btide

/-! ## Where the threads are -/

/-- `main_loop` is set. -/
def MainPc.loops : MainPc → Bool
  | .eventfd => true
  | .create => true
  | .command => true
  | .stop => true
  | _ => false

/-- `shutdown_flag` is set. -/
def MainPc.flagged : MainPc → Bool
  | .unlock => true
  | .write => true
  | .join => true
  | .release => true
  | .closeEfd => true
  | .returned => true
  | _ => false

/-- The eventfd has been written to. -/
def MainPc.written : MainPc → Bool
  | .join => true
  | .release => true
  | .closeEfd => true
  | .returned => true
  | _ => false

/-- `shutdown_mutex` is locked. -/
def MainPc.holds : MainPc → Bool
  | .setFlag => true
  | .unlock => true
  | _ => false

def ServerPc.holds : ServerPc → Bool
  | .loop _ (.test _) => true
  | .loop _ (.unlock _ _) => true
  | _ => false

/-- The thread has not read from the eventfd, and will do so. -/
def ServerPc.unread : ServerPc → Bool
  | .loop _ (.lock _) => false
  | .loop _ (.test _) => false
  | .loop _ (.unlock _ _) => false
  | .closing _ .ends => false
  | .ended => false
  | _ => true

namespace Server

/-! ## The flag and the eventfd -/

/-- The epoll instance watches the eventfd, and no signal gets lost: what has been written to the eventfd
    is among the events that are ready or among those that `server` has yet to look at. -/
structure Watches (s : Server) (fds : ServerFds) (events : List Nat) : Prop where
  epoll : s.descriptors fds.epoll = some .epoll
  watched : ∃ n : Nat, s.efd = n ∧ n ∈ s.epoll.watched ∧
    (s.main.written = true → n ∈ s.epoll.ready ∨ n ∈ events) ∧ (n ∈ events → s.main.written = true)

/-- What the server thread can rely on. -/
def Knows (s : Server) : ServerPc → Prop
  | .loop fds .wait => s.Watches fds []
  | .loop fds (.scan events) => s.Watches fds events
  | .loop _ (.read _) => s.main.written = true ∧ 0 ≤ s.efd
  | .loop _ (.lock _) => s.main.written = true
  | .loop _ (.test _) => s.main.written = true
  | .loop _ (.unlock _ flag) => s.main.written = true ∧ flag = true
  | .closing _ .ends => s.main.written = true ∨ eventRefusal ∈ s.perrors
  | .ended => s.main.written = true ∨ eventRefusal ∈ s.perrors
  | _ => True

/-- How far the two threads have come together. -/
structure Synced (s : Server) : Prop where
  mainLoop : s.mainLoop = s.main.loops
  flag : s.shutdownFlag = s.main.flagged
  mutex : s.shutdownMutex =
    if s.main.holds then some .main else if s.server.holds then some .server else none
  apart : s.server.holds = true → s.main.written = true
  counter : 0 < s.counter → s.main.written = true
  unread : s.main.written = true → s.server.unread = true → 0 ≤ s.efd → 0 < s.counter
  knows : s.Knows s.server

theorem MainPc.flagged_of_written {pc : MainPc} (h : pc.written = true) : pc.flagged = true := by
  cases pc <;> first | rfl | cases h

theorem MainPc.not_holds_of_written {pc : MainPc} (h : pc.written = true) : pc.holds = false := by
  cases pc <;> first | rfl | cases h

section Synced

variable {s t : Server} {r : Result}

/-- A step of `server` that leaves the mutex and the eventfd alone. -/
theorem Synced.moves {pc pc' : ServerPc} (h : Synced s) (hstep : s.serverStep r = some t)
    (hs : s.server = pc) (ht : t.server = pc') (hmutex : t.shutdownMutex = s.shutdownMutex)
    (hcounter : t.counter = s.counter) (hholds : pc'.holds = pc.holds)
    (hunread : pc'.unread = true → pc.unread = true) (hknows : t.Knows pc') : Synced t := by
  obtain ⟨hmain, hloop, hflag, hefd⟩ := serverStep_frame hstep
  refine ⟨?_, ?_, ?_, ?_, ?_, ?_, ht ▸ hknows⟩
  · rw [hloop, hmain, h.mainLoop]
  · rw [hflag, hmain, h.flag]
  · rw [hmutex, hmain, ht, hholds, ← hs, h.mutex]
  · rw [ht, hholds, hmain, ← hs]
    exact h.apart
  · rw [hcounter, hmain]
    exact h.counter
  · rw [ht, hmain, hefd, hcounter]
    exact fun hw hu => h.unread hw (hs ▸ hunread hu)

theorem Synced.setup {fd : Nat} {pc : SetupPc} (h : Synced s) (hpc : s.server = .setup fd pc)
    (hall : s.serverStep r = some t) (hstep : s.setupStep fd pc r = some t) : Synced t := by
  unfold setupStep at hstep
  split at hstep <;> cases hstep
  all_goals first
    | exact h.moves hall hpc rfl rfl rfl rfl (fun _ => rfl) trivial
    | exact h.moves hall hpc hpc rfl rfl rfl (fun _ => rfl) trivial

/-- What is ready now is reported or stays ready. -/
theorem Watches.report {fds : ServerFds} (h : Synced s) (hpc : s.server = .loop fds .wait)
    (hefd : ∀ n, s.descriptors n = some .event ↔ s.main.efdOpen = true ∧ s.efd = n)
    (hopen : s.main.efdOpen = true) {server : ServerPc} :
    Watches { s with epoll := (s.epoll.report s.readable maxEvents).2, server := server } fds
      (s.epoll.report s.readable maxEvents).1 := by
  have hw : s.Watches fds [] := by
    have hknows := h.knows
    rwa [hpc] at hknows
  obtain ⟨n, hn, hwatched, hready, _⟩ := hw.watched
  have hevent : s.descriptors n = some .event := (hefd n).mpr ⟨hopen, hn⟩
  refine ⟨hw.epoll, n, hn, hwatched, fun hwritten => ?_, fun hmem => ?_⟩
  · have hcounter : 0 < s.counter := by
      refine h.unread hwritten ?_ (by omega)
      rw [hpc]
      rfl
    rcases hready hwritten with hmem | hmem
    · refine (Epoll.mem_report_or_ready hmem ?_).symm
      simpa [readable, hevent] using hcounter
    · cases hmem
  · have hread := Epoll.readable_of_mem_report hmem
    simp only [readable, hevent, decide_eq_true_eq] at hread
    exact h.counter hread

theorem Synced.loop {fds : ServerFds} {pc : PollPc} (h : Synced s) (hpc : s.server = .loop fds pc)
    (hefd : ∀ n, s.descriptors n = some .event ↔ s.main.efdOpen = true ∧ s.efd = n)
    (hopen : s.main.efdOpen = true) (hall : s.serverStep r = some t)
    (hstep : s.loopStep fds pc r = some t) : Synced t := by
  have hknows := h.knows
  rw [hpc] at hknows
  unfold loopStep at hstep
  split at hstep
  · have hw : s.Watches fds [] := hknows
    rw [waitStep, if_pos hw.epoll] at hstep
    dsimp only at hstep
    split at hstep
    · split at hstep <;> cases hstep
      exact h
    · split at hstep <;> cases hstep
      exact h.moves hall hpc rfl rfl rfl rfl (fun _ => rfl) (Watches.report h hpc hefd hopen)
  · have hw : s.Watches fds [] := hknows
    cases hstep
    exact h.moves hall hpc rfl rfl rfl rfl (fun _ => rfl) ⟨hw.epoll, hw.watched⟩
  · next fd events =>
    have hw : s.Watches fds (fd :: events) := hknows
    obtain ⟨n, hn, hwatched, hready, hwritten⟩ := hw.watched
    split at hstep <;> cases hstep
    · next heq =>
        have hfd : fd = n := by omega
        refine h.moves hall hpc rfl rfl rfl rfl (fun _ => rfl) ⟨hwritten (hfd ▸ List.mem_cons_self), ?_⟩
        exact hn ▸ Int.natCast_nonneg n
    · next hne =>
        have hfd : n ≠ fd := by omega
        refine h.moves hall hpc rfl rfl rfl rfl (fun _ => rfl) ⟨hw.epoll, n, hn, hwatched, ?_, ?_⟩
        · exact fun hw => (hready hw).imp_right fun hmem => (List.mem_cons.mp hmem).resolve_left hfd
        · exact fun hmem => hwritten (List.mem_cons_of_mem _ hmem)
  · have hwritten : s.main.written = true := hknows.1
    split at hstep <;> cases hstep
    refine ⟨h.mainLoop, h.flag, ?_, fun _ => hwritten, fun _ => hwritten, fun _ hu => ?_, hwritten⟩
    · have hmutex := h.mutex
      rw [hpc] at hmutex
      exact hmutex
    · cases hu
  · have hwritten : s.main.written = true := hknows
    split at hstep <;> cases hstep
    refine ⟨h.mainLoop, h.flag, ?_, fun _ => hwritten, h.counter, fun _ hu => ?_, hwritten⟩
    · show some Party.server = if s.main.holds then some .main else some .server
      rw [MainPc.not_holds_of_written hwritten]
      rfl
    · cases hu
  · have hwritten : s.main.written = true := hknows
    cases hstep
    refine h.moves hall hpc rfl rfl rfl rfl (fun hu => ?_) ⟨hwritten, ?_⟩
    · cases hu
    · rw [h.flag]
      exact MainPc.flagged_of_written hwritten
  · obtain ⟨hwritten, rfl⟩ := hknows
    cases hstep
    refine ⟨h.mainLoop, h.flag, ?_, fun _ => hwritten, h.counter, fun _ hu => ?_, Or.inl hwritten⟩
    · show none = if s.main.holds then some Party.main else none
      rw [MainPc.not_holds_of_written hwritten]
      rfl
    · cases hu
  · cases hstep

theorem Synced.closing {todo : List Nat} {after : AfterClose} (h : Synced s)
    (hpc : s.server = .closing todo after) (hall : s.serverStep r = some t)
    (hstep : s.closingStep todo after = some t) : Synced t := by
  have hknows := h.knows
  rw [hpc] at hknows
  unfold closingStep at hstep
  split at hstep <;> cases hstep
  · next fd todo =>
    cases after with
    | exits => exact h.moves hall hpc rfl rfl rfl rfl (fun _ => rfl) trivial
    | addEvent fds => exact h.moves hall hpc rfl rfl rfl rfl (fun _ => rfl) trivial
    | ends => exact h.moves hall hpc rfl rfl rfl rfl (fun hu => hu) hknows
  · exact h.moves hall hpc hpc rfl rfl rfl (fun hu => hu) trivial
  · exact h.moves hall hpc rfl rfl rfl rfl (fun _ => rfl) trivial
  · exact h.moves hall hpc rfl rfl rfl rfl (fun hu => hu) hknows

/-- An eventfd that has been written to before is ready as soon as it is watched. -/
theorem Watches.add {fds : ServerFds} {n : Nat} (h : Synced s) (hpc : s.server = .addEvent fds)
    (hefd : ∀ n, s.descriptors n = some .event ↔ s.main.efdOpen = true ∧ s.efd = n)
    (hopen : s.main.efdOpen = true) (hepoll : s.descriptors fds.epoll = some .epoll) (hn : s.efd = n)
    (hmain : t.main = s.main) (hdesc : t.descriptors = s.descriptors) (hsame : t.efd = s.efd)
    (ht : t.epoll = s.epoll.add s.readable n) : t.Watches fds [] := by
  refine ⟨hdesc ▸ hepoll, n, hsame ▸ hn, ?_, fun hwritten => Or.inl ?_, nofun⟩
  · rw [ht, Epoll.watched_add]
    exact List.mem_append_right _ List.mem_cons_self
  · have hcounter : 0 < s.counter := by
      refine h.unread (hmain ▸ hwritten) ?_ (by omega)
      rw [hpc]
      rfl
    have hevent : s.descriptors n = some .event := (hefd n).mpr ⟨hopen, hn⟩
    rw [ht]
    exact Epoll.mem_ready_add_self (by simpa [readable, hevent] using hcounter)

theorem Synced.server (h : Synced s) (htracked : Tracked s) (hstep : s.serverStep r = some t) :
    Synced t := by
  have hall := hstep
  have hopen : s.server.active = true → s.main.efdOpen = true := fun hactive =>
    efdOpen_of_serving (htracked.serving hactive)
  unfold serverStep at hstep
  split at hstep
  · next hpc =>
      unfold openStep at hstep
      split at hstep <;> cases hstep
      exact h.moves hall hpc rfl rfl rfl rfl (fun _ => rfl) trivial
  · next hpc =>
      cases hstep
      exact h.moves hall hpc hpc rfl rfl rfl (fun _ => rfl) trivial
  · next hpc => exact h.setup hpc hall hstep
  · next hpc =>
      unfold openStep at hstep
      split at hstep <;> cases hstep
      exact h.moves hall hpc rfl rfl rfl rfl (fun _ => rfl) trivial
  · next hpc =>
      cases hstep
      exact h.moves hall hpc hpc rfl rfl rfl (fun _ => rfl) trivial
  · next hpc =>
      obtain ⟨_, ht, _, _, hcounter, hmutex⟩ := quiet_add hstep
      exact h.moves hall hpc ht hmutex hcounter rfl (fun _ => rfl) trivial
  · next hpc =>
      cases hstep
      exact h.moves hall hpc rfl rfl rfl rfl (fun _ => rfl) trivial
  · next hpc =>
      obtain ⟨q, ht, hepoll, ⟨n, hn, hadd⟩, hcounter, hmutex⟩ := quiet_add hstep
      have hwatches := Watches.add h hpc htracked.efd (hopen (by rw [hpc]; rfl)) hepoll hn q.main
        q.descriptors q.efd hadd
      exact h.moves hall hpc ht hmutex hcounter rfl (fun _ => rfl) hwatches
  · next hpc =>
      cases hstep
      refine h.moves hall hpc rfl rfl rfl rfl (fun hu => ?_) (Or.inr ?_)
      · cases hu
      · exact List.mem_append_right _ List.mem_cons_self
  · next hpc => exact h.loop hpc htracked.efd (hopen (by rw [hpc]; rfl)) hall hstep
  · next hpc => exact h.closing hpc hall hstep
  · cases hstep

end Synced

/-! ## The invariant -/

structure Kept (s : Server) : Prop where
  tracked : Tracked s
  synced : Synced s

section Kept

variable {s t : Server} {r : Result}

/-- Where the server thread stands, and what `Watches` speaks about, are as before. -/
theorem Knows.frame {pc : ServerPc} (h : s.Knows pc) (hmain : t.main.written = s.main.written)
    (hefd : t.efd = s.efd)
    (hepoll : ∀ n, s.descriptors n = some .epoll → t.descriptors n = some .epoll)
    (hwatched : pc.active = true → ∀ n : Nat, s.efd = n → n ∈ s.epoll.watched → n ∈ t.epoll.watched)
    (hready : pc.active = true → ∀ n : Nat, s.efd = n → n ∈ s.epoll.ready → n ∈ t.epoll.ready)
    (hperrors : t.perrors = s.perrors) : t.Knows pc := by
  have hwatches : pc.active = true → ∀ fds events, s.Watches fds events → t.Watches fds events := by
    rintro hactive fds events ⟨hfd, n, hn, hw, hr, hwritten⟩
    refine ⟨hepoll _ hfd, n, hefd.trans hn, hwatched hactive n hn hw, fun hm => ?_, fun hm => ?_⟩
    · exact (hr (hmain ▸ hm)).imp_left (hready hactive n hn)
    · exact hmain ▸ hwritten hm
  cases pc with
  | loop fds pc =>
      cases pc with
      | wait => exact hwatches rfl _ _ h
      | scan events => exact hwatches rfl _ _ h
      | read events => exact ⟨hmain.trans h.1, hefd ▸ h.2⟩
      | lock events => exact hmain.trans h
      | test events => exact hmain.trans h
      | unlock events flag => exact ⟨hmain.trans h.1, h.2⟩
  | closing todo after =>
      cases after with
      | ends => exact h.imp (hmain.trans ·) (hperrors ▸ ·)
      | exits => trivial
      | addEvent fds => trivial
  | ended => exact h.imp (hmain.trans ·) (hperrors ▸ ·)
  | _ => trivial

/-- A step of another thread than the two. -/
theorem Kept.environment (h : Kept s) (htracked : Tracked t) (hserver : t.server = s.server)
    (hmain : t.main = s.main) (hloop : t.mainLoop = s.mainLoop) (hflag : t.shutdownFlag = s.shutdownFlag)
    (hmutex : t.shutdownMutex = s.shutdownMutex) (hcounter : t.counter = s.counter)
    (hefd : t.efd = s.efd) (hknows : t.Knows s.server) : Kept t := by
  refine ⟨htracked, ?_, ?_, ?_, ?_, ?_, ?_, hserver ▸ hknows⟩
  · rw [hloop, hmain, h.synced.mainLoop]
  · rw [hflag, hmain, h.synced.flag]
  · rw [hmutex, hmain, hserver, h.synced.mutex]
  · rw [hmain, hserver]
    exact h.synced.apart
  · rw [hcounter, hmain]
    exact h.synced.counter
  · rw [hcounter, hmain, hserver, hefd]
    exact h.synced.unread

theorem Kept.arrive {fd : Nat} (h : Kept s) (hstep : s.arriveStep fd = some t) : Kept t := by
  unfold arriveStep at hstep
  split at hstep <;> cases hstep
  refine h.environment ?_ rfl rfl rfl rfl rfl rfl rfl ?_
  · exact h.tracked.turn rfl rfl rfl rfl Iff.rfl (fun he => he) (fun hs _ => hs) rfl
  · refine h.synced.knows.frame rfl rfl (fun _ hn => hn) (fun _ _ _ hn => ?_) (fun _ _ _ hn => ?_) rfl
    · rwa [Epoll.watched_signal]
    · exact Epoll.mem_ready_signal hn

theorem Kept.opens {fd : Nat} (h : Kept s) (hstep : s.opensStep fd = some t) : Kept t := by
  unfold opensStep at hstep
  split at hstep <;> cases hstep
  next hfree =>
  refine h.environment ?_ rfl rfl rfl rfl rfl rfl rfl ?_
  · exact h.tracked.others rfl rfl rfl rfl rfl Iff.rfl (Or.inl hfree) (Or.inr rfl)
  · refine h.synced.knows.frame rfl rfl (fun n hn => ?_) (fun _ _ _ hn => hn) (fun _ _ _ hn => hn) rfl
    rw [descriptors_setDescriptor, if_neg (by rintro rfl; simp [hfree] at hn)]
    exact hn

theorem Kept.closes {fd : Nat} (h : Kept s) (hstep : s.closesStep fd = some t) : Kept t := by
  unfold closesStep at hstep
  split at hstep <;> cases hstep
  next hother =>
  refine h.environment ?_ rfl rfl rfl rfl rfl rfl rfl ?_
  · exact h.tracked.others rfl rfl rfl rfl rfl Iff.rfl (Or.inr hother) (Or.inl rfl)
  · have hepoll : (s.close fd).epoll = s.epoll.forget fd := if_neg (by simp [hother])
    have hne : s.server.active = true → ∀ n : Nat, s.efd = n → n ≠ fd := by
      rintro hactive n hn rfl
      rw [(h.tracked.efd n).mpr ⟨efdOpen_of_serving (h.tracked.serving hactive), hn⟩] at hother
      cases hother
    refine h.synced.knows.frame rfl rfl (fun n hn => ?_) (fun ha n hn hm => ?_) (fun ha n hn hm => ?_) rfl
    · refine (descriptors_setDescriptor s fd n none).trans ?_
      rw [if_neg (by rintro rfl; simp [hother] at hn)]
      exact hn
    · rw [hepoll]
      exact Epoll.mem_watched_forget hm (hne ha n hn)
    · rw [hepoll]
      exact Epoll.mem_ready_forget hm (hne ha n hn)

theorem Kept.server (h : Kept s) (hstep : s.serverStep r = some t) : Kept t :=
  ⟨h.tracked.server hstep, h.synced.server h.tracked hstep⟩

/-- The thread of `main` goes on and touches nothing that the server thread relies on. -/
theorem Kept.moves {pc pc' : MainPc} (h : Kept s) (htracked : Tracked t) (hs : s.main = pc)
    (ht : t.main = pc') (hserver : t.server = s.server)
    (hloop : s.mainLoop = pc.loops → t.mainLoop = pc'.loops)
    (hflag : s.shutdownFlag = pc.flagged → t.shutdownFlag = pc'.flagged)
    (hmutex : (s.shutdownMutex =
        if pc.holds then some .main else if s.server.holds then some .server else none) →
      t.shutdownMutex = if pc'.holds then some .main else if s.server.holds then some .server else none)
    (hwritten : pc'.written = pc.written) (hcounter : t.counter = s.counter) (hefd : t.efd = s.efd)
    (hknows : t.Knows s.server) : Kept t := by
  have hsame : t.main.written = s.main.written := by rw [hs, ht, hwritten]
  have hmutex' := h.synced.mutex
  rw [hs] at hmutex'
  refine ⟨htracked, ht ▸ hloop (hs ▸ h.synced.mainLoop), ht ▸ hflag (hs ▸ h.synced.flag), ?_, ?_, ?_, ?_,
    hserver ▸ hknows⟩
  · rw [ht, hserver]
    exact hmutex hmutex'
  · rw [hserver, hsame]
    exact h.synced.apart
  · rw [hcounter, hsame]
    exact h.synced.counter
  · rw [hsame, hserver, hefd, hcounter]
    exact h.synced.unread

/-- The beginning of `main`, before there is anything to synchronize. -/
theorem Kept.starts {pc pc' : MainPc} (h : Kept s) (htracked : Tracked t) (hs : s.main = pc)
    (hpc : pc.early = true) (ht : t.main = pc') (hloop : s.mainLoop = true → t.mainLoop = pc'.loops)
    (hflag : t.shutdownFlag = s.shutdownFlag) (hmutex : t.shutdownMutex = s.shutdownMutex)
    (hcounter : t.counter = s.counter) (hserver : t.server = .absent ∨ t.server = .socket)
    (hearly : pc'.flagged = false ∧ pc'.holds = false ∧ pc'.written = false) : Kept t := by
  obtain ⟨hflagged, hholds, hwritten⟩ := hearly
  have habsent := h.tracked.early (hs ▸ hpc)
  have hbefore : pc.loops = true ∧ pc.flagged = false ∧ pc.holds = false ∧ pc.written = false := by
    cases pc <;> first | exact ⟨rfl, rfl, rfl, rfl⟩ | cases hpc
  have hmain := h.synced.mainLoop
  have hold := h.synced.mutex
  rw [hs, hbefore.1] at hmain
  rw [hs, hbefore.2.2.1, habsent] at hold
  have hzero : ¬ 0 < s.counter := by
    intro hpos
    have hw := h.synced.counter hpos
    rw [hs, hbefore.2.2.2] at hw
    cases hw
  refine ⟨htracked, ht ▸ hloop hmain, ?_, ?_, ?_, ?_, ?_, ?_⟩
  · rw [hflag, ht, hflagged, h.synced.flag, hs, hbefore.2.1]
  · rw [hmutex, hold, ht, hholds]
    rcases hserver with hserver | hserver
    · rw [hserver]
    · rw [hserver]
      rfl
  · rcases hserver with hserver | hserver <;> rw [hserver] <;> exact nofun
  · rw [hcounter]
    exact fun hpos => absurd hpos hzero
  · rw [ht, hwritten]
    exact nofun
  · rcases hserver with hserver | hserver <;> rw [hserver] <;> trivial

theorem Kept.eventfd {n : Nat} (h : Kept s) (hpc : s.main = .eventfd) (hfree : s.descriptors n = none) :
    Kept { s.setDescriptor n (some .event) with efd := n, main := .create } := by
  have habsent : s.server = .absent := h.tracked.early (by rw [hpc]; rfl)
  refine h.starts ?_ hpc rfl rfl (fun hl => hl) rfl rfl rfl (Or.inl habsent) ⟨rfl, rfl, rfl⟩
  refine h.tracked.eventfd (by rw [habsent]; rfl) rfl rfl rfl Iff.rfl (fun _ => by rw [hpc]; rfl)
    (Or.inl hfree) (Or.inr rfl) fun m => ?_
  show (s.setDescriptor n (some .event)).descriptors m = some .event ↔ _ ∧ (n : Int) = m
  rw [descriptors_setDescriptor]
  split
  · next heq => simp [heq, MainPc.efdOpen]
  · next hne =>
      rw [h.tracked.efd, hpc]
      simp only [MainPc.efdOpen, Bool.false_eq_true, false_and, true_and, false_iff]
      omega

/-- A message on the standard error stream, and the end. -/
theorem Kept.fatal {message : Str} (h : Kept s) (hmessage : refusal ≠ message)
    (hidle : s.server.active = false) : Kept (s.fatal message) := by
  refine h.environment ?_ rfl rfl rfl rfl rfl rfl rfl ?_
  · exact h.tracked.turn rfl rfl rfl rfl (refused_append hmessage) (fun he => he) (fun hs _ => hs) rfl
  · have hknows := h.synced.knows
    cases hs : s.server with
    | absent => trivial
    | ended =>
        rw [hs] at hknows
        exact hknows.imp_right (List.mem_append_left _)
    | _ =>
        rw [hs] at hidle
        cases hidle

theorem Kept.eventfdFails (h : Kept s) (hpc : s.main = .eventfd) :
    Kept { s with efd := -1, main := .create } := by
  have habsent : s.server = .absent := h.tracked.early (by rw [hpc]; rfl)
  refine h.starts ?_ hpc rfl rfl (fun hl => hl) rfl rfl rfl (Or.inl habsent) ⟨rfl, rfl, rfl⟩
  refine ⟨fun _ => habsent, fun ha => ?_, fun n => ?_, fun n hn => ?_, h.tracked.owns, h.tracked.nodup,
    h.tracked.calm, h.tracked.resumes, h.tracked.strays⟩
  · rw [show s.server = .absent from habsent] at ha
    cases ha
  · refine (h.tracked.efd n).trans ?_
    rw [hpc]
    simp only [MainPc.efdOpen, Bool.false_eq_true, false_and, true_and, false_iff]
    omega
  · rw [show s.server = .absent from habsent] at hn
    cases hn

/-- `main_loop` is still set. -/
theorem Kept.loopTest_eq (h : Kept s) (hloop : s.main.loops = true) : s.loopTest = .command := by
  rw [loopTest, h.synced.mainLoop, hloop]
  rfl

theorem Kept.creates (h : Kept s) (hpc : s.main = .create) :
    Kept { s with server := .socket, main := .command } := by
  have habsent : s.server = .absent := h.tracked.early (by rw [hpc]; rfl)
  refine h.starts ?_ hpc rfl rfl (fun hl => hl) rfl rfl rfl (Or.inr rfl) ⟨rfl, rfl, rfl⟩
  have howns := h.tracked.owns
  have hnodup := h.tracked.nodup
  have hstrays := h.tracked.strays
  have hcalm := h.tracked.calm
  rw [habsent] at howns hnodup hstrays hcalm
  refine ⟨nofun, fun _ => rfl, fun n => ?_, nofun, howns, hnodup, hcalm, nofun, hstrays⟩
  refine (h.tracked.efd n).trans ?_
  rw [hpc]
  exact Iff.rfl

/-- While `main` has it open, the eventfd is what `efd` says. -/
theorem Kept.efd_event (h : Kept s) (hopen : s.main.efdOpen = true) (hefd : 0 ≤ s.efd) :
    s.descriptors s.efd.toNat = some .event :=
  (h.tracked.efd _).mpr ⟨hopen, (Int.toNat_of_nonneg hefd).symm⟩

/-- **The wake-up.** The eventfd becomes readable, and if it is watched, ready. -/
theorem Kept.wakes (h : Kept s) (hpc : s.main = .write) : Kept { s.wake with main := .join } := by
  have hopen : s.main.efdOpen = true := by
    rw [hpc]
    rfl
  have hsync := h.synced
  have hmainLoop := hsync.mainLoop
  have hflag := hsync.flag
  have hmutex := hsync.mutex
  have hknows := hsync.knows
  rw [hpc] at hmainLoop hflag hmutex
  have htracked : ∀ {u : Server}, u.server = s.server → u.efd = s.efd → u.descriptors = s.descriptors →
      u.strays = s.strays → (u.Refused ↔ s.Refused) → u.main = .join → Tracked u := by
    intro u hserver hefd hdesc hstrays hrefused hmain
    refine h.tracked.turn hserver hefd hdesc hstrays hrefused ?_ ?_ ?_ <;> rw [hmain]
    · exact nofun
    · exact fun _ _ => rfl
    · rw [hpc]
      rfl
  -- only what the thread in its loop knows is about the eventfd
  have hrest : ∀ u : Server, u.main = .join → u.efd = s.efd →
      (∀ fds events, s.Watches fds events → u.Watches fds events) → u.Knows s.server := by
    intro u hu hefd hwatches
    have hwritten : u.main.written = true := by
      rw [hu]
      rfl
    cases hs : s.server with
    | loop fds pc =>
        rw [hs] at hknows
        cases pc with
        | wait => exact hwatches _ _ hknows
        | scan events => exact hwatches _ _ hknows
        | read events => exact ⟨hwritten, hefd ▸ hknows.2⟩
        | lock events => exact hwritten
        | test events => exact hwritten
        | unlock events flag => exact ⟨hwritten, hknows.2⟩
    | closing todo after => cases after <;> first | exact Or.inl hwritten | trivial
    | ended => exact Or.inl hwritten
    | _ => trivial
  unfold wake
  split
  · next hefd =>
      refine ⟨htracked rfl rfl rfl rfl Iff.rfl rfl, hmainLoop, hflag, hmutex, fun _ => rfl, fun _ => rfl,
        fun _ _ _ => Nat.succ_pos _, hrest _ rfl rfl ?_⟩
      rintro fds events ⟨hepoll, n, hn, hwatched, _, _⟩
      refine ⟨hepoll, n, hn, ?_, fun _ => Or.inl ?_, fun _ => rfl⟩
      · show n ∈ (s.epoll.signal s.efd.toNat).watched
        rwa [Epoll.watched_signal]
      · show n ∈ (s.epoll.signal s.efd.toNat).ready
        rw [hn, Int.toNat_natCast]
        exact Epoll.mem_ready_signal_self hwatched
  · next hno =>
      have hneg : ¬ 0 ≤ s.efd := fun hefd => hno ⟨hefd, h.efd_event hopen hefd⟩
      refine ⟨htracked rfl rfl rfl rfl Iff.rfl rfl, hmainLoop, hflag, hmutex, fun _ => rfl, fun _ => rfl,
        fun _ _ hefd => absurd hefd hneg, hrest _ rfl rfl ?_⟩
      rintro fds events ⟨_, n, hn, _⟩
      exact absurd (by omega) hneg

/-- `main` closes the eventfd when the server thread is gone. -/
theorem Kept.closesEfd (h : Kept s) (hpc : s.main = .closeEfd) :
    Kept ({ (if 0 ≤ s.efd then s.close s.efd.toNat else s) with main := .returned }.exit 0) := by
  have hidle : s.server.active = false := by
    cases ha : s.server.active with
    | false => rfl
    | true =>
        have hserving := h.tracked.serving ha
        rw [hpc] at hserving
        cases hserving
  have hmainLoop := h.synced.mainLoop
  have hflag := h.synced.flag
  have hmutex := h.synced.mutex
  rw [hpc] at hmainLoop hflag hmutex
  have hknows : ∀ u : Server, u.main = .returned → u.Knows s.server := by
    intro u hu
    have hwritten : u.main.written = true := by
      rw [hu]
      rfl
    cases hs : s.server with
    | absent => trivial
    | ended => exact Or.inl hwritten
    | _ =>
        rw [hs] at hidle
        cases hidle
  split
  · next hefd =>
      have hevent := h.efd_event (by rw [hpc]; rfl) hefd
      refine ⟨?_, hmainLoop, hflag, hmutex, fun _ => rfl, fun _ => rfl,
        fun _ hu hefd => h.synced.unread (by rw [hpc]; rfl) hu hefd, hknows _ rfl⟩
      refine h.tracked.eventfd hidle rfl rfl rfl Iff.rfl nofun (Or.inr hevent) (Or.inl rfl) fun n => ?_
      refine ⟨fun hn => ?_, nofun⟩
      have hold : (if n = s.efd.toNat then none else s.descriptors n) = some .event :=
        (descriptors_setDescriptor s s.efd.toNat n none).symm.trans hn
      split at hold
      · cases hold
      · next hne =>
          have hn' := ((h.tracked.efd n).mp hold).2
          exact absurd (by omega) hne
  · next hneg =>
      refine ⟨?_, hmainLoop, hflag, hmutex, fun _ => rfl, fun _ => rfl,
        fun _ _ hefd => absurd hefd hneg, hknows _ rfl⟩
      refine ⟨nofun, fun ha => ?_, fun n => ⟨fun hn => ?_, nofun⟩, h.tracked.names, h.tracked.owns,
        h.tracked.nodup, h.tracked.calm, h.tracked.resumes, h.tracked.strays⟩
      · have hactive : s.server.active = true := ha
        rw [hidle] at hactive
        cases hactive
      · have hn' := ((h.tracked.efd n).mp hn).2
        exact absurd (by omega) hneg

/-- A step of `main` that changes no descriptor and does not write to the eventfd. -/
theorem Kept.goes {pc pc' : MainPc} (h : Kept s) (hs : s.main = pc) (ht : t.main = pc')
    (hserver : t.server = s.server) (hefd : t.efd = s.efd) (hdesc : t.descriptors = s.descriptors)
    (hstrays : t.strays = s.strays) (hperrors : t.perrors = s.perrors) (hepoll : t.epoll = s.epoll)
    (hcounter : t.counter = s.counter) (hloop : s.mainLoop = pc.loops → t.mainLoop = pc'.loops)
    (hflag : s.shutdownFlag = pc.flagged → t.shutdownFlag = pc'.flagged)
    (hmutex : (s.shutdownMutex =
        if pc.holds then some .main else if s.server.holds then some .server else none) →
      t.shutdownMutex = if pc'.holds then some .main else if s.server.holds then some .server else none)
    (hearly : pc'.early = true → pc.early = true)
    (hserving : pc.serving = true → s.server.active = true → pc'.serving = true)
    (hpcs : pc'.written = pc.written ∧ pc'.efdOpen = pc.efdOpen) : Kept t := by
  obtain ⟨hwritten, hopen⟩ := hpcs
  refine h.moves ?_ hs ht hserver hloop hflag hmutex hwritten hcounter hefd ?_
  · refine h.tracked.turn hserver hefd hdesc hstrays ?_ ?_ ?_ ?_
    · rw [Refused, Refused, hperrors]
    · rwa [hs, ht]
    · rwa [hs, ht, hserver]
    · rw [hs, ht, hopen]
  · refine h.synced.knows.frame ?_ hefd (fun n hn => hdesc ▸ hn) (fun _ n _ hn => ?_)
      (fun _ n _ hn => ?_) hperrors
    · rw [hs, ht, hwritten]
    · rwa [hepoll]
    · rwa [hepoll]

/-- The loop is left when `QUIT` has returned. -/
theorem Kept.loopTest_closeEfd (h : Kept s) (hloop : s.main.loops = false) : s.loopTest = .closeEfd := by
  rw [loopTest, h.synced.mainLoop, hloop]
  rfl

theorem Kept.main (h : Kept s) (hstep : s.mainStep r = some t) : Kept t := by
  unfold mainStep at hstep
  split at hstep
  · next hpc =>
      split at hstep <;> cases hstep
      next hfree =>
      have hkept := h.eventfd hpc hfree
      have habsent : s.server = .absent := h.tracked.early (by rw [hpc]; rfl)
      split
      · exact hkept.fatal (by decide) (congrArg ServerPc.active habsent)
      · exact hkept
  · next hpc =>
      cases hstep
      exact h.eventfdFails hpc
  · next hpc =>
      cases hstep
      rw [h.loopTest_eq (by rw [hpc]; rfl)]
      exact h.creates hpc
  · next hpc =>
      cases hstep
      rw [h.loopTest_eq (by rw [hpc]; rfl)]
      exact h.goes hpc rfl rfl rfl rfl rfl rfl rfl rfl id id id nofun (fun _ _ => rfl) ⟨rfl, rfl⟩
  · next hpc =>
      cases hstep
      exact h.goes hpc rfl rfl rfl rfl rfl rfl rfl rfl (fun _ => rfl) id id nofun (fun _ _ => rfl)
        ⟨rfl, rfl⟩
  · next hpc =>
      split at hstep <;> cases hstep
      exact h.goes hpc rfl rfl rfl rfl rfl rfl rfl rfl id id (fun _ => rfl) nofun (fun _ _ => rfl)
        ⟨rfl, rfl⟩
  · next hpc =>
      cases hstep
      exact h.goes hpc rfl rfl rfl rfl rfl rfl rfl rfl id (fun _ => rfl) id nofun (fun _ _ => rfl)
        ⟨rfl, rfl⟩
  · next hpc =>
      cases hstep
      -- the server thread has not been woken up, so it does not hold the mutex
      have hfree : s.server.holds = false := by
        cases hholds : s.server.holds with
        | false => rfl
        | true =>
            have hwritten := h.synced.apart hholds
            rw [hpc] at hwritten
            cases hwritten
      refine h.goes hpc rfl rfl rfl rfl rfl rfl rfl rfl id id (fun _ => ?_) nofun (fun _ _ => rfl)
        ⟨rfl, rfl⟩
      rw [hfree]
      rfl
  · next hpc =>
      cases hstep
      exact h.wakes hpc
  · next hpc =>
      split at hstep <;> cases hstep
      next hended =>
      refine h.goes hpc rfl rfl rfl rfl rfl rfl rfl rfl id id id nofun (fun _ ha => ?_) ⟨rfl, rfl⟩
      rw [hended] at ha
      cases ha
  · next hpc =>
      cases hstep
      rw [h.loopTest_closeEfd (by rw [hpc]; rfl)]
      exact h.goes hpc rfl rfl rfl rfl rfl rfl rfl rfl id id id nofun nofun ⟨rfl, rfl⟩
  · next hpc =>
      cases hstep
      exact h.closesEfd hpc
  · cases hstep

theorem Kept.input {line : Option Str} (h : Kept s) (hstep : s.inputStep line = some t) : Kept t := by
  unfold inputStep at hstep
  split at hstep
  · next hpc =>
      have hloop := h.loopTest_eq (by rw [hpc]; rfl)
      split at hstep
      · cases hstep
        exact h.goes hpc hpc rfl rfl rfl rfl rfl rfl rfl id id id nofun (fun _ _ => rfl) ⟨rfl, rfl⟩
      · split at hstep <;> cases hstep
        · exact h.goes hpc rfl rfl rfl rfl rfl rfl rfl rfl id id id nofun (fun _ _ => rfl) ⟨rfl, rfl⟩
        · exact h.goes hpc hloop rfl rfl rfl rfl rfl rfl rfl id id id nofun (fun _ _ => rfl) ⟨rfl, rfl⟩
  · cases hstep

/-- **Step.** Whatever happens next keeps the invariant. -/
theorem Kept.step {e : Event} (h : Kept s) (hstep : s.step e = some t) : Kept t := by
  unfold Server.step at hstep
  split at hstep
  · split at hstep
    · exact h.main hstep
    · exact h.input hstep
    · exact h.server hstep
    · exact h.arrive hstep
    · exact h.opens hstep
    · exact h.closes hstep
  · cases hstep

theorem kept_init (opened : List Nat) : Kept (init opened) := by
  have hfalse : ∀ {P : Prop}, false = true → P := fun h => by cases h
  have hnone : ∀ n, (init opened).descriptors n ≠ some .event ∧ (init opened).ofServer n = false := by
    intro n
    rw [ofServer]
    show (if n ∈ opened then some Descriptor.other else none) ≠ _ ∧
      Option.any _ (if n ∈ opened then some Descriptor.other else none) = false
    split
    · exact ⟨by decide, rfl⟩
    · exact ⟨by decide, rfl⟩
  have hcalm : ¬ (init opened).Refused := List.not_mem_nil
  refine ⟨⟨fun _ => rfl, hfalse, fun n => ⟨fun hn => absurd hn (hnone n).1, fun hn => hfalse hn.1⟩,
    fun n hn => absurd hn List.not_mem_nil, fun n => ⟨fun hn => ?_, fun hn => absurd hn List.not_mem_nil⟩,
    List.nodup_nil, fun hr => absurd hr hcalm, hfalse, rfl⟩,
    ⟨rfl, rfl, rfl, hfalse, fun hpos => absurd hpos (Nat.lt_irrefl 0), hfalse, trivial⟩⟩
  rw [(hnone n).2] at hn
  exact hfalse hn

/-- **Run.** The invariant holds in every state that is reached. -/
theorem kept_of_runs {opened : List Nat} {es : List Event} (h : Runs (init opened) es s) : Kept s :=
  Steps.invariant_of_forall (P := fun _ => True) Kept (fun _ _ _ _ hs hstep => hs.step hstep) h
    (fun _ _ => trivial) (kept_init opened)

end Kept

end Server

end Btide
