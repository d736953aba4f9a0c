import Btide.Peer.Wakeup

/-!
# `Peer.Closing` — when the server thread leaves, and what is closed then

What holds in every state that is reached (`Reached`) has four consequences. `shutdown_flag` is set whenever
the server thread looks at it, so the thread ends because of `QUIT` or because it could not watch the eventfd
(`server_leaves`). When `main` returns, the thread has ended and all that the two have opened is closed
(`returned_closed`). `server` closes a descriptor that is not its own exactly if the listening socket could
not be added to the epoll instance (`strays_iff`); as long as this has not happened, no other thread loses
one (`others_undisturbed`).
-/

namespace Btide

/-- How many descriptors have been added to the epoll instance at most. -/
def ServerPc.added : ServerPc → Nat
  | .absent => 0
  | .socket => 0
  | .setup _ _ => 0
  | .epollCreate _ => 0
  | .addServer _ => 0
  | .addEvent _ => 1
  | .closing _ (.addEvent _) => 1
  | _ => 2

/-- The server thread has been joined. -/
def MainPc.joined : MainPc → Bool
  | .release => true
  | .closeEfd => true
  | .returned => true
  | _ => false

namespace Server

section Steps

variable {s t : Server} {r : Result} {e : Event} {es : List Event} {opened : List Nat}

/-! ## What the epoll instance watches -/

/-- It never watches more descriptors than have been added. -/
def Few (s : Server) : Prop := s.epoll.watched.length ≤ s.server.added

theorem Few.of_le (h : Few s) (hwatched : t.epoll.watched.length ≤ s.epoll.watched.length)
    (hadded : s.server.added ≤ t.server.added) : Few t :=
  Nat.le_trans hwatched (Nat.le_trans h hadded)

theorem close_watched_le (s : Server) (fd : Nat) :
    (s.close fd).epoll.watched.length ≤ s.epoll.watched.length := by
  show (if s.descriptors fd = some .epoll then Epoll.empty else s.epoll.forget fd).watched.length ≤ _
  split
  · exact Nat.zero_le _
  · exact Epoll.length_watched_forget_le

theorem Few.add {epollFd : Nat} {fd : Int} {pc : ServerPc} (h : Few s)
    (hstep : s.addStep epollFd fd pc = some t) (hadded : pc.added = s.server.added + 1) : Few t := by
  obtain ⟨_, ht, _, ⟨n, _, hepoll⟩, _⟩ := quiet_add hstep
  unfold Few at h ⊢
  rw [hepoll, Epoll.watched_add, List.length_append, List.length_singleton, ht, hadded]
  omega

theorem Few.server (h : Few s) (hstep : s.serverStep r = some t) : Few t := by
  unfold serverStep at hstep
  split at hstep
  · next hpc =>
      unfold openStep at hstep
      split at hstep <;> cases hstep
      exact h.of_le (Nat.le_refl _) (by rw [hpc]; exact Nat.zero_le _)
  · cases hstep
    exact h
  · next hpc =>
      have hzero : s.server.added = 0 := by
        rw [hpc]
        rfl
      unfold setupStep at hstep
      split at hstep <;> cases hstep <;> exact h.of_le (Nat.le_refl _) (hzero ▸ Nat.zero_le _)
  · next hpc =>
      unfold openStep at hstep
      split at hstep <;> cases hstep
      exact h.of_le (Nat.le_refl _) (by rw [hpc]; exact Nat.zero_le _)
  · cases hstep
    exact h
  · next hpc => exact h.add hstep (by rw [hpc]; rfl)
  · next hpc =>
      cases hstep
      exact h.of_le (Nat.le_refl _) (by rw [hpc]; exact Nat.zero_le _)
  · next hpc => exact h.add hstep (by rw [hpc]; rfl)
  · next hpc =>
      cases hstep
      exact h.of_le (Nat.le_refl _) (by rw [hpc]; exact Nat.le_succ 1)
  · next hpc =>
      have htwo : s.server.added ≤ 2 := by
        rw [hpc]
        exact Nat.le_refl 2
      unfold loopStep waitStep at hstep
      split at hstep
      · dsimp only at hstep
        split at hstep
        · split at hstep
          · split at hstep <;> cases hstep
            exact h
          · split at hstep <;> cases hstep
            exact h.of_le (Nat.le_refl s.epoll.watched.length) htwo
        · split at hstep <;> cases hstep
          exact h.of_le (Nat.le_refl _) htwo
      · cases hstep
        exact h.of_le (Nat.le_refl _) htwo
      · split at hstep <;> cases hstep <;> exact h.of_le (Nat.le_refl _) htwo
      · split at hstep <;> cases hstep
        exact h.of_le (Nat.le_refl _) htwo
      · split at hstep <;> cases hstep
        exact h.of_le (Nat.le_refl _) htwo
      · cases hstep
        exact h.of_le (Nat.le_refl _) htwo
      · next flag =>
        cases hstep
        cases flag <;> exact h.of_le (Nat.le_refl _) htwo
      · cases hstep
  · next todo after hpc =>
      unfold closingStep at hstep
      split at hstep <;> cases hstep
      · refine h.of_le (close_watched_le s _) ?_
        rw [hpc]
        cases after <;> exact Nat.le_refl _
      · exact h
      · exact h.of_le (Nat.le_refl _) (by rw [hpc]; exact Nat.le_refl _)
      · exact h.of_le (Nat.le_refl _) (by rw [hpc]; exact Nat.le_refl _)
  · cases hstep

/-- What `main` does to the server thread and to what it watches. -/
theorem mainStep_frame (h : Kept s) (hstep : s.mainStep r = some t) :
    (t.server = s.server ∨ s.main = .create ∧ t.server = .socket) ∧
      t.epoll.watched.length ≤ s.epoll.watched.length ∧
      (t.main.joined = true → s.main.joined = true ∨ s.server = .ended) := by
  unfold mainStep at hstep
  split at hstep
  · split at hstep <;> cases hstep
    split <;> exact ⟨Or.inl rfl, Nat.le_refl s.epoll.watched.length, nofun⟩
  · cases hstep
    exact ⟨Or.inl rfl, Nat.le_refl _, nofun⟩
  · next hpc =>
      cases hstep
      rw [h.loopTest_eq (by rw [hpc]; rfl)]
      exact ⟨Or.inr ⟨hpc, rfl⟩, Nat.le_refl _, nofun⟩
  · next hpc =>
      cases hstep
      rw [h.loopTest_eq (by rw [hpc]; rfl)]
      exact ⟨Or.inl rfl, Nat.le_refl _, nofun⟩
  · cases hstep
    exact ⟨Or.inl rfl, Nat.le_refl _, nofun⟩
  · split at hstep <;> cases hstep
    exact ⟨Or.inl rfl, Nat.le_refl _, nofun⟩
  · cases hstep
    exact ⟨Or.inl rfl, Nat.le_refl _, nofun⟩
  · cases hstep
    exact ⟨Or.inl rfl, Nat.le_refl _, nofun⟩
  · cases hstep
    unfold wake
    split
    · exact ⟨Or.inl rfl, Nat.le_of_eq (congrArg List.length Epoll.watched_signal), nofun⟩
    · exact ⟨Or.inl rfl, Nat.le_refl _, nofun⟩
  · split at hstep <;> cases hstep
    next hended => exact ⟨Or.inl rfl, Nat.le_refl _, fun _ => Or.inr hended⟩
  · next hpc =>
      cases hstep
      exact ⟨Or.inl rfl, Nat.le_refl _, fun _ => Or.inl (by rw [hpc]; rfl)⟩
  · next hpc =>
      cases hstep
      split
      · exact ⟨Or.inl rfl, close_watched_le s _, fun _ => Or.inl (by rw [hpc]; rfl)⟩
      · exact ⟨Or.inl rfl, Nat.le_refl _, fun _ => Or.inl (by rw [hpc]; rfl)⟩
  · cases hstep

/-- What is true of every state that is reached. -/
structure Reached (s : Server) : Prop where
  kept : Kept s
  few : Few s
  joined : s.main.joined = true → s.server = .ended

theorem Reached.step (h : Reached s) (hstep : s.step e = some t) : Reached t := by
  have hkept := h.kept.step hstep
  unfold Server.step at hstep
  split at hstep
  · split at hstep
    · obtain ⟨hserver, hwatched, hjoined⟩ := mainStep_frame h.kept hstep
      refine ⟨hkept, h.few.of_le hwatched ?_, fun hj => ?_⟩
      · rcases hserver with hserver | ⟨hpc, hserver⟩
        · exact Nat.le_of_eq (congrArg ServerPc.added hserver.symm)
        · rw [h.kept.tracked.early (by rw [hpc]; rfl)]
          exact Nat.zero_le _
      · rcases hserver with hserver | ⟨hpc, hserver⟩
        · rw [hserver]
          exact (hjoined hj).elim h.joined id
        · have habsent := h.kept.tracked.early (by rw [hpc]; rfl)
          rcases hjoined hj with hj | hended
          · rw [hpc] at hj
            cases hj
          · rw [habsent] at hended
            cases hended
    · unfold inputStep at hstep
      split at hstep
      · next hpc =>
          have hloop := h.kept.loopTest_eq (by rw [hpc]; rfl)
          split at hstep
          · cases hstep
            exact ⟨hkept, h.few, h.joined⟩
          · split at hstep <;> cases hstep
            · exact ⟨hkept, h.few, nofun⟩
            · exact ⟨hkept, h.few, by rw [hloop]; exact nofun⟩
      · cases hstep
    · refine ⟨hkept, h.few.server hstep, fun hj => ?_⟩
      rw [(serverStep_frame hstep).1] at hj
      unfold serverStep at hstep
      rw [h.joined hj] at hstep
      cases hstep
    · unfold arriveStep at hstep
      split at hstep <;> cases hstep
      exact ⟨hkept, h.few.of_le (Nat.le_of_eq (congrArg List.length Epoll.watched_signal)) (Nat.le_refl _),
        h.joined⟩
    · unfold opensStep at hstep
      split at hstep <;> cases hstep
      exact ⟨hkept, h.few, h.joined⟩
    · unfold closesStep at hstep
      split at hstep <;> cases hstep
      exact ⟨hkept, h.few.of_le (close_watched_le s _) (Nat.le_refl _), h.joined⟩
  · cases hstep

theorem reached_init (opened : List Nat) : Reached (init opened) :=
  ⟨kept_init opened, Nat.le_refl 0, nofun⟩

theorem reached_of_runs (h : Runs (init opened) es s) : Reached s :=
  Steps.invariant_of_forall (P := fun _ => True) Reached (fun _ _ _ _ hs hstep => hs.step hstep) h
    (fun _ _ => trivial) (reached_init opened)

/-! ## Safety -/

/-- **The flag is set when it is looked at.** -/
theorem server_leaves (h : Runs (init opened) es s) :
    (∀ fds events, s.server = .loop fds (.test events) → s.shutdownFlag = true) ∧
      (s.server = .ended → s.shutdownFlag = true ∨ eventRefusal ∈ s.perrors) := by
  have hsync := (kept_of_runs h).synced
  have hknows := hsync.knows
  constructor
  · intro fds events hpc
    rw [hpc] at hknows
    rw [hsync.flag]
    exact MainPc.flagged_of_written hknows
  · intro hpc
    rw [hpc] at hknows
    rw [hsync.flag]
    exact hknows.imp_left MainPc.flagged_of_written

/-- The server thread waits, a connection arrives, and the line `QUIT` is read. -/
def quitRun : List Event :=
  [.main (.fd 3), .main .ok, .server (.fd 4), .server .ok, .server .ok, .server .ok, .server .ok,
    .server (.fd 5), .server .ok, .server .ok, .arrive 4, .input (some (bytes "QUIT\n")), .main .ok,
    .main .ok, .main .ok, .server .ok, .main .ok, .main .ok, .server .ok, .server .ok, .server .ok,
    .server .ok, .server .ok, .server .ok, .server .ok, .server .ok, .server .ok, .server .ok,
    .server .ok, .main .ok, .main .ok, .main .ok]

theorem server_leaves_quitRun : ∃ s, Runs (init [0, 1, 2]) quitRun s ∧ s.shutdownFlag = true := by
  obtain ⟨s, hs⟩ := Option.isSome_iff_exists.mp
    (by decide : (runFrom step (init [0, 1, 2]) quitRun).isSome = true)
  have hended : s.server = .ended := runFrom_get hs (f := server) (by decide)
  have hperrors : s.perrors = [] := runFrom_get hs (f := perrors) (by decide)
  refine ⟨s, runFrom_steps hs, ((server_leaves (runFrom_steps hs)).2 hended).resolve_right ?_⟩
  rw [hperrors]
  exact List.not_mem_nil

/-- **Everything is closed at the end.** -/
theorem returned_closed (h : Runs (init opened) es s) (hreturned : s.main = .returned) :
    s.server = .ended ∧ ∀ n d, s.descriptors n = some d → d = .other := by
  have hreached := reached_of_runs h
  have hended := hreached.joined (by rw [hreturned]; rfl)
  have htracked := hreached.kept.tracked
  refine ⟨hended, fun n d hd => ?_⟩
  have howns := htracked.owns n
  rw [hended, ofServer, hd] at howns
  have hefd := htracked.efd n
  rw [hreturned, hd] at hefd
  cases d with
  | other => rfl
  | event =>
      have hopen := (hefd.mp rfl).1
      cases hopen
  | _ => exact absurd (howns.mp rfl) List.not_mem_nil

theorem returned_closed_quitRun : ∃ s, Runs (init [0, 1, 2]) quitRun s ∧
    s.server = .ended ∧ ∀ n d, s.descriptors n = some d → d = .other := by
  obtain ⟨s, hs⟩ := Option.isSome_iff_exists.mp
    (by decide : (runFrom step (init [0, 1, 2]) quitRun).isSome = true)
  exact ⟨s, runFrom_steps hs, returned_closed (runFrom_steps hs) (runFrom_get hs (f := main) (by decide))⟩

theorem Tracked.strays_nil (h : Tracked s) (hno : ¬ s.Refused) : s.strays = [] := by
  have hstrays := h.strays
  rwa [if_neg hno] at hstrays

/-- **When `server` closes what is not its own.** -/
theorem strays_iff (h : Runs (init opened) es s) (hended : s.server = .ended) :
    s.strays = [] ↔ refusal ∉ s.perrors := by
  have htracked := (kept_of_runs h).tracked
  refine ⟨fun hnil (hr : s.Refused) => ?_, htracked.strays_nil⟩
  have hstrays := htracked.strays
  rw [if_pos hr, hended, hnil] at hstrays
  cases hstrays

/-- The listening socket is refused, and a client thread gets the number of one of the descriptors. -/
def refusedRun : List Event :=
  [.main (.fd 3), .main .ok, .server (.fd 4), .server .ok, .server .ok, .server .ok, .server .ok,
    .server (.fd 5), .server .failed, .server .ok, .server .ok, .server .ok, .opens 4, .server .failed,
    .server .ok, .server .ok, .server .ok]

theorem strays_iff_refusedRun : ∃ s, Runs (init [0, 1, 2]) refusedRun s ∧ s.strays ≠ [] := by
  obtain ⟨s, hs⟩ := Option.isSome_iff_exists.mp
    (by decide : (runFrom step (init [0, 1, 2]) refusedRun).isSome = true)
  have hended : s.server = .ended := runFrom_get hs (f := server) (by decide)
  have hperrors : s.perrors = [refusal, eventRefusal] := runFrom_get hs (f := perrors) (by decide)
  refine ⟨s, runFrom_steps hs, fun hnil => (strays_iff (runFrom_steps hs) hended).mp hnil ?_⟩
  rw [hperrors]
  exact List.mem_cons_self

theorem ofServer_of_other {n : Nat} (h : s.descriptors n = some .other) : s.ofServer n = false := by
  rw [ofServer, h]
  rfl

theorem other_setDescriptor {fd n : Nat} {d : Option Descriptor} (hn : s.descriptors n = some .other)
    (hne : s.descriptors fd ≠ some .other) : (s.setDescriptor fd d).descriptors n = some .other := by
  rw [descriptors_setDescriptor, if_neg]
  · exact hn
  · rintro rfl
    exact hne hn

/-- What `server` does to the descriptors of others, and to the messages. -/
theorem serverStep_others (h : Kept s) (hstep : s.serverStep r = some t) :
    s.perrors ⊆ t.perrors ∧
      ∀ n, s.descriptors n = some .other → t.descriptors n = some .other ∨ t.strays ≠ [] := by
  have hsame : ∀ {u : Server} {m : List Str}, u.descriptors = s.descriptors → u.perrors = s.perrors ++ m →
      s.perrors ⊆ u.perrors ∧
        ∀ n, s.descriptors n = some .other → u.descriptors n = some .other ∨ u.strays ≠ [] := by
    intro u m hdesc hperrors
    rw [hdesc, hperrors]
    exact ⟨List.subset_append_left _ _, fun n hn => Or.inl hn⟩
  have hnil := (List.append_nil s.perrors).symm
  have hopen : ∀ {fd : Nat} {d : Descriptor} {pc : ServerPc}, s.openStep fd d pc = some t →
      s.perrors ⊆ t.perrors ∧
        ∀ n, s.descriptors n = some .other → t.descriptors n = some .other ∨ t.strays ≠ [] := by
    intro fd d pc hopen
    unfold openStep at hopen
    split at hopen <;> cases hopen
    next hfree =>
    exact ⟨List.Subset.refl _, fun n hn => Or.inl (other_setDescriptor hn (by rw [hfree]; exact nofun))⟩
  unfold serverStep at hstep
  split at hstep
  · exact hopen hstep
  · cases hstep
    exact hsame rfl rfl
  · next fd pc hpc =>
      have hown : s.ofServer fd = true := (h.tracked.owns fd).mpr (by rw [hpc]; exact List.mem_cons_self)
      unfold setupStep at hstep
      split at hstep <;> cases hstep
      · exact hsame rfl hnil
      · exact hsame rfl rfl
      · exact hsame rfl hnil
      · exact hsame rfl rfl
      · exact hsame rfl hnil
      · exact hsame rfl rfl
      · refine ⟨List.Subset.refl _, fun n hn => Or.inl (other_setDescriptor hn fun hfd => ?_)⟩
        rw [ofServer_of_other hfd] at hown
        cases hown
      · exact hsame rfl rfl
  · exact hopen hstep
  · cases hstep
    exact hsame rfl rfl
  · unfold addStep at hstep
    split at hstep <;> cases hstep
    exact hsame rfl hnil
  · cases hstep
    exact hsame rfl rfl
  · unfold addStep at hstep
    split at hstep <;> cases hstep
    exact hsame rfl hnil
  · cases hstep
    exact hsame rfl rfl
  · unfold loopStep waitStep at hstep
    split at hstep
    · dsimp only at hstep
      split at hstep
      · split at hstep
        · split at hstep <;> cases hstep
          exact hsame rfl hnil
        · split at hstep <;> cases hstep
          exact hsame rfl hnil
      · split at hstep <;> cases hstep
        exact hsame rfl rfl
    · cases hstep
      exact hsame rfl hnil
    · split at hstep <;> cases hstep <;> exact hsame rfl hnil
    · split at hstep <;> cases hstep
      exact hsame rfl hnil
    · split at hstep <;> cases hstep
      exact hsame rfl hnil
    · cases hstep
      exact hsame rfl hnil
    · cases hstep
      exact hsame rfl hnil
    · cases hstep
  · unfold closingStep at hstep
    split at hstep <;> cases hstep
    · next fd todo _ =>
      refine ⟨List.Subset.refl _, fun n hn => ?_⟩
      by_cases hfd : s.descriptors fd = some .other
      · -- somebody else's descriptor is closed
        right
        show (if s.ofServer fd then s.strays else s.strays ++ [fd]) ≠ []
        rw [if_neg (by rw [ofServer_of_other hfd]; exact Bool.false_ne_true)]
        simp
      · exact Or.inl (other_setDescriptor hn hfd)
    · exact hsame rfl hnil
    · exact hsame rfl hnil
    · exact hsame rfl hnil
  · cases hstep

theorem mainStep_others (h : Kept s) (hstep : s.mainStep r = some t) :
    s.perrors ⊆ t.perrors ∧ ∀ n, s.descriptors n = some .other → t.descriptors n = some .other := by
  have hsame : ∀ n, s.descriptors n = some .other → s.descriptors n = some .other := fun _ hn => hn
  unfold mainStep at hstep
  split at hstep
  · split at hstep <;> cases hstep
    next hfree =>
    have hopen := fun n (hn : s.descriptors n = some .other) =>
      other_setDescriptor (d := some .event) hn (by rw [hfree]; exact nofun)
    split
    · exact ⟨List.subset_append_left _ _, hopen⟩
    · exact ⟨List.Subset.refl _, hopen⟩
  · cases hstep
    exact ⟨List.Subset.refl _, hsame⟩
  · cases hstep
    exact ⟨List.Subset.refl _, hsame⟩
  · cases hstep
    exact ⟨List.Subset.refl _, hsame⟩
  · cases hstep
    exact ⟨List.Subset.refl _, hsame⟩
  · split at hstep <;> cases hstep
    exact ⟨List.Subset.refl _, hsame⟩
  · cases hstep
    exact ⟨List.Subset.refl _, hsame⟩
  · cases hstep
    exact ⟨List.Subset.refl _, hsame⟩
  · cases hstep
    unfold wake
    split <;> exact ⟨List.Subset.refl _, hsame⟩
  · split at hstep <;> cases hstep
    exact ⟨List.Subset.refl _, hsame⟩
  · cases hstep
    exact ⟨List.Subset.refl _, hsame⟩
  · next hpc =>
      cases hstep
      split
      · next hefd =>
          refine ⟨List.Subset.refl _, fun n hn => other_setDescriptor hn ?_⟩
          rw [h.efd_event (by rw [hpc]; rfl) hefd]
          exact nofun
      · exact ⟨List.Subset.refl _, hsame⟩
  · cases hstep

/-- A step closes a descriptor of others only in its own name or in that of `server`. -/
theorem step_others {n : Nat} (h : Kept s) (hstep : s.step e = some t) (he : e ≠ .closes n) :
    s.perrors ⊆ t.perrors ∧
      (s.descriptors n = some .other → t.descriptors n = some .other ∨ t.strays ≠ []) := by
  unfold Server.step at hstep
  split at hstep
  · split at hstep
    · obtain ⟨hperrors, hothers⟩ := mainStep_others h hstep
      exact ⟨hperrors, fun hn => Or.inl (hothers n hn)⟩
    · unfold inputStep at hstep
      split at hstep
      · split at hstep
        · cases hstep
          exact ⟨List.Subset.refl _, Or.inl⟩
        · split at hstep <;> cases hstep <;> exact ⟨List.Subset.refl _, Or.inl⟩
      · cases hstep
    · obtain ⟨hperrors, hothers⟩ := serverStep_others h hstep
      exact ⟨hperrors, hothers n⟩
    · unfold arriveStep at hstep
      split at hstep <;> cases hstep
      exact ⟨List.Subset.refl _, Or.inl⟩
    · unfold opensStep at hstep
      split at hstep <;> cases hstep
      next hfree =>
      refine ⟨List.Subset.refl _, fun hn => Or.inl (other_setDescriptor hn ?_)⟩
      rw [hfree]
      exact nofun
    · next fd =>
      unfold closesStep at hstep
      split at hstep <;> cases hstep
      have hne : n ≠ fd := by
        rintro rfl
        exact he rfl
      refine ⟨List.Subset.refl _, fun hn => Or.inl ?_⟩
      exact (descriptors_setDescriptor s fd n none).trans ((if_neg hne).trans hn)
  · cases hstep

/-- **Nobody else's descriptor is closed.** Until the listening socket is refused, a descriptor that another
    thread or a command has opened stays what it is until its owner closes it. -/
theorem others_undisturbed {pre post : List Event} {n : Nat} (hpre : Runs (init opened) pre s)
    (hpost : Runs s post t) (hn : s.descriptors n = some .other) (hcloses : .closes n ∉ post)
    (hrefusal : refusal ∉ t.perrors) : t.descriptors n = some .other := by
  have hinv : Kept t ∧ (refusal ∈ t.perrors ∨ t.descriptors n = some .other) := by
    refine Steps.invariant_of_forall (P := fun e => e ≠ .closes n)
      (fun u => Kept u ∧ (refusal ∈ u.perrors ∨ u.descriptors n = some .other)) ?_ hpost ?_
      ⟨kept_of_runs hpre, Or.inr hn⟩
    · rintro u e v he ⟨hkept, hu⟩ hstep
      have hv := hkept.step hstep
      obtain ⟨hperrors, hothers⟩ := step_others hkept hstep he
      refine ⟨hv, ?_⟩
      rcases hu with hu | hu
      · exact Or.inl (hperrors hu)
      · refine (hothers hu).symm.imp_left fun hstray => ?_
        by_contra hno
        exact hstray (hv.tracked.strays_nil hno)
    · rintro e he rfl
      exact hcloses he
  exact hinv.2.resolve_left hrefusal

theorem others_undisturbed_quitRun : ∃ s t, Runs (init [0, 1, 2]) [.opens 6] s ∧ Runs s quitRun t ∧
    t.descriptors 6 = some .other := by
  obtain ⟨s, hs⟩ := Option.isSome_iff_exists.mp
    (by decide : (runFrom step (init [0, 1, 2]) [.opens 6]).isSome = true)
  obtain ⟨t, ht⟩ := Option.isSome_iff_exists.mp
    (by cases hs; decide : (runFrom step s quitRun).isSome = true)
  have hperrors : t.perrors = [] := runFrom_get ht (f := perrors) (by cases hs; decide)
  refine ⟨s, t, runFrom_steps hs, runFrom_steps ht, others_undisturbed (runFrom_steps hs)
    (runFrom_steps ht) (runFrom_get hs (f := fun s => s.descriptors 6) (by decide)) (by decide) ?_⟩
  rw [hperrors]
  exact List.not_mem_nil

end Steps

end Server

end Btide
