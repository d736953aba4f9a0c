import Btide.Base.Fair
import Btide.Peer.Closing

/-!
# `Peer.Shutdown` — `QUIT` comes to an end

Both threads wait for something while `QUIT` is executed: `main` for the mutex and for the end of the server
thread, the server thread for the eventfd and for the mutex. The proof has three parts, each an application
of the progress rule. `main` gets to `pthread_join`, since nobody else holds the mutex; the server thread
gets to its end, since the eventfd is ready; and `main` goes on.

The server thread is only assumed to be scheduled, not to be interrupted by a signal, so in `epoll_wait` it
goes on for no other reason than that a descriptor is ready.
-/

namespace Btide

/-- The statements of `QUIT` up to `pthread_join`. -/
def MainPc.quitting : MainPc → Bool
  | .stop => true
  | .lock => true
  | .setFlag => true
  | .unlock => true
  | .write => true
  | _ => false

/-- What is left of `main` from there. -/
def MainPc.finishing : MainPc → Bool
  | .join => true
  | .release => true
  | .closeEfd => true
  | _ => false

/-- How many steps `main` has to take from the beginning of `QUIT`. -/
def MainPc.todo : MainPc → Nat
  | .stop => 8
  | .lock => 7
  | .setFlag => 6
  | .unlock => 5
  | .write => 4
  | .join => 3
  | .release => 2
  | .closeEfd => 1
  | _ => 0

/-- A bound on the steps of the server thread after the eventfd has been written to. -/
def ServerPc.todo (efd : Int) : ServerPc → Nat
  | .absent => 0
  | .socket => 157
  | .setup _ .getFlags => 156
  | .setup _ .setFlags => 155
  | .setup _ .bind => 154
  | .setup _ .listen => 153
  | .epollCreate _ => 152
  | .addServer _ => 151
  | .closing todo (.addEvent _) => 141 + todo.length
  | .addEvent _ => 140
  | .loop _ (.scan events) => if efd.toNat ∈ events then 20 + events.length else 131 + events.length
  | .loop _ .wait => 130
  | .loop _ (.read _) => 15
  | .loop _ (.lock _) => 14
  | .loop _ (.test _) => 13
  | .loop _ (.unlock _ _) => 12
  | .closing todo _ => 1 + todo.length
  | .ended => 0

namespace Server

/-- A step of the thread of `main`. -/
def MainTurn : Event → Prop
  | .main _ => True
  | _ => False

/-- A step of the server thread that no signal has caused. -/
def ServerTurn : Event → Prop
  | .server result => result ≠ .interrupted
  | _ => False

section Progress

variable {s t : Server} {r : Result} {e : Event}

/-! ## What a step does to the other thread -/

/-- The server thread does not vanish, and it exits with a failure only. -/
theorem serverStep_present (hstep : s.serverStep r = some t) :
    t.server ≠ .absent ∧ (t.exited = s.exited ∨ t.exited = some 1) := by
  unfold serverStep at hstep
  split at hstep
  · unfold openStep at hstep
    split at hstep <;> cases hstep
    exact ⟨nofun, Or.inl rfl⟩
  · next hpc =>
      cases hstep
      exact ⟨(hpc ▸ nofun : s.server ≠ .absent), Or.inr rfl⟩
  · next hpc =>
      unfold setupStep at hstep
      split at hstep <;> cases hstep
      · exact ⟨nofun, Or.inl rfl⟩
      · exact ⟨(hpc ▸ nofun : s.server ≠ .absent), Or.inr rfl⟩
      all_goals exact ⟨nofun, Or.inl rfl⟩
  · unfold openStep at hstep
    split at hstep <;> cases hstep
    exact ⟨nofun, Or.inl rfl⟩
  · next hpc =>
      cases hstep
      exact ⟨(hpc ▸ nofun : s.server ≠ .absent), Or.inr rfl⟩
  · unfold addStep at hstep
    split at hstep <;> cases hstep
    exact ⟨nofun, Or.inl rfl⟩
  · cases hstep
    exact ⟨nofun, Or.inl rfl⟩
  · unfold addStep at hstep
    split at hstep <;> cases hstep
    exact ⟨nofun, Or.inl rfl⟩
  · cases hstep
    exact ⟨nofun, Or.inl rfl⟩
  · next hpc =>
      unfold loopStep waitStep at hstep
      split at hstep
      · dsimp only at hstep
        split at hstep
        · split at hstep
          · split at hstep <;> cases hstep
            exact ⟨hpc ▸ nofun, Or.inl rfl⟩
          · split at hstep <;> cases hstep
            exact ⟨nofun, Or.inl rfl⟩
        · split at hstep <;> cases hstep
          exact ⟨nofun, Or.inl rfl⟩
      · cases hstep
        exact ⟨nofun, Or.inl rfl⟩
      · split at hstep <;> cases hstep <;> exact ⟨nofun, Or.inl rfl⟩
      · split at hstep <;> cases hstep
        exact ⟨nofun, Or.inl rfl⟩
      · split at hstep <;> cases hstep
        exact ⟨nofun, Or.inl rfl⟩
      · cases hstep
        exact ⟨nofun, Or.inl rfl⟩
      · next flag =>
        cases hstep
        cases flag <;> exact ⟨nofun, Or.inl rfl⟩
      · cases hstep
  · next hpc =>
      unfold closingStep at hstep
      split at hstep <;> cases hstep
      · exact ⟨nofun, Or.inl rfl⟩
      · exact ⟨(hpc ▸ nofun : s.server ≠ .absent), Or.inr rfl⟩
      · exact ⟨nofun, Or.inl rfl⟩
      · exact ⟨nofun, Or.inl rfl⟩
  · cases hstep

/-- What an event is, for the two threads. -/
theorem step_cases (hstep : s.step e = some t) :
    s.exited = none ∧
      ((∃ r, e = .main r ∧ s.mainStep r = some t) ∨ (∃ line, e = .input line ∧ s.main = .command) ∨
        (∃ r, e = .server r ∧ s.serverStep r = some t) ∨
        (¬ MainTurn e ∧ ¬ ServerTurn e ∧ t.main = s.main ∧ t.server = s.server ∧ t.exited = s.exited ∧
          t.efd = s.efd)) := by
  unfold Server.step at hstep
  split at hstep
  · next hexited =>
      refine ⟨hexited, ?_⟩
      split at hstep
      · exact Or.inl ⟨_, rfl, hstep⟩
      · refine Or.inr (Or.inl ⟨_, rfl, ?_⟩)
        unfold inputStep at hstep
        split at hstep
        · assumption
        · cases hstep
      · exact Or.inr (Or.inr (Or.inl ⟨_, rfl, hstep⟩))
      · unfold arriveStep at hstep
        split at hstep <;> cases hstep
        exact Or.inr (Or.inr (Or.inr ⟨nofun, nofun, rfl, rfl, rfl, rfl⟩))
      · unfold opensStep at hstep
        split at hstep <;> cases hstep
        exact Or.inr (Or.inr (Or.inr ⟨nofun, nofun, rfl, rfl, rfl, rfl⟩))
      · unfold closesStep at hstep
        split at hstep <;> cases hstep
        exact Or.inr (Or.inr (Or.inr ⟨nofun, nofun, rfl, rfl, rfl, rfl⟩))
  · cases hstep

/-! ## The server thread -/

/-- What has been written to the eventfd is there as long as it has not been read. -/
theorem Reached.pending (h : Reached s) (hmain : s.main = .join) (hunread : s.server.unread = true)
    {n : Nat} (hn : s.efd = n) : 0 < s.counter ∧ s.descriptors n = some .event :=
  ⟨h.kept.synced.unread (by rw [hmain]; rfl) hunread (by omega),
    (h.kept.tracked.efd n).mpr ⟨by rw [hmain]; rfl, hn⟩⟩

/-- **No wake-up is lost.** If the thread waits after the eventfd has been written to, `epoll_wait` returns,
    and with the eventfd. -/
theorem Reached.reports (h : Reached s) (hmain : s.main = .join) {fds : ServerFds}
    (hpc : s.server = .loop fds .wait) :
    s.descriptors fds.epoll = some .epoll ∧ s.efd.toNat ∈ (s.epoll.report s.readable maxEvents).1 := by
  have hw : s.Watches fds [] := by
    have hknows := h.kept.synced.knows
    rwa [hpc] at hknows
  obtain ⟨n, hn, _, hready, _⟩ := hw.watched
  obtain ⟨hcounter, hevent⟩ := h.pending hmain (by rw [hpc]; rfl) hn
  have hmem : n ∈ s.epoll.ready := (hready (by rw [hmain]; rfl)).resolve_right List.not_mem_nil
  have hfew : s.epoll.watched.length ≤ maxEvents := by
    have htwo : s.epoll.watched.length ≤ 2 := by
      have hfew := h.few
      rwa [Few, hpc] at hfew
    exact Nat.le_trans htwo (by decide)
  refine ⟨hw.epoll, ?_⟩
  rw [hn, Int.toNat_natCast]
  exact Epoll.mem_report hmem (by simpa [readable, hevent] using hcounter) hfew

/-- A step inside the loop. -/
theorem Reached.loop_lowers (h : Reached s) (hmain : s.main = .join) {fds : ServerFds} {pc : PollPc}
    (hpc : s.server = .loop fds pc) (hstep : s.loopStep fds pc r = some t) :
    t.server.todo t.efd < s.server.todo s.efd := by
  have hknows := h.kept.synced.knows
  rw [hpc] at hknows
  unfold loopStep at hstep
  split at hstep
  · obtain ⟨hepoll, hmem⟩ := h.reports hmain hpc
    rw [waitStep, if_pos hepoll] at hstep
    dsimp only at hstep
    rw [if_neg (List.ne_nil_of_mem hmem)] at hstep
    split at hstep <;> cases hstep
    rw [hpc]
    show (if s.efd.toNat ∈ (s.epoll.report s.readable maxEvents).1 then _ else _) < 130
    have hlen : (s.epoll.report s.readable maxEvents).1.length ≤ 100 := Epoll.length_report_le
    rw [if_pos hmem]
    omega
  · cases hstep
    rw [hpc]
    exact Nat.lt_succ_self 130
  · next fd events =>
    rw [hpc]
    have hlen : (fd :: events).length = events.length + 1 := rfl
    split at hstep <;> cases hstep
    · show 15 < if s.efd.toNat ∈ fd :: events then 20 + (fd :: events).length else 131 + (fd :: events).length
      split <;> omega
    · next hne =>
        show (if s.efd.toNat ∈ events then 20 + events.length else 131 + events.length) <
          if s.efd.toNat ∈ fd :: events then 20 + (fd :: events).length else 131 + (fd :: events).length
        have hw : s.Watches fds (fd :: events) := hknows
        obtain ⟨n, hn, _⟩ := hw.watched
        have hmem : s.efd.toNat ∈ fd :: events ↔ s.efd.toNat ∈ events := by
          rw [List.mem_cons]
          exact or_iff_right (by omega)
        rw [if_congr hmem rfl rfl]
        split <;> omega
  · split at hstep <;> cases hstep
    rw [hpc]
    exact Nat.lt_succ_self 14
  · split at hstep <;> cases hstep
    rw [hpc]
    exact Nat.lt_succ_self 13
  · cases hstep
    rw [hpc]
    exact Nat.lt_succ_self 12
  · obtain ⟨_, rfl⟩ := hknows
    cases hstep
    rw [hpc]
    show 3 < 12
    omega
  · cases hstep

/-- Every step of the thread brings it closer to its end. -/
theorem Reached.lowers (h : Reached s) (hmain : s.main = .join) (hstep : s.serverStep r = some t) :
    t.exited = some 1 ∨ t.server.todo t.efd < s.server.todo s.efd := by
  unfold serverStep at hstep
  split at hstep
  · next hpc =>
      unfold openStep at hstep
      split at hstep <;> cases hstep
      rw [hpc]
      exact Or.inr (Nat.lt_succ_self 156)
  · cases hstep
    exact Or.inl rfl
  · next hpc =>
      rw [hpc]
      unfold setupStep at hstep
      split at hstep <;> cases hstep
      · exact Or.inr (Nat.lt_succ_self 155)
      · exact Or.inl rfl
      · exact Or.inr (Nat.lt_succ_self 154)
      · exact Or.inr (Nat.lt_succ_self 154)
      · exact Or.inr (Nat.lt_succ_self 153)
      · exact Or.inr (show 2 < 154 by omega)
      · exact Or.inr (Nat.lt_succ_self 152)
      · exact Or.inr (show 2 < 153 by omega)
  · next hpc =>
      unfold openStep at hstep
      split at hstep <;> cases hstep
      rw [hpc]
      exact Or.inr (Nat.lt_succ_self 151)
  · cases hstep
    exact Or.inl rfl
  · next hpc =>
      unfold addStep at hstep
      split at hstep <;> cases hstep
      rw [hpc]
      exact Or.inr (show 140 < 151 by omega)
  · next hpc =>
      cases hstep
      rw [hpc]
      exact Or.inr (show 143 < 151 by omega)
  · next hpc =>
      unfold addStep at hstep
      split at hstep <;> cases hstep
      rw [hpc]
      exact Or.inr (show 130 < 140 by omega)
  · next hpc =>
      cases hstep
      rw [hpc]
      exact Or.inr (show 3 < 140 by omega)
  · next hpc => exact Or.inr (h.loop_lowers hmain hpc hstep)
  · next todo after hpc =>
      rw [hpc]
      unfold closingStep at hstep
      split at hstep <;> cases hstep
      · right
        cases after <;> exact Nat.lt_succ_self _
      · exact Or.inl rfl
      · exact Or.inr (Nat.lt_succ_self 140)
      · exact Or.inr (Nat.lt_succ_self 0)
  · cases hstep

/-- Inside the loop the thread never waits. -/
theorem Reached.loop_turn (h : Reached s) (hmain : s.main = .join) {fds : ServerFds} {pc : PollPc}
    (hpc : s.server = .loop fds pc) : ∃ t, s.loopStep fds pc .ok = some t := by
  cases pc with
  | wait =>
      obtain ⟨hepoll, hmem⟩ := h.reports hmain hpc
      refine Option.isSome_iff_exists.mp ?_
      rw [loopStep, waitStep, if_pos hepoll]
      dsimp only
      rw [if_neg (List.ne_nil_of_mem hmem), if_pos rfl]
      rfl
  | scan events =>
      cases events with
      | nil => exact ⟨_, rfl⟩
      | cons fd events =>
          rw [loopStep]
          split <;> exact ⟨_, rfl⟩
  | read events =>
      -- the eventfd has been written to and not been read
      have hknows := h.kept.synced.knows
      rw [hpc] at hknows
      have hcounter := h.kept.synced.unread hknows.1 (by rw [hpc]; rfl) hknows.2
      exact ⟨_, by rw [loopStep, if_pos hcounter]⟩
  | lock events =>
      -- `main` has given the mutex back before it wrote to the eventfd
      have hfree : s.shutdownMutex = none := by
        rw [h.kept.synced.mutex, hmain, hpc]
        rfl
      exact ⟨_, by rw [loopStep, if_pos hfree]⟩
  | test events => exact ⟨_, rfl⟩
  | unlock events flag => exact ⟨_, rfl⟩

/-- The thread can always take a step of its own. -/
theorem Reached.turn (h : Reached s) (hmain : s.main = .join) (hactive : s.server.active = true) :
    ∃ r t, r ≠ Result.interrupted ∧ s.serverStep r = some t := by
  have hknows := h.kept.synced.knows
  cases hpc : s.server with
  | absent =>
      rw [hpc] at hactive
      cases hactive
  | ended =>
      rw [hpc] at hactive
      cases hactive
  | socket => exact ⟨.failed, _, nofun, by unfold serverStep; rw [hpc]⟩
  | setup fd pc => cases pc <;> exact ⟨.ok, _, nofun, by unfold serverStep; rw [hpc]; rfl⟩
  | epollCreate fd => exact ⟨.failed, _, nofun, by unfold serverStep; rw [hpc]⟩
  | addServer fds => exact ⟨.failed, _, nofun, by unfold serverStep; rw [hpc]⟩
  | addEvent fds => exact ⟨.failed, _, nofun, by unfold serverStep; rw [hpc]⟩
  | closing todo after =>
      cases todo with
      | cons fd todo => exact ⟨.ok, _, nofun, by unfold serverStep; rw [hpc]; rfl⟩
      | nil => cases after <;> exact ⟨.ok, _, nofun, by unfold serverStep; rw [hpc]; rfl⟩
  | loop fds pc =>
      obtain ⟨t, ht⟩ := h.loop_turn hmain hpc
      exact ⟨.ok, t, nofun, by unfold serverStep; rw [hpc]; exact ht⟩

/-! ## The thread of `main` -/

/-- Up to `pthread_join` nobody stands in the way of `main`. -/
theorem Reached.quits (h : Reached s) (hquit : s.main.quitting = true) :
    ∃ t, s.mainStep .ok = some t := by
  have hfree : s.main = .lock → s.shutdownMutex = none := by
    intro hpc
    -- the server thread locks the mutex only after it has been woken up
    have hholds : s.server.holds = false := by
      cases hs : s.server.holds with
      | false => rfl
      | true =>
          have hwritten := h.kept.synced.apart hs
          rw [hpc] at hwritten
          cases hwritten
    rw [h.kept.synced.mutex, hpc, hholds]
    rfl
  cases hpc : s.main with
  | stop => exact ⟨_, by unfold mainStep; rw [hpc]⟩
  | lock => exact ⟨_, by unfold mainStep; rw [hpc]; exact if_pos (hfree hpc)⟩
  | setFlag => exact ⟨_, by unfold mainStep; rw [hpc]⟩
  | unlock => exact ⟨_, by unfold mainStep; rw [hpc]⟩
  | write => exact ⟨_, by unfold mainStep; rw [hpc]⟩
  | _ =>
      rw [hpc] at hquit
      cases hquit

/-- What a step of `QUIT` does. -/
theorem mainStep_quits (hstep : s.mainStep r = some t) (hquit : s.main.quitting = true) :
    t.server = s.server ∧ t.exited = s.exited ∧ t.main.todo < s.main.todo ∧
      (t.main.quitting = true ∨ t.main = .join) := by
  unfold mainStep at hstep
  split at hstep
  · next hpc =>
      rw [hpc] at hquit
      cases hquit
  · next hpc =>
      rw [hpc] at hquit
      cases hquit
  · next hpc =>
      rw [hpc] at hquit
      cases hquit
  · next hpc =>
      rw [hpc] at hquit
      cases hquit
  · next hpc =>
      cases hstep
      rw [hpc]
      exact ⟨rfl, rfl, Nat.lt_succ_self 7, Or.inl rfl⟩
  · next hpc =>
      split at hstep <;> cases hstep
      rw [hpc]
      exact ⟨rfl, rfl, Nat.lt_succ_self 6, Or.inl rfl⟩
  · next hpc =>
      cases hstep
      rw [hpc]
      exact ⟨rfl, rfl, Nat.lt_succ_self 5, Or.inl rfl⟩
  · next hpc =>
      cases hstep
      rw [hpc]
      exact ⟨rfl, rfl, Nat.lt_succ_self 4, Or.inl rfl⟩
  · next hpc =>
      cases hstep
      rw [hpc]
      unfold wake
      split <;> exact ⟨rfl, rfl, Nat.lt_succ_self 3, Or.inr rfl⟩
  · next hpc =>
      rw [hpc] at hquit
      cases hquit
  · next hpc =>
      rw [hpc] at hquit
      cases hquit
  · next hpc =>
      rw [hpc] at hquit
      cases hquit
  · cases hstep

/-- When the server thread has ended, nothing keeps `main` from returning. -/
theorem Reached.finishes (h : Reached s) (hended : s.server = .ended) (hfinish : s.main.finishing = true) :
    (∃ t, s.mainStep .ok = some t) ∧ ∀ r t, s.mainStep r = some t →
      t.main = .returned ∧ t.exited = some 0 ∨
      t.main.finishing = true ∧ t.exited = s.exited ∧ t.server = s.server ∧ t.main.todo < s.main.todo := by
  cases hpc : s.main with
  | join =>
      constructor
      · exact ⟨_, by unfold mainStep; rw [hpc]; exact if_pos hended⟩
      · intro r t hstep
        unfold mainStep at hstep
        rw [hpc] at hstep
        cases r <;> dsimp only at hstep
        · rw [if_pos hended] at hstep
          cases hstep
          exact Or.inr ⟨rfl, rfl, rfl, Nat.lt_succ_self 2⟩
        all_goals cases hstep
  | release =>
      have hloop := h.kept.loopTest_closeEfd (by rw [hpc]; rfl)
      constructor
      · exact ⟨_, by unfold mainStep; rw [hpc]⟩
      · intro r t hstep
        unfold mainStep at hstep
        rw [hpc] at hstep
        cases r <;> dsimp only at hstep
        · rw [hloop] at hstep
          cases hstep
          exact Or.inr ⟨rfl, rfl, rfl, Nat.lt_succ_self 1⟩
        all_goals cases hstep
  | closeEfd =>
      constructor
      · exact ⟨_, by unfold mainStep; rw [hpc]⟩
      · intro r t hstep
        unfold mainStep at hstep
        rw [hpc] at hstep
        cases r <;> cases hstep
        exact Or.inl ⟨rfl, rfl⟩
  | _ =>
      rw [hpc] at hfinish
      cases hfinish

/-! ## The three parts of `QUIT` -/

abbrev Behaviours := Behaviour fun (s : Server) (e : Event) (t : Server) => s.step e = some t

/-- `main` executes `QUIT`, there is a server thread, and neither has exited. -/
structure Quitting (s : Server) : Prop where
  reached : Reached s
  exited : s.exited = none
  present : s.server ≠ .absent
  main : s.main.quitting = true

structure Joining (s : Server) : Prop where
  reached : Reached s
  exited : s.exited = none
  present : s.server ≠ .absent
  main : s.main = .join

structure Finishing (s : Server) : Prop where
  reached : Reached s
  exited : s.exited = none
  server : s.server = .ended
  main : s.main.finishing = true

/-- The server thread can end the program only by `exit(EXIT_FAILURE)`. -/
theorem Quitting.step (h : Quitting s) (hstep : s.step e = some t) :
    (t.exited = some 1 ∨ Joining t) ∨
      Quitting t ∧ t.main.todo ≤ s.main.todo ∧ (MainTurn e → t.main.todo < s.main.todo) := by
  have hreached := h.reached.step hstep
  obtain ⟨_, ⟨r, rfl, hmain⟩ | ⟨line, rfl, hmain⟩ | ⟨r, rfl, hserver⟩ |
    ⟨hturn, _, hmain, hserver, hexited, _⟩⟩ := step_cases hstep
  · obtain ⟨hserver, hexited, htodo, hpc⟩ := mainStep_quits hmain h.main
    rcases hpc with hpc | hpc
    · exact Or.inr ⟨⟨hreached, hexited.trans h.exited, hserver ▸ h.present, hpc⟩, Nat.le_of_lt htodo,
        fun _ => htodo⟩
    · exact Or.inl (Or.inr ⟨hreached, hexited.trans h.exited, hserver ▸ h.present, hpc⟩)
  · have hquit := h.main
    rw [hmain] at hquit
    cases hquit
  · obtain ⟨hpresent, hexited⟩ := serverStep_present hserver
    have hmain := (serverStep_frame hserver).1
    rcases hexited with hexited | hexited
    · exact Or.inr ⟨⟨hreached, hexited.trans h.exited, hpresent, hmain ▸ h.main⟩, Nat.le_of_eq (by rw [hmain]),
        nofun⟩
    · exact Or.inl (Or.inl hexited)
  · exact Or.inr ⟨⟨hreached, hexited.trans h.exited, hserver ▸ h.present, hmain ▸ h.main⟩,
      Nat.le_of_eq (by rw [hmain]), fun ht => absurd ht hturn⟩

theorem Joining.step (h : Joining s) (hactive : s.server.active = true) (hstep : s.step e = some t) :
    (t.exited = some 1 ∨ Finishing t) ∨
      (Joining t ∧ t.server.active = true) ∧ t.server.todo t.efd ≤ s.server.todo s.efd ∧
        (ServerTurn e → t.server.todo t.efd < s.server.todo s.efd) := by
  have hreached := h.reached.step hstep
  obtain ⟨_, ⟨r, rfl, hmain⟩ | ⟨line, rfl, hmain⟩ | ⟨r, rfl, hserver⟩ |
    ⟨_, hturn, hmain, hserver, hexited, hefd⟩⟩ := step_cases hstep
  · -- `main` waits for the server thread
    unfold mainStep at hmain
    rw [h.main] at hmain
    cases r <;> dsimp only at hmain
    · split at hmain
      · next hended =>
          rw [hended] at hactive
          cases hactive
      · cases hmain
    all_goals cases hmain
  · rw [h.main] at hmain
    cases hmain
  · obtain ⟨hpresent, hexited⟩ := serverStep_present hserver
    have hmain := (serverStep_frame hserver).1.trans h.main
    rcases h.reached.lowers h.main hserver with hfailed | hlower
    · exact Or.inl (Or.inl hfailed)
    · rcases hexited with hexited | hexited
      · cases hs : t.server.active with
        | true =>
            exact Or.inr ⟨⟨⟨hreached, hexited.trans h.exited, hpresent, hmain⟩, rfl⟩, Nat.le_of_lt hlower,
              fun _ => hlower⟩
        | false =>
            have hended : t.server = .ended := by
              cases hpc : t.server <;> rw [hpc] at hs hpresent <;>
                first | rfl | exact absurd rfl hpresent | cases hs
            exact Or.inl (Or.inr ⟨hreached, hexited.trans h.exited, hended, by rw [hmain]; rfl⟩)
      · exact Or.inl (Or.inl hexited)
  · have hsame : t.server.todo t.efd = s.server.todo s.efd := by rw [hserver, hefd]
    exact Or.inr ⟨⟨⟨hreached, hexited.trans h.exited, hserver ▸ h.present, hmain.trans h.main⟩,
      hserver ▸ hactive⟩, Nat.le_of_eq hsame, fun ht => absurd ht hturn⟩

theorem Finishing.step (h : Finishing s) (hstep : s.step e = some t) :
    (t.main = .returned ∧ t.exited = some 0) ∨
      Finishing t ∧ t.main.todo ≤ s.main.todo ∧ (MainTurn e → t.main.todo < s.main.todo) := by
  have hreached := h.reached.step hstep
  obtain ⟨_, ⟨r, rfl, hmain⟩ | ⟨line, rfl, hmain⟩ | ⟨r, rfl, hserver⟩ |
    ⟨hturn, _, hmain, hserver, hexited, _⟩⟩ := step_cases hstep
  · rcases (h.reached.finishes h.server h.main).2 r t hmain with hdone | ⟨hpc, hexited, hserver, htodo⟩
    · exact Or.inl hdone
    · exact Or.inr ⟨⟨hreached, hexited.trans h.exited, hserver.trans h.server, hpc⟩, Nat.le_of_lt htodo,
        fun _ => htodo⟩
  · have hfinish := h.main
    rw [hmain] at hfinish
    cases hfinish
  · unfold serverStep at hserver
    rw [h.server] at hserver
    cases hserver
  · exact Or.inr ⟨⟨hreached, hexited.trans h.exited, hserver.trans h.server, hmain ▸ h.main⟩,
      Nat.le_of_eq (by rw [hmain]), fun ht => absurd ht hturn⟩

end Progress

/-! ## `QUIT` returns -/

section Quit

variable {opened : List Nat} {b : Behaviours} {n : Nat}

/-- `main` gets to `pthread_join`. -/
theorem quitting_joins (hmain : b.Fair MainTurn) (hn : Quitting (b.state n)) :
    ∃ m, n ≤ m ∧ ((b.state m).exited = some 1 ∨ Joining (b.state m)) := by
  refine Behaviour.leadsTo (P := Quitting) (Q := fun s => s.exited = some 1 ∨ Joining s)
    (M := fun s => s.main.todo) hmain (fun s hs => ?_) (fun s e t hs hstep => ?_)
    (fun s e t hs he hstep => ?_) hn
  · obtain ⟨t, ht⟩ := hs.reached.quits hs.main
    exact ⟨.main .ok, t, trivial, (if_pos hs.exited).trans ht⟩
  · exact (hs.step hstep).imp_right fun hq => ⟨hq.1, hq.2.1⟩
  · exact (hs.step hstep).imp_right fun hq => hq.2.2 he

/-- The server thread gets to its end. -/
theorem joining_finishes (hserver : b.Fair ServerTurn) (hn : Joining (b.state n)) :
    ∃ m, n ≤ m ∧ ((b.state m).exited = some 1 ∨ Finishing (b.state m)) := by
  cases hactive : (b.state n).server.active with
  | false =>
      have hended : (b.state n).server = .ended := by
        have hpresent := hn.present
        cases hpc : (b.state n).server <;> rw [hpc] at hactive hpresent <;>
          first | rfl | exact absurd rfl hpresent | cases hactive
      exact ⟨n, Nat.le_refl n, Or.inr ⟨hn.reached, hn.exited, hended, by rw [hn.main]; rfl⟩⟩
  | true =>
      refine Behaviour.leadsTo (P := fun s => Joining s ∧ s.server.active = true)
        (Q := fun s => s.exited = some 1 ∨ Finishing s) (M := fun s => s.server.todo s.efd) hserver
        (fun s hs => ?_) (fun s e t hs hstep => ?_) (fun s e t hs he hstep => ?_) ⟨hn, hactive⟩
      · obtain ⟨r, t, hr, ht⟩ := hs.1.reached.turn hs.1.main hs.2
        exact ⟨.server r, t, hr, (if_pos hs.1.exited).trans ht⟩
      · exact (hs.1.step hs.2 hstep).imp_right fun hq => ⟨hq.1, hq.2.1⟩
      · exact (hs.1.step hs.2 hstep).imp_right fun hq => hq.2.2 he

theorem finishing_returns (hmain : b.Fair MainTurn) (hn : Finishing (b.state n)) :
    ∃ m, n ≤ m ∧ (b.state m).main = .returned ∧ (b.state m).exited = some 0 := by
  refine Behaviour.leadsTo (P := Finishing) (Q := fun s => s.main = .returned ∧ s.exited = some 0)
    (M := fun s => s.main.todo) hmain (fun s hs => ?_) (fun s e t hs hstep => ?_)
    (fun s e t hs he hstep => ?_) hn
  · obtain ⟨t, ht⟩ := (hs.reached.finishes hs.server hs.main).1
    exact ⟨.main .ok, t, trivial, (if_pos hs.exited).trans ht⟩
  · exact (hs.step hstep).imp_right fun hq => ⟨hq.1, hq.2.1⟩
  · exact (hs.step hstep).imp_right fun hq => hq.2.2 he

/-- **`QUIT` returns.** If both threads are scheduled again and again, then after the line `QUIT` `main`
    returns 0, whatever connections arrive and whatever other threads do, and wherever the server thread was,
    unless the socket cannot be set up and `server` exits. -/
theorem quit_returns {line : Str} (hinit : b.state 0 = init opened) (hmain : b.Fair MainTurn)
    (hserver : b.Fair ServerTurn) (hn : b.event n = some (.input (some line)))
    (hline : strncmpEq 4 line (bytes "QUIT") = true) (hcreated : (b.state n).server ≠ .absent) :
    ∃ m, n ≤ m ∧ ((b.state m).main = .returned ∧ (b.state m).exited = some 0 ∨
      (b.state m).exited = some 1) := by
  have hmove := b.moves n _ hn
  have hreached : Reached (b.state n) := by
    obtain ⟨es, hes⟩ := b.steps n
    rw [hinit] at hes
    exact reached_of_runs hes
  have hquit : Quitting (b.state (n + 1)) := by
    have hnext := hreached.step hmove
    unfold Server.step at hmove
    split at hmove
    · next hexited =>
        dsimp only at hmove
        unfold inputStep at hmove
        split at hmove
        · dsimp only at hmove
          rw [if_pos hline] at hmove
          have ht := Option.some.inj hmove
          exact ⟨hnext, ht ▸ hexited, ht ▸ hcreated, ht ▸ rfl⟩
        · cases hmove
    · cases hmove
  obtain ⟨i, hi, hfailed | hjoin⟩ := quitting_joins hmain hquit
  · exact ⟨i, by omega, Or.inr hfailed⟩
  · obtain ⟨j, hj, hfailed | hfinish⟩ := joining_finishes hserver hjoin
    · exact ⟨j, by omega, Or.inr hfailed⟩
    · obtain ⟨m, hm, hdone⟩ := finishing_returns hmain hfinish
      exact ⟨m, by omega, Or.inl hdone⟩

theorem quit_returns_quitRun : ∃ b : Behaviours, b.state 0 = init [0, 1, 2] ∧ ∃ m, 11 ≤ m ∧
    ((b.state m).main = .returned ∧ (b.state m).exited = some 0 ∨ (b.state m).exited = some 1) := by
  have hrun : ∀ es, es = quitRun ∨ es = quitRun.take 11 → (runFrom step (init [0, 1, 2]) es).isSome := by
    rintro es (rfl | rfl) <;> decide
  obtain ⟨t, ht⟩ := Option.isSome_iff_exists.mp (hrun _ (Or.inl rfl))
  obtain ⟨u, hu⟩ := Option.isSome_iff_exists.mp (hrun _ (Or.inr rfl))
  have hexited : t.exited = some 0 := runFrom_get ht (f := exited) (by decide)
  have hpresent : u.server = .loop ⟨4, 5⟩ .wait := runFrom_get hu (f := server) (by decide)
  have hdet : ∀ (s : Server) (e : Event) (t u : Server), s.step e = some t → s.step e = some u → t = u :=
    fun s e t u ht hu => Option.some.inj (ht.symm.trans hu)
  obtain ⟨b, hevent, hsteps, hend⟩ := (runFrom_steps ht).behaviour
  have hinit : b.state 0 = init [0, 1, 2] := Steps.unique hdet (hsteps 0) .nil
  -- the program has exited, so nothing is owed to anybody
  have hidle : ∀ mine, b.Fair mine := fun mine => by
    refine Behaviour.fair_of_idle hend ?_
    rintro ⟨e, v, _, hv⟩
    have hnone : t.step e = none := if_neg (by rw [hexited]; exact nofun)
    rw [hnone] at hv
    cases hv
  have hquit : b.event 11 = some (.input (some (bytes "QUIT\n"))) := hevent 11
  refine ⟨b, hinit, quit_returns hinit (hidle _) (hidle _) hquit (by decide) ?_⟩
  · rw [Steps.unique hdet (hsteps 11) (runFrom_steps hu)]
    rw [hpresent]
    exact nofun

end Quit

end Server

end Btide
