import Mathlib.Data.List.Nodup
import Mathlib.Tactic.Common

/-!
# `Base.Epoll` — edge-triggered readiness

An `Epoll` instance watches descriptors. When one of them becomes ready it is put on a list (`signal`), and
`report` takes descriptors off the list again, of which it passes on those that are `readable` still. With
edge triggering a descriptor that has been reported is not put on the list until it is signalled again, so
what a program must not do is miss an edge. None is missed in between: a descriptor on the list that stays
readable is reported or stays on the list (`mem_report_or_ready`), and it is reported at once if there is
room for all (`mem_report`).
-/

namespace Btide

/-- The descriptors watched, and those that have become ready since they were reported last. -/
structure Epoll (α : Type*) where
  watched : List α
  ready : List α
  sub : ready ⊆ watched
  nodup : ready.Nodup

namespace Epoll

variable {α : Type*} {q : Epoll α} {readable : α → Bool} {max : Nat} {a b : α}

def empty : Epoll α where
  watched := []
  ready := []
  sub := List.Subset.refl _
  nodup := List.nodup_nil

/-- `epoll_wait` with room for `max` events: what it reports, and the instance afterwards. -/
def report (q : Epoll α) (readable : α → Bool) (max : Nat) : List α × Epoll α :=
  let events := q.ready.filter readable
  (events.take max,
    { watched := q.watched
      ready := events.drop max
      sub := fun _ h => q.sub (List.mem_of_mem_filter (List.mem_of_mem_drop h))
      nodup := (q.nodup.filter readable).sublist (List.drop_sublist max _) })

@[simp] theorem watched_report : (q.report readable max).2.watched = q.watched := rfl

theorem readable_of_mem_report (h : a ∈ (q.report readable max).1) : readable a = true :=
  (List.mem_filter.mp (List.mem_of_mem_take h)).2

/-- What is ready and readable is reported now or stays ready. -/
theorem mem_report_or_ready (h : a ∈ q.ready) (hread : readable a = true) :
    a ∈ (q.report readable max).1 ∨ a ∈ (q.report readable max).2.ready := by
  have hmem : a ∈ q.ready.filter readable := List.mem_filter.mpr ⟨h, hread⟩
  rw [← List.take_append_drop max (q.ready.filter readable)] at hmem
  exact List.mem_append.mp hmem

/-- There is room for all if there is room for all that are watched. -/
theorem mem_report (h : a ∈ q.ready) (hread : readable a = true) (hmax : q.watched.length ≤ max) :
    a ∈ (q.report readable max).1 := by
  have hlen : (q.ready.filter readable).length ≤ max :=
    Nat.le_trans (List.length_filter_le _ _) (Nat.le_trans (q.nodup.length_le_of_subset q.sub) hmax)
  rw [report, List.take_of_length_le hlen]
  exact List.mem_filter.mpr ⟨h, hread⟩

theorem length_report_le : (q.report readable max).1.length ≤ max := List.length_take_le _ _

variable [DecidableEq α]

/-- Something has happened at `a`. -/
def signal (q : Epoll α) (a : α) : Epoll α :=
  if h : a ∈ q.watched ∧ a ∉ q.ready then
    { watched := q.watched
      ready := q.ready ++ [a]
      sub := List.append_subset.mpr ⟨q.sub, fun _ hb => List.mem_singleton.mp hb ▸ h.1⟩
      nodup := by
        rw [← List.concat_eq_append, List.nodup_concat]
        exact ⟨h.2, q.nodup⟩ }
  else q

/-- `EPOLL_CTL_ADD`: a descriptor that is readable already is ready at once. -/
def add (q : Epoll α) (readable : α → Bool) (a : α) : Epoll α :=
  let q : Epoll α := { q with watched := q.watched ++ [a], sub := List.subset_append_of_subset_left _ q.sub }
  if readable a then q.signal a else q

/-- The descriptor has been closed. -/
def forget (q : Epoll α) (a : α) : Epoll α where
  watched := q.watched.filter (· ≠ a)
  ready := q.ready.filter (· ≠ a)
  sub := fun _ hb =>
    List.mem_filter.mpr ⟨q.sub (List.mem_filter.mp hb).1, (List.mem_filter.mp hb).2⟩
  nodup := q.nodup.filter _

@[simp] theorem watched_signal : (q.signal a).watched = q.watched := by
  unfold signal
  split <;> rfl

@[simp] theorem watched_add : (q.add readable a).watched = q.watched ++ [a] := by
  unfold add
  split
  · exact watched_signal
  · rfl

theorem mem_watched_forget (h : a ∈ q.watched) (hne : a ≠ b) : a ∈ (q.forget b).watched := by
  rw [forget, List.mem_filter]
  exact ⟨h, by simpa using hne⟩

theorem mem_ready_forget (h : a ∈ q.ready) (hne : a ≠ b) : a ∈ (q.forget b).ready := by
  rw [forget, List.mem_filter]
  exact ⟨h, by simpa using hne⟩

theorem length_watched_forget_le : (q.forget a).watched.length ≤ q.watched.length :=
  List.length_filter_le _ _

/-- A signal to a watched descriptor is never lost. -/
theorem mem_ready_signal_self (h : a ∈ q.watched) : a ∈ (q.signal a).ready := by
  unfold signal
  split
  · exact List.mem_append_right _ List.mem_cons_self
  · next hno =>
      by_contra hmem
      exact hno ⟨h, hmem⟩

theorem mem_ready_signal (h : a ∈ q.ready) : a ∈ (q.signal b).ready := by
  unfold signal
  split
  · exact List.mem_append_left _ h
  · exact h

theorem mem_ready_add_self (h : readable a = true) : a ∈ (q.add readable a).ready := by
  rw [add, if_pos h]
  exact mem_ready_signal_self (List.mem_append_right _ List.mem_cons_self)

end Epoll

end Btide
