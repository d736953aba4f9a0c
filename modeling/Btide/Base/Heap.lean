import Mathlib.Tactic.Common

/-!
# `Base.Heap` — a store of records addressed by numbers

A `Heap` maps addresses to records and hands out addresses in increasing order. The field `fresh` says
that an address not yet handed out holds nothing, so a new record never aliases an old one. Each
operation has one lemma for the address it touches and one frame lemma for every other address.
-/

namespace Btide

/-- Records by address; the addresses from `next` on have never been handed out. -/
structure Heap (α : Type*) where
  cells : Nat → Option α
  next : Nat
  fresh : ∀ a, next ≤ a → cells a = none

namespace Heap

variable {α : Type*}

/-- The heap before any allocation. -/
def empty : Heap α := { cells := fun _ => none, next := 0, fresh := fun _ _ => rfl }

/-- Store `x` at the next unused address, which is `h.next`. -/
def alloc (h : Heap α) (x : α) : Heap α where
  cells := fun b => if b = h.next then some x else h.cells b
  next := h.next + 1
  fresh := fun a ha => by
    rw [if_neg (by omega)]
    exact h.fresh a (by omega)

/-- Store `x` at `a`, which may be any address. -/
def put (h : Heap α) (a : Nat) (x : α) : Heap α where
  cells := fun b => if b = a then some x else h.cells b
  next := max h.next (a + 1)
  fresh := fun b hb => by
    rw [if_neg (by omega)]
    exact h.fresh b (by omega)

/-- Replace the record at `a`, if there is one, by its image under `f`. -/
def modify (h : Heap α) (a : Nat) (f : α → α) : Heap α where
  cells := fun b => if b = a then (h.cells b).map f else h.cells b
  next := h.next
  fresh := fun b hb => by
    have hb' := h.fresh b hb
    split <;> simp [hb']

/-- Release the record at `a`; its address is not handed out again. -/
def free (h : Heap α) (a : Nat) : Heap α where
  cells := fun b => if b = a then none else h.cells b
  next := h.next
  fresh := fun b hb => by
    split
    · rfl
    · exact h.fresh b hb

/-- Release the records at `L`, one after the other. -/
def freeAll (h : Heap α) (L : List Nat) : Heap α := L.foldl free h

/-- A stored record lies below `next`. -/
theorem lt_next {h : Heap α} {a : Nat} {x : α} (hx : h.cells a = some x) : a < h.next := by
  by_contra hge
  rw [h.fresh a (by omega)] at hx
  cases hx

@[simp] theorem alloc_next (h : Heap α) (x : α) : (h.alloc x).next = h.next + 1 := rfl

@[simp] theorem modify_next (h : Heap α) (a : Nat) (f : α → α) : (h.modify a f).next = h.next := rfl

theorem alloc_cells_self (h : Heap α) (x : α) : (h.alloc x).cells h.next = some x := if_pos rfl

theorem alloc_cells_ne {h : Heap α} {x : α} {b : Nat} (hb : b ≠ h.next) :
    (h.alloc x).cells b = h.cells b := if_neg hb

/-- An allocation leaves every older record alone. -/
theorem alloc_cells_lt {h : Heap α} {x : α} {b : Nat} (hb : b < h.next) :
    (h.alloc x).cells b = h.cells b := alloc_cells_ne (by omega)

theorem put_cells_ne {h : Heap α} {a b : Nat} {x : α} (hb : b ≠ a) :
    (h.put a x).cells b = h.cells b := if_neg hb

theorem modify_cells_self (h : Heap α) (a : Nat) (f : α → α) :
    (h.modify a f).cells a = (h.cells a).map f := if_pos rfl

theorem modify_cells_ne {h : Heap α} {a b : Nat} {f : α → α} (hb : b ≠ a) :
    (h.modify a f).cells b = h.cells b := if_neg hb

@[simp] theorem free_next (h : Heap α) (a : Nat) : (h.free a).next = h.next := rfl

theorem free_cells_self (h : Heap α) (a : Nat) : (h.free a).cells a = none := if_pos rfl

theorem free_cells_ne {h : Heap α} {a b : Nat} (hb : b ≠ a) : (h.free a).cells b = h.cells b :=
  if_neg hb

theorem freeAll_cons (h : Heap α) (a : Nat) (L : List Nat) :
    h.freeAll (a :: L) = (h.free a).freeAll L := rfl

theorem freeAll_cells_of_notMem {h : Heap α} {L : List Nat} {b : Nat} (hb : b ∉ L) :
    (h.freeAll L).cells b = h.cells b := by
  induction L generalizing h with
  | nil => rfl
  | cons a L ih =>
      rw [List.mem_cons, not_or] at hb
      rw [freeAll_cons, ih hb.2, free_cells_ne hb.1]

theorem freeAll_cells_of_mem {h : Heap α} {L : List Nat} {b : Nat} (hb : b ∈ L) :
    (h.freeAll L).cells b = none := by
  induction L generalizing h with
  | nil => cases hb
  | cons a L ih =>
      by_cases hL : b ∈ L
      · exact ih hL
      · obtain rfl : b = a := (List.mem_cons.mp hb).resolve_right hL
        rw [freeAll_cons, freeAll_cells_of_notMem hL, free_cells_self]

end Heap
end Btide
