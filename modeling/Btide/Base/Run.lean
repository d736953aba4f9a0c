import Mathlib.Tactic.Common

/-!
# `Base.Run` — outcomes of a C computation

A modelled C function returns a `Run`: a value, or the `Abort` that stopped it. An `Abort` is either a
call of `exit` or an operation to which C gives no meaning (a NULL dereference, a store past the end of
an array, a signed overflow, the conversion of a number that is no `int`, …). Nothing that happens after
such an operation is modelled. A program may go on and do worse, so a statement that something never goes
wrong in the rest of a run asks for runs that come to no such operation at all (`Run.Orderly`).

Loops and recursions that C does not bound take a `fuel : Nat`. The answer of the C code is what the
model `Settles` on: the value it has for every sufficiently large fuel. A computation that never ends
settles on nothing but `outOfFuel`.
-/

namespace Btide

/-! ## Strings -/

/-- The bytes of a C string, or of an array that is only used up to its first NUL. -/
abbrev Str := List UInt8

/-- The bytes of a string literal of the source. -/
def bytes (s : String) : Str := s.toByteArray.data.toList

/-- A check of every byte of a concrete string. -/
theorem forall_mem_of_all {p : UInt8 → Prop} [DecidablePred p] {s : Str}
    (h : s.all (fun c => decide (p c)) = true) : ∀ c ∈ s, p c := by
  simpa using h

/-- `strncmp(a, b, n) == 0` on NUL-free strings. -/
def strncmpEq (n : Nat) (a b : Str) : Bool := a.take n == b.take n

theorem strncmpEq_iff {n : Nat} {a b : Str} : strncmpEq n a b = true ↔ a.take n = b.take n := by
  simp [strncmpEq]

/-- A comparison over the whole length of the second string. -/
theorem strncmpEq_isPrefixOf {a b : Str} : strncmpEq b.length a b = b.isPrefixOf a := by
  rw [Bool.eq_iff_iff, strncmpEq_iff, List.take_length, List.isPrefixOf_iff_prefix,
    List.prefix_iff_eq_take]
  exact eq_comm

/-! ## Runs -/

/-- Why a C computation stopped without a value. -/
inductive Abort
  /-- After printing `message`. -/
  | exit (message : Str) (status : Nat)
  | nullDeref
  | wildPointer
  | uninitRead
  | outOfBounds
  | bufferOverflow
  | intOverflow
  | badConversion
  | outOfFuel
deriving DecidableEq, Repr

/-- A C computation: its value, or the abort that stopped it. -/
abbrev Run (α : Type) := Except Abort α

namespace Run

variable {α β : Type}

@[simp] theorem ok_bind (a : α) (f : α → Run β) : ((.ok a : Run α) >>= f) = f a := rfl

@[simp] theorem error_bind (e : Abort) (f : α → Run β) :
    ((.error e : Run α) >>= f) = .error e := rfl

/-- A sequence returns exactly when both halves do. -/
theorem bind_eq_ok {x : Run α} {f : α → Run β} {b : β} :
    (x >>= f) = .ok b ↔ ∃ a, x = .ok a ∧ f a = .ok b := by
  cases x with
  | error e => simp
  | ok a => simp

/-- A sequence stops with an error when one of its halves does. -/
theorem bind_eq_error {x : Run α} {f : α → Run β} {e : Abort} :
    (x >>= f) = .error e ↔ x = .error e ∨ ∃ a, x = .ok a ∧ f a = .error e := by
  cases x with
  | error e => simp
  | ok a => simp

/-- The computation does not call `exit`. -/
def NoExit (x : Run α) : Prop := ∀ message status, x ≠ .error (.exit message status)

theorem NoExit.ok (a : α) : NoExit (.ok a) := by
  intro message status h
  cases h

theorem NoExit.bind {x : Run α} {f : α → Run β} (hx : NoExit x) (hf : ∀ a, x = .ok a → NoExit (f a)) :
    NoExit (x >>= f) := by
  cases x with
  | ok a => exact hf a rfl
  | error e =>
      intro message status h
      cases h
      exact hx message status rfl

/-- The computation does not stop with the abort `e`. -/
def Avoids (e : Abort) (x : Run α) : Prop := x ≠ .error e

variable {e : Abort}

theorem Avoids.ok (a : α) : Avoids e (.ok a) := by
  intro h
  cases h

theorem Avoids.error {e' : Abort} (h : e' ≠ e) : Avoids e (.error e' : Run α) := by
  intro he
  cases he
  exact h rfl

theorem Avoids.bind {x : Run α} {f : α → Run β} (hx : Avoids e x)
    (hf : ∀ a, x = .ok a → Avoids e (f a)) : Avoids e (x >>= f) := by
  cases x with
  | ok a => exact hf a rfl
  | error e' =>
      intro h
      cases h
      exact hx rfl

end Run

namespace Run

variable {α β : Type}

/-- The computation returns or calls `exit`: it comes to no operation without a meaning. -/
def Orderly (x : Run α) : Prop := ∀ e, x = .error e → ∃ message status, e = .exit message status

theorem Orderly.ok (a : α) : Orderly (.ok a) := by
  intro e h
  cases h

theorem Orderly.exit (message : Str) (status : Nat) :
    Orderly (.error (.exit message status) : Run α) := by
  intro e h
  cases h
  exact ⟨message, status, rfl⟩

/-- A sequence is orderly if the first half is, and the second half from there. -/
theorem orderly_bind {x : Run α} {f : α → Run β} :
    Orderly (x >>= f) ↔ Orderly x ∧ ∀ a, x = .ok a → Orderly (f a) := by
  cases x with
  | error e =>
      constructor
      · intro h
        refine ⟨fun e' he => ?_, fun a ha => ?_⟩
        · cases he
          exact h e rfl
        · cases ha
      · rintro ⟨h, _⟩ e' he
        cases he
        exact h e rfl
  | ok a =>
      constructor
      · intro h
        refine ⟨Orderly.ok a, fun a' ha => ?_⟩
        cases ha
        exact h
      · intro h
        exact h.2 a rfl

theorem Orderly.avoids {x : Run α} {e : Abort} (h : Orderly x)
    (he : ∀ message status, e ≠ .exit message status) : Avoids e x := by
  intro herror
  obtain ⟨message, status, rfl⟩ := h e herror
  exact he message status rfl

/-- What never calls `exit` is orderly only if it returns. -/
theorem NoExit.orderly_iff {x : Run α} (h : NoExit x) : Orderly x ↔ ∃ a, x = .ok a := by
  cases x with
  | error e =>
      refine iff_of_false (fun horderly => ?_) fun hreturns => ?_
      · obtain ⟨message, status, rfl⟩ := horderly e rfl
        exact h message status rfl
      · obtain ⟨a, ha⟩ := hreturns
        cases ha
  | ok a => exact iff_of_true (Orderly.ok a) ⟨a, rfl⟩

end Run

/-! ## Fuel -/

/-- The fuelled computation `f` has the value `r` for every sufficiently large fuel. -/
def Settles {α : Type} (f : Nat → Run α) (r : Run α) : Prop := ∃ n, ∀ m, n ≤ m → f m = r

namespace Settles

variable {α β : Type} {f : Nat → Run α} {r s : Run α}

theorem const (r : Run α) : Settles (fun _ => r) r := ⟨0, fun _ _ => rfl⟩

/-- It is enough to look at the fuel above some number. -/
theorem of_add (n : Nat) (h : ∀ k, f (k + n) = r) : Settles f r := by
  refine ⟨n, fun m hm => ?_⟩
  obtain ⟨k, rfl⟩ := Nat.exists_eq_add_of_le' hm
  exact h k

/-- A computation settles on at most one outcome. -/
theorem unique (hr : Settles f r) (hs : Settles f s) : r = s := by
  obtain ⟨n, hn⟩ := hr
  obtain ⟨m, hm⟩ := hs
  rw [← hn (max n m) (Nat.le_max_left n m), hm (max n m) (Nat.le_max_right n m)]

/-- Sequencing: the first half settles on a value, the second half on its outcome from there. -/
theorem bind {a : α} {g : α → Nat → Run β} {t : Run β}
    (hf : Settles f (.ok a)) (hg : Settles (g a) t) :
    Settles (fun n => f n >>= fun x => g x n) t := by
  obtain ⟨n, hn⟩ := hf
  obtain ⟨m, hm⟩ := hg
  refine ⟨max n m, fun i hi => ?_⟩
  show (f i >>= fun x => g x i) = t
  rw [hn i (by omega), Run.ok_bind, hm i (by omega)]

theorem map {a : α} (hf : Settles f (.ok a)) (g : α → β) :
    Settles (fun n => f n >>= fun x => .ok (g x)) (.ok (g a)) :=
  hf.bind (g := fun x _ => .ok (g x)) (const _)

end Settles

/-! ## `int` arithmetic

A C `int` field is an `Int32`; an `int` expression is computed in `Int` and checked, since a signed
result that does not fit has no meaning in C. -/

def INT_MAX : Int := 2147483647

def INT_MIN : Int := -2147483648

/-- The value of a C expression of type `int` whose mathematical value is `z`. -/
def cInt (z : Int) : Run Int :=
  if INT_MIN ≤ z ∧ z ≤ INT_MAX then .ok z else .error .intOverflow

theorem cInt_ok {z : Int} (hlo : INT_MIN ≤ z) (hhi : z ≤ INT_MAX) : cInt z = .ok z :=
  if_pos ⟨hlo, hhi⟩

theorem cInt_avoids {e : Abort} (h : Abort.intOverflow ≠ e) (z : Int) : (cInt z).Avoids e := by
  unfold cInt
  split
  · exact Run.Avoids.ok _
  · exact Run.Avoids.error h

theorem cInt_eq_ok {z r : Int} : cInt z = .ok r ↔ r = z ∧ INT_MIN ≤ z ∧ z ≤ INT_MAX := by
  unfold cInt
  split
  · next h => simp [h, eq_comm]
  · next h => simp [h]

theorem toInt_le_intMax (x : Int32) : x.toInt ≤ INT_MAX := by
  have := x.toInt_lt
  unfold INT_MAX
  omega

theorem intMin_le_toInt (x : Int32) : INT_MIN ≤ x.toInt := by
  have := x.le_toInt
  unfold INT_MIN
  omega

end Btide
