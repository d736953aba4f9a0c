import Btide.Base.Stdio
import Btide.Base.Buffer

/-!
# `Base.Ends` — computations that come to an end

A computation `Ends` if it settles on a value or on an abort of the program. A part that takes no fuel
ends if it does not report the lack of it (`Avoids .outOfFuel`), and a sequence ends if its first half
does and its second half does for every value on which the first may settle.
-/

namespace Btide

/-- The computation comes to an end, by returning or by an abort. -/
def Ends {α : Type} (f : Nat → Run α) : Prop := ∃ r, Settles f r ∧ r.Avoids .outOfFuel

section Ends

variable {α β : Type} {f : Nat → Run α} {x : Run α}

theorem Settles.ends {a : α} (h : Settles f (.ok a)) : Ends f := ⟨_, h, Run.Avoids.ok a⟩

theorem Ends.const (h : x.Avoids .outOfFuel) : Ends fun _ => x := ⟨x, Settles.const x, h⟩

theorem Ends.bind {g : α → Nat → Run β} (hf : Ends f) (hg : ∀ a, Settles f (.ok a) → Ends (g a)) :
    Ends fun n => f n >>= fun x => g x n := by
  obtain ⟨r, hr, havoid⟩ := hf
  cases r with
  | ok a =>
      obtain ⟨t, ht, hend⟩ := hg a hr
      exact ⟨t, hr.bind ht, hend⟩
  | error e =>
      obtain ⟨n, hn⟩ := hr
      refine ⟨.error e, ⟨n, fun m hm => ?_⟩, fun he => havoid ?_⟩
      · show (f m >>= fun x => g x m) = _
        rw [hn m hm, Run.error_bind]
      · cases he
        rfl

/-- A first half without fuel. -/
theorem Ends.after {g : α → Nat → Run β} (hx : x.Avoids .outOfFuel)
    (hg : ∀ a, x = .ok a → Ends (g a)) : Ends fun n => x >>= fun a => g a n := by
  refine (Ends.const hx).bind fun a ha => hg a ?_
  exact (Settles.const x).unique ha

theorem Ends.ite {c : Prop} [Decidable c] {g : Nat → Run α} (hf : c → Ends f) (hg : ¬ c → Ends g) :
    Ends fun n => if c then f n else g n := by
  by_cases hc : c
  · simp only [if_pos hc]
    exact hf hc
  · simp only [if_neg hc]
    exact hg hc

/-- It is enough that some fuel makes it end and that more makes no difference. -/
theorem Ends.of_le {n : Nat} (h : ∀ m, n ≤ m → f m = f n) (hn : (f n).Avoids .outOfFuel) : Ends f :=
  ⟨f n, ⟨n, h⟩, hn⟩

end Ends

/-! ## String functions and conversions -/

/-- The computation needs no fuel. -/
abbrev NeedsNoFuel {α : Type} (x : Run α) : Prop := x.Avoids .outOfFuel

section NeedsNoFuel

open Run

theorem cInt_needsNoFuel (z : Int) : NeedsNoFuel (cInt z) := cInt_avoids (by simp) z

theorem storeStr_needsNoFuel (capacity : Nat) (w : Str) : NeedsNoFuel (storeStr capacity w) := by
  unfold storeStr
  split
  · exact Avoids.ok w
  · exact Avoids.error (by simp)

theorem sscanf_needsNoFuel (buffer : Str) (format : List Directive) :
    NeedsNoFuel (sscanf buffer format) := by
  intro h
  cases scan_error h

theorem assignStr_needsNoFuel (format : List Directive) (capacity : Nat) (old buffer : Str) :
    NeedsNoFuel (assignStr format capacity old buffer) := by
  refine (sscanf_needsNoFuel _ format).bind fun vs _ => ?_
  split
  · exact storeStr_needsNoFuel _ _
  · exact Avoids.ok _

theorem assignInt_needsNoFuel (format : List Directive) (old : Int32) (buffer : Str) :
    NeedsNoFuel (assignInt format old buffer) := by
  refine (sscanf_needsNoFuel _ format).bind fun vs _ => ?_
  split
  · exact Avoids.ok _
  · exact Avoids.ok _

theorem readStr_needsNoFuel (chars : Str) : NeedsNoFuel (readStr chars) := by
  unfold readStr
  split
  · exact Avoids.ok _
  · exact Avoids.error (by simp)

theorem strlen_needsNoFuel (chars : Str) : NeedsNoFuel (strlen chars) :=
  (readStr_needsNoFuel chars).bind fun _ _ => Avoids.ok _

theorem strchr_needsNoFuel (chars : Str) (c : UInt8) : NeedsNoFuel (strchr chars c) := by
  induction chars with
  | nil => exact Avoids.error (by simp)
  | cons d chars ih =>
      unfold strchr
      split
      · exact Avoids.ok _
      · split
        · exact Avoids.ok _
        · exact ih.bind fun _ _ => Avoids.ok _

variable {n : Nat} (b : Buffer n)

theorem Buffer.put_needsNoFuel (w : Str) : NeedsNoFuel (b.put w) := by
  unfold put
  split
  · exact Avoids.ok _
  · exact Avoids.error (by simp)

theorem Buffer.strcpy_needsNoFuel (src : Str) : NeedsNoFuel (b.strcpy src) := by
  unfold strcpy
  split
  · exact b.put_needsNoFuel _
  · split
    · exact Avoids.error (by simp)
    · exact Avoids.error (by simp)

theorem Buffer.sscanf_needsNoFuel (line : Str) (format : List Directive) :
    NeedsNoFuel (b.sscanf line format) := by
  unfold sscanf
  refine (Btide.sscanf_needsNoFuel line format).bind fun vs _ => ?_
  split
  · exact (b.put_needsNoFuel _).bind fun _ _ => Avoids.ok _
  · exact Avoids.ok _

end NeedsNoFuel

end Btide
