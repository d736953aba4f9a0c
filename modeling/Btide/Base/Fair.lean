import Mathlib.Tactic.Common
import Btide.Base.Steps

/-!
# `Base.Fair` — what must happen in the end

A `Behaviour` of a transition system goes on for ever; at each moment there is one event or none. It is
`Fair` to a party if this party, as long as it can take a step, takes one sooner or later. The progress rule
`Behaviour.leadsTo` concludes from a measure that only the party has to lower.

A run that ends in a state where a party can do nothing more is a fair behaviour when it is continued by
silence (`Steps.behaviour`).
-/

namespace Btide

/-- What happens over time. -/
structure Behaviour {σ ε : Type*} (step : σ → ε → σ → Prop) where
  state : Nat → σ
  event : Nat → Option ε
  moves : ∀ n e, event n = some e → step (state n) e (state (n + 1))
  rests : ∀ n, event n = none → state (n + 1) = state n

/-- One of the events `mine` can happen. -/
def Enabled {σ ε : Type*} (step : σ → ε → σ → Prop) (mine : ε → Prop) (s : σ) : Prop :=
  ∃ e t, mine e ∧ step s e t

namespace Behaviour

variable {σ ε : Type*} {step : σ → ε → σ → Prop} {mine : ε → Prop} {b : Behaviour step} {n : Nat}

/-- Whenever one of the events `mine` can happen, one of them happens or they become impossible. -/
def Fair (b : Behaviour step) (mine : ε → Prop) : Prop :=
  ∀ n, ∃ m, n ≤ m ∧ (¬ Enabled step mine (b.state m) ∨ ∃ e, b.event m = some e ∧ mine e)

/-- What every event preserves holds from then on. -/
theorem invariant (Inv : σ → Prop) (hstep : ∀ s e t, Inv s → step s e t → Inv t) {k : Nat}
    (hk : Inv (b.state k)) (hn : k ≤ n) : Inv (b.state n) := by
  induction hn with
  | refl => exact hk
  | @step n _ ih =>
      cases he : b.event n with
      | none => rwa [b.rests n he]
      | some e => exact hstep _ e _ ih (b.moves n e he)

/-- Every state of a behaviour is reached by a run. -/
theorem steps (b : Behaviour step) (n : Nat) : ∃ es, Steps step (b.state 0) es (b.state n) :=
  invariant (fun s => ∃ es, Steps step (b.state 0) es s)
    (fun _ e _ ⟨es, hes⟩ hstep => ⟨es ++ [e], hes.snoc hstep⟩) ⟨[], .nil⟩ (Nat.zero_le n)

section Progress

variable {P Q : σ → Prop} {M : σ → Nat}

/-- Until `Q` holds, `P` does and the measure does not grow. -/
theorem stays (hstep : ∀ s e t, P s → step s e t → Q t ∨ (P t ∧ M t ≤ M s)) {m : Nat} (hm : n ≤ m)
    (hn : P (b.state n)) :
    (∃ k, n ≤ k ∧ Q (b.state k)) ∨ (P (b.state m) ∧ M (b.state m) ≤ M (b.state n)) := by
  induction hm with
  | refl => exact Or.inr ⟨hn, Nat.le_refl _⟩
  | @step m hm ih =>
      rcases ih with hQ | ⟨hP, hle⟩
      · exact Or.inl hQ
      · cases he : b.event m with
        | none =>
            rw [b.rests m he]
            exact Or.inr ⟨hP, hle⟩
        | some e =>
            rcases hstep _ e _ hP (b.moves m e he) with hQ | ⟨hP', hle'⟩
            · exact Or.inl ⟨m + 1, hm.step, hQ⟩
            · exact Or.inr ⟨hP', Nat.le_trans hle' hle⟩

/-- **Progress rule.** From `P` to `Q`, if no event leads anywhere else or raises the measure, and the
    events `mine`, one of which is always possible, lower it. -/
theorem leadsTo (hfair : b.Fair mine) (henabled : ∀ s, P s → Enabled step mine s)
    (hstep : ∀ s e t, P s → step s e t → Q t ∨ (P t ∧ M t ≤ M s))
    (hlower : ∀ s e t, P s → mine e → step s e t → Q t ∨ M t < M s) (hn : P (b.state n)) :
    ∃ m, n ≤ m ∧ Q (b.state m) := by
  induction hM : M (b.state n) using Nat.strongRecOn generalizing n with
  | ind k ih =>
      obtain ⟨m, hm, hturn⟩ := hfair n
      rcases stays hstep hm hn with hQ | ⟨hP, hle⟩
      · exact hQ
      · rcases hturn with hidle | ⟨e, he, hmine⟩
        · exact absurd (henabled _ hP) hidle
        · have hmove := b.moves m e he
          rcases hlower _ e _ hP hmine hmove with hQ | hlt
          · exact ⟨m + 1, by omega, hQ⟩
          · rcases hstep _ e _ hP hmove with hQ | ⟨hP', _⟩
            · exact ⟨m + 1, by omega, hQ⟩
            · obtain ⟨j, hj, hQ⟩ := ih _ (by omega) hP' rfl
              exact ⟨j, by omega, hQ⟩

end Progress

/-- Nothing is owed to a party that has nothing left to do. -/
theorem fair_of_idle {N : Nat} {t : σ} (hend : ∀ m, N ≤ m → b.state m = t)
    (hidle : ¬ Enabled step mine t) : b.Fair mine := by
  intro n
  refine ⟨max n N, Nat.le_max_left n N, Or.inl ?_⟩
  rwa [hend _ (Nat.le_max_right n N)]

end Behaviour

/-- A run, and then silence. -/
theorem Steps.behaviour {σ ε : Type*} {step : σ → ε → σ → Prop} {s t : σ} {es : List ε}
    (h : Steps step s es t) :
    ∃ b : Behaviour step, (∀ n, b.event n = es[n]?) ∧ (∀ n, Steps step s (es.take n) (b.state n)) ∧
      ∀ n, es.length ≤ n → b.state n = t := by
  induction h with
  | nil =>
      refine ⟨⟨fun _ => s, fun _ => none, ?_, fun _ _ => rfl⟩, fun _ => rfl, fun _ => ?_, fun _ _ => rfl⟩
      · intro n e he
        cases he
      · rw [List.take_nil]
        exact .nil
  | @snoc t u es e hrun hlast ih =>
      obtain ⟨b, hevent, hb, hend⟩ := ih
      have hbefore : ∀ n, n ≤ es.length → (if n ≤ es.length then b.state n else u) = b.state n :=
        fun n hn => if_pos hn
      have hafter : ∀ n, es.length < n → (if n ≤ es.length then b.state n else u) = u :=
        fun n hn => if_neg (Nat.not_le_of_lt hn)
      refine ⟨⟨fun n => if n ≤ es.length then b.state n else u, fun n => (es ++ [e])[n]?, ?_, ?_⟩,
        fun _ => rfl, fun n => ?_, ?_⟩
      · intro n d hd
        obtain ⟨hlt, hget⟩ := List.getElem?_eq_some_iff.mp hd
        rw [List.length_append, List.length_singleton] at hlt
        rcases Nat.lt_succ_iff_lt_or_eq.mp hlt with hn | rfl
        · have hbd : b.event n = some d := by
            rw [hevent, List.getElem?_eq_some_iff]
            exact ⟨hn, by rwa [List.getElem_append_left hn] at hget⟩
          rw [hbefore n (by omega), hbefore (n + 1) hn]
          exact b.moves n d hbd
        · obtain rfl : e = d := by simpa using hget
          rw [hbefore _ (Nat.le_refl _), hafter _ (Nat.lt_succ_self _), hend _ (Nat.le_refl _)]
          exact hlast
      · intro n hn
        rw [List.getElem?_eq_none_iff, List.length_append, List.length_singleton] at hn
        rw [hafter n (by omega), hafter (n + 1) (by omega)]
      · show Steps step s ((es ++ [e]).take n) (if n ≤ es.length then b.state n else u)
        rcases Nat.lt_or_ge es.length n with hn | hn
        · rw [hafter n hn, List.take_of_length_le (by simpa using Nat.succ_le_of_lt hn)]
          exact hrun.snoc hlast
        · rw [hbefore n hn, List.take_append_of_le_length hn]
          exact hb n
      · intro n hn
        rw [List.length_append, List.length_singleton] at hn
        exact hafter n (by omega)

end Btide
