import Mathlib.Data.List.Basic
import Mathlib.Data.List.Induction
import Mathlib.Tactic.Common

/-!
# `Base.Steps` — runs of a transition system

`Steps step s es t`: the events `es`, one after the other, lead from `s` to `t`. The rules below are the
ones a proof about every run needs: a run can be cut anywhere, and what every event of a run preserves
holds at its end if it held at its beginning (`Steps.invariant_of_forall`).
-/

namespace Btide

/-- A run of the transition relation `step`, with its events. -/
inductive Steps {σ ε : Type*} (step : σ → ε → σ → Prop) : σ → List ε → σ → Prop
  | nil {s} : Steps step s [] s
  | snoc {s t u es e} : Steps step s es t → step t e u → Steps step s (es ++ [e]) u

namespace Steps

variable {σ ε : Type*} {step : σ → ε → σ → Prop} {s t u : σ} {es es' : List ε} {e : ε}

theorem append (h : Steps step s es t) (h' : Steps step t es' u) : Steps step s (es ++ es') u := by
  induction h' with
  | nil => rwa [List.append_nil]
  | snoc _ hstep ih =>
      rw [← List.append_assoc]
      exact ih.snoc hstep

/-- The last step of a run. -/
theorem of_snoc (h : Steps step s (es ++ [e]) u) : ∃ t, Steps step s es t ∧ step t e u := by
  generalize hes : es ++ [e] = fs at h
  cases h with
  | nil => exact absurd hes (by simp)
  | snoc h hstep =>
      obtain ⟨rfl, heq⟩ := List.append_inj' hes rfl
      cases heq
      exact ⟨_, h, hstep⟩

/-- A run over `es ++ es'` is a run over `es` followed by one over `es'`. -/
theorem of_append (h : Steps step s (es ++ es') u) : ∃ t, Steps step s es t ∧ Steps step t es' u := by
  induction es' using List.reverseRecOn generalizing u with
  | nil => exact ⟨u, by rwa [List.append_nil] at h, .nil⟩
  | append_singleton es' e ih =>
      rw [← List.append_assoc] at h
      obtain ⟨v, hv, hstep⟩ := h.of_snoc
      obtain ⟨t, ht, ht'⟩ := ih hv
      exact ⟨t, ht, ht'.snoc hstep⟩

theorem single_iff : Steps step s [e] t ↔ step s e t := by
  constructor
  · intro h
    have h' : Steps step s ([] ++ [e]) t := h
    obtain ⟨v, hv, hstep⟩ := h'.of_snoc
    generalize hes : ([] : List ε) = fs at hv
    cases hv with
    | nil => exact hstep
    | snoc _ _ => exact absurd hes (by simp)
  · intro h
    exact Steps.nil.snoc h

/-- If events have one result each, so have runs. -/
theorem unique (hdet : ∀ s e t u, step s e t → step s e u → t = u) (h : Steps step s es t)
    (h' : Steps step s es u) : t = u := by
  induction h generalizing u with
  | nil =>
      generalize hes : ([] : List ε) = fs at h'
      cases h' with
      | nil => rfl
      | snoc _ _ => exact absurd hes (by simp)
  | snoc _ hstep ih =>
      obtain ⟨v, hv, hstep'⟩ := h'.of_snoc
      obtain rfl := ih hv
      exact hdet _ _ _ _ hstep hstep'

/-- **Run rule.** What every event of the run preserves holds at its end. -/
theorem invariant_of_forall (Inv : σ → Prop) {P : ε → Prop}
    (hstep : ∀ s e t, P e → Inv s → step s e t → Inv t) (h : Steps step s es t)
    (hes : ∀ e ∈ es, P e) (hs : Inv s) : Inv t := by
  induction h with
  | nil => exact hs
  | snoc _ hlast ih =>
      refine hstep _ _ _ (hes _ (by simp)) (ih fun e he => ?_) hlast
      exact hes e (List.mem_append_left _ he)

/-- **Simulation.** A relation that is kept up step by step is kept up by whole runs. -/
theorem simulate {τ : Type*} {step' : τ → ε → τ → Prop} {R : σ → τ → Prop} {a : τ}
    (hstep : ∀ s a e t, R s a → step s e t → ∃ b, step' a e b ∧ R t b) (h : Steps step s es t)
    (hs : R s a) : ∃ b, Steps step' a es b ∧ R t b := by
  induction h with
  | nil => exact ⟨a, .nil, hs⟩
  | snoc _ hlast ih =>
      obtain ⟨b, hb, ht⟩ := ih
      obtain ⟨c, hc, hu⟩ := hstep _ _ _ _ ht hlast
      exact ⟨c, hb.snoc hc, hu⟩

end Steps

/-! ## Runs whose steps meet a condition -/

/-- Every event of a run from `s` over `es` happens in a state in which `P` allows it. -/
def EachStep {σ ε : Type*} (step : σ → ε → σ → Prop) (P : σ → ε → Prop) (s : σ) (es : List ε) : Prop :=
  ∀ pre e post t, es = pre ++ e :: post → Steps step s pre t → P t e

namespace EachStep

variable {σ ε : Type*} {step : σ → ε → σ → Prop} {P : σ → ε → Prop} {s t : σ} {es es' : List ε} {e : ε}

theorem nil : EachStep step P s [] := by
  intro pre e post t hes _
  exact absurd hes (by simp)

theorem of_append (h : EachStep step P s (es ++ es')) : EachStep step P s es := by
  rintro pre e post t rfl ht
  exact h pre e (post ++ es') t (by simp) ht

theorem last (h : EachStep step P s (es ++ [e])) (ht : Steps step s es t) : P t e :=
  h es e [] t rfl ht

/-- Event after event. -/
theorem cons (he : P s e) (hes : ∀ t, step s e t → EachStep step P t es) :
    EachStep step P s (e :: es) := by
  intro pre e' post t hcut ht
  cases pre with
  | nil =>
      cases hcut
      generalize hnil : ([] : List ε) = fs at ht
      cases ht with
      | nil => exact he
      | snoc _ _ => exact absurd hnil (by simp)
  | cons d pre =>
      cases hcut
      have ht' : Steps step s ([e] ++ pre) t := ht
      obtain ⟨u, hone, hrest⟩ := ht'.of_append
      exact hes u (Steps.single_iff.mp hone) pre e' post t rfl hrest

/-- **Run rule.** What every step that meets the condition preserves holds at the end of a run whose steps
    all meet it. -/
theorem invariant (Inv : σ → Prop) (hstep : ∀ s e t, P s e → Inv s → step s e t → Inv t)
    (hes : EachStep step P s es) (h : Steps step s es t) (hs : Inv s) : Inv t := by
  induction h with
  | nil => exact hs
  | snoc hrun hlast ih => exact hstep _ _ _ (hes.last hrun) (ih hes.of_append) hlast

/-- If a step that breaks the condition leads to a state without the property, and the condition keeps up
    an invariant that implies it, then the states reached have the property only if the condition holds
    throughout. -/
theorem of_forall_reached {Inv Q : σ → Prop} (hdet : ∀ s e t u, step s e t → step s e u → t = u)
    (hstep : ∀ s e t, P s e → Inv s → step s e t → Inv t)
    (hbreak : ∀ s e t, Inv s → step s e t → ¬ P s e → ¬ Q t) (h : Steps step s es t) (hs : Inv s)
    (hall : ∀ pre post u, es = pre ++ post → Steps step s pre u → Q u) : EachStep step P s es := by
  induction h with
  | nil => exact nil
  | @snoc t u es e hrun hlast ih =>
      have hes := ih fun pre post v hcut => hall pre (post ++ [e]) v (by simp [hcut])
      intro pre e' post v hcut hv
      rcases List.eq_nil_or_concat' post with rfl | ⟨post, e'', rfl⟩
      · obtain ⟨rfl, he⟩ := List.append_inj' hcut rfl
        cases he
        obtain rfl := Steps.unique hdet hrun hv
        by_contra hbad
        have hinv := hes.invariant Inv hstep hrun hs
        exact hbreak _ _ _ hinv hlast hbad (hall _ [] u (by simp) (hrun.snoc hlast))
      · have hcut' : es ++ [e] = (pre ++ e' :: post) ++ [e''] := by simpa using hcut
        obtain ⟨rfl, _⟩ := List.append_inj' hcut' rfl
        exact hes pre e' post v rfl hv

/-- Two conditions that agree wherever an invariant holds are met by the same runs, if the first keeps the
    invariant up. -/
theorem congr_of_invariant {Q : σ → ε → Prop} (Inv : σ → Prop) (hiff : ∀ s e, Inv s → (P s e ↔ Q s e))
    (hstep : ∀ s e t, P s e → Inv s → step s e t → Inv t) (hs : Inv s) :
    EachStep step P s es ↔ EachStep step Q s es := by
  constructor
  · rintro h pre e post t rfl ht
    have hinv := h.of_append.invariant Inv hstep ht hs
    exact (hiff t e hinv).mp (h pre e post t rfl ht)
  · rintro h pre e post t rfl ht
    have hstep' : ∀ s e t, Q s e → Inv s → step s e t → Inv t := fun s e t hq hi =>
      hstep s e t ((hiff s e hi).mpr hq) hi
    have hinv := h.of_append.invariant Inv hstep' ht hs
    exact (hiff t e hinv).mpr (h pre e post t rfl ht)

end EachStep

/-! ## Steps that are computed -/

/-- The run of a list of events, for a step function. -/
def runFrom {σ ε : Type*} (step : σ → ε → Option σ) : σ → List ε → Option σ
  | s, [] => some s
  | s, e :: es => (step s e).bind fun t => runFrom step t es

theorem runFrom_steps {σ ε : Type*} {step : σ → ε → Option σ} {es : List ε} {s t : σ}
    (h : runFrom step s es = some t) :
    Steps (fun (s : σ) (e : ε) (t : σ) => step s e = some t) s es t := by
  induction es generalizing s with
  | nil =>
      obtain rfl : s = t := Option.some.inj h
      exact .nil
  | cons e es ih =>
      obtain ⟨u, hstep, hrest⟩ := Option.bind_eq_some_iff.mp h
      exact (Steps.single_iff.mpr hstep).append (ih hrest)

/-- What a computed run leads to can be read off the computation. -/
theorem runFrom_get {σ ε α : Type*} {step : σ → ε → Option σ} {es : List ε} {s t : σ} {f : σ → α} {a : α}
    (h : runFrom step s es = some t) (hmap : (runFrom step s es).map f = some a) : f t = a := by
  rw [h] at hmap
  exact Option.some.inj hmap

end Btide
