import Btide.Base.Run

/-!
# `Base.Loop` — `while` loops and worklists

`whileLoop` is the C statement `while (cond) body`, where the body may `break`. The rules below are for
its most common use in the sources: a worklist that takes the first item of a queue and appends the
items it generates.

`Pops kids q vs q'` describes such a run abstractly: taking the items `vs` one after the other from the
front of `q`, each time appending the item's `kids` at the back, leaves the queue `q'`. A worklist loop
whose body implements one such pop follows the run (`whileLoop_pops`), whatever the items stand for.
-/

namespace Btide

/-- How a loop body ends: the next iteration, or `break`. -/
inductive Flow (σ : Type)
  | next (s : σ)
  | stop (s : σ)

/-- `while (cond) body`. -/
def whileLoop {σ : Type} (cond : σ → Bool) (body : σ → Run (Flow σ)) : Nat → σ → Run σ
  | fuel, s =>
    if cond s then
      match fuel with
      | 0 => .error .outOfFuel
      | fuel + 1 => do
        match ← body s with
        | .next s' => whileLoop cond body fuel s'
        | .stop s' => .ok s'
    else .ok s

section WhileLoop

variable {σ : Type} {cond : σ → Bool} {body : σ → Run (Flow σ)}

theorem whileLoop_exit {s : σ} (h : cond s = false) (fuel : Nat) :
    whileLoop cond body fuel s = .ok s := by
  unfold whileLoop
  rw [if_neg (by simp [h])]

theorem whileLoop_next {s s' : σ} (h : cond s = true) (hb : body s = .ok (.next s')) (fuel : Nat) :
    whileLoop cond body (fuel + 1) s = whileLoop cond body fuel s' := by
  rw [whileLoop, if_pos h, hb]
  rfl

theorem whileLoop_stop {s s' : σ} (h : cond s = true) (hb : body s = .ok (.stop s')) (fuel : Nat) :
    whileLoop cond body (fuel + 1) s = .ok s' := by
  rw [whileLoop, if_pos h, hb]
  rfl

theorem whileLoop_error {s : σ} {e : Abort} (h : cond s = true) (hb : body s = .error e)
    (fuel : Nat) : whileLoop cond body (fuel + 1) s = .error e := by
  rw [whileLoop, if_pos h, hb]
  rfl

/-- **Loop rule.** What the body keeps up holds when the loop is left. -/
theorem whileLoop_invariant (Inv : σ → Prop)
    (hnext : ∀ s s', Inv s → body s = .ok (.next s') → Inv s')
    (hstop : ∀ s s', Inv s → body s = .ok (.stop s') → Inv s') {fuel : Nat} {s r : σ} (hs : Inv s)
    (h : whileLoop cond body fuel s = .ok r) : Inv r := by
  induction fuel generalizing s with
  | zero =>
      unfold whileLoop at h
      split at h
      · cases h
      · cases h
        exact hs
  | succ fuel ih =>
      by_cases hcond : cond s = true
      · cases hbody : body s with
        | error e =>
            rw [whileLoop_error hcond hbody] at h
            cases h
        | ok flow =>
            rcases flow with t | t
            · rw [whileLoop_next hcond hbody] at h
              exact ih (hnext _ _ hs hbody) h
            · rw [whileLoop_stop hcond hbody] at h
              cases h
              exact hstop _ _ hs hbody
      · rw [whileLoop_exit (Bool.eq_false_iff.mpr hcond)] at h
        cases h
        exact hs

/-- A loop stops with an abort other than the lack of fuel only if its body does. -/
theorem whileLoop_avoids {e : Abort} (hfuel : Abort.outOfFuel ≠ e) (hbody : ∀ s, (body s).Avoids e)
    (fuel : Nat) (s : σ) : (whileLoop cond body fuel s).Avoids e := by
  induction fuel generalizing s with
  | zero =>
      unfold whileLoop
      split
      · exact Run.Avoids.error hfuel
      · exact Run.Avoids.ok _
  | succ fuel ih =>
      unfold whileLoop
      split
      · refine (hbody s).bind fun flow _ => ?_
        cases flow with
        | next s' => exact ih s'
        | stop s' => exact Run.Avoids.ok s'
      · exact Run.Avoids.ok _

/-- More turns than a loop needs make no difference. -/
theorem whileLoop_settles {fuel : Nat} {s r : σ} (h : whileLoop cond body fuel s = .ok r) :
    Settles (fun fuel => whileLoop cond body fuel s) (.ok r) := by
  refine ⟨fuel, fun m hm => ?_⟩
  induction fuel generalizing s m with
  | zero =>
      by_cases hcond : cond s = true
      · rw [whileLoop, if_pos hcond] at h
        cases h
      · have hexit := Bool.eq_false_iff.mpr hcond
        rw [whileLoop_exit hexit] at h
        exact (whileLoop_exit hexit m).trans h
  | succ fuel ih =>
      by_cases hcond : cond s = true
      · obtain ⟨m, rfl⟩ := Nat.exists_eq_succ_of_ne_zero (by omega : m ≠ 0)
        cases hbody : body s with
        | error e =>
            rw [whileLoop_error hcond hbody] at h
            cases h
        | ok flow =>
            rcases flow with t | t
            · rw [whileLoop_next hcond hbody] at h
              exact (whileLoop_next hcond hbody m).trans (ih h m (by omega))
            · rw [whileLoop_stop hcond hbody] at h
              exact (whileLoop_stop hcond hbody m).trans h
      · have hexit := Bool.eq_false_iff.mpr hcond
        rw [whileLoop_exit hexit] at h
        exact (whileLoop_exit hexit m).trans h

variable {τ : Type} {cond' : τ → Bool} {body' : τ → Run (Flow τ)}

/-- **Simulation.** A loop whose turns another loop can follow ends in a state that the other one
    reaches as well. -/
theorem whileLoop_simulates {R : σ → τ → Prop} (hcond : ∀ s t, R s t → cond' t = cond s)
    (hnext : ∀ s t s', R s t → body s = .ok (.next s') → ∃ t', body' t = .ok (.next t') ∧ R s' t')
    (hstop : ∀ s t s', R s t → body s = .ok (.stop s') → ∃ t', body' t = .ok (.stop t') ∧ R s' t')
    {fuel : Nat} {s r : σ} {t : τ} (hR : R s t) (h : whileLoop cond body fuel s = .ok r) :
    ∃ u, whileLoop cond' body' fuel t = .ok u ∧ R r u := by
  induction fuel generalizing s t with
  | zero =>
      by_cases hc : cond s = true
      · rw [whileLoop, if_pos hc] at h
        cases h
      · have hexit := Bool.eq_false_iff.mpr hc
        rw [whileLoop_exit hexit] at h
        cases h
        exact ⟨t, whileLoop_exit ((hcond _ t hR).trans hexit) 0, hR⟩
  | succ fuel ih =>
      by_cases hc : cond s = true
      · have hc' := (hcond s t hR).trans hc
        cases hbody : body s with
        | error e =>
            rw [whileLoop_error hc hbody] at h
            cases h
        | ok flow =>
            rcases flow with s' | s'
            · rw [whileLoop_next hc hbody] at h
              obtain ⟨t', hbody', hR'⟩ := hnext s t s' hR hbody
              obtain ⟨u, hu, hRu⟩ := ih hR' h
              exact ⟨u, (whileLoop_next hc' hbody' fuel).trans hu, hRu⟩
            · rw [whileLoop_stop hc hbody] at h
              cases h
              obtain ⟨t', hbody', hR'⟩ := hstop s t _ hR hbody
              exact ⟨t', whileLoop_stop hc' hbody' fuel, hR'⟩
      · have hexit := Bool.eq_false_iff.mpr hc
        rw [whileLoop_exit hexit] at h
        cases h
        exact ⟨t, whileLoop_exit ((hcond _ t hR).trans hexit) _, hR⟩

end WhileLoop

/-! ## Worklist runs -/

section Worklist

variable {T : Type*}

/-- Popping the items `vs` from the front of `q`, each time appending the item's `kids`, leaves `q'`. -/
inductive Pops (kids : T → List T) : List T → List T → List T → Prop
  | nil {q} : Pops kids q [] q
  | cons {t q vs q'} : Pops kids (q ++ kids t) vs q' → Pops kids (t :: q) (t :: vs) q'

/-- A run over `xs ++ ys` is a run over `xs` followed by one over `ys`. -/
theorem Pops.split {kids : T → List T} {q r xs ys : List T} (h : Pops kids q (xs ++ ys) r) :
    ∃ p, Pops kids q xs p ∧ Pops kids p ys r := by
  induction xs generalizing q with
  | nil => exact ⟨q, .nil, h⟩
  | cons x xs ih =>
      cases h with
      | cons h' =>
          obtain ⟨p, hx, hy⟩ := ih h'
          exact ⟨p, .cons hx, hy⟩

/-- One run after another. -/
theorem Pops.append {kids : T → List T} {p q r xs ys : List T} (h : Pops kids p xs q)
    (h' : Pops kids q ys r) : Pops kids p (xs ++ ys) r := by
  induction h with
  | nil => exact h'
  | cons _ ih => exact .cons (ih h')

/-- Taking the whole queue leaves what its items have generated. -/
theorem Pops.round (kids : T → List T) (q r : List T) : Pops kids (q ++ r) q (r ++ q.flatMap kids) := by
  induction q generalizing r with
  | nil =>
      rw [List.nil_append, List.flatMap_nil, List.append_nil]
      exact .nil
  | cons t q ih =>
      have hrest := ih (r ++ kids t)
      rw [← List.append_assoc, List.append_assoc r, ← List.flatMap_cons] at hrest
      exact .cons hrest

/-- Before its next pop a run has the popped item at the front of its queue. -/
theorem Pops.head {kids : T → List T} {q r ys : List T} {y : T} (h : Pops kids q (y :: ys) r) :
    ∃ q', q = y :: q' := by
  cases h with
  | cons _ => exact ⟨_, rfl⟩

variable {S P : Type} {cond : S × List P → Bool} {body : S × List P → Run (Flow (S × List P))}

/-- **A worklist loop follows its abstract run.** The items stand for the queued values `conc t`, `Inv`
    relates the items popped so far to the loop's other state, and the body pops one item. -/
theorem whileLoop_pops {kids : T → List T} {conc : T → P} {Inv : List T → S → Prop}
    {all : List T} (hcond : ∀ s p ps, cond (s, p :: ps) = true)
    (hbody : ∀ pre t post s todo, all = pre ++ t :: post → Inv pre s →
      ∃ s', body (s, (t :: todo).map conc) = .ok (.next (s', (todo ++ kids t).map conc)) ∧
        Inv (pre ++ [t]) s')
    {q vs q' : List T} (h : Pops kids q vs q') :
    ∀ pre post s, all = pre ++ vs ++ post → Inv pre s →
      ∃ s', Inv (pre ++ vs) s' ∧
        ∀ n, whileLoop cond body (n + vs.length) (s, q.map conc)
          = whileLoop cond body n (s', q'.map conc) := by
  induction h with
  | nil =>
      intro pre post s _ hs
      exact ⟨s, by simpa using hs, fun n => rfl⟩
  | @cons t q vs q' _ ih =>
      intro pre post s hall hs
      obtain ⟨s₁, hb, hs₁⟩ := hbody pre t (vs ++ post) s q (by simp [hall]) hs
      obtain ⟨s₂, hs₂, hrun⟩ := ih (pre ++ [t]) post s₁ (by simp [hall]) hs₁
      refine ⟨s₂, by simpa using hs₂, fun n => ?_⟩
      have hc : cond (s, (t :: q).map conc) = true := hcond s (conc t) (q.map conc)
      rw [List.length_cons, ← Nat.add_assoc, whileLoop_next hc hb, hrun]

/-- A worklist loop whose abstract run empties the queue settles. -/
theorem whileLoop_drains {kids : T → List T} {conc : T → P} {Inv : List T → S → Prop}
    {q vs : List T} (h : Pops kids q vs []) (hcond : ∀ s p ps, cond (s, p :: ps) = true)
    (hdone : ∀ s, cond (s, []) = false)
    (hbody : ∀ pre t post s todo, vs = pre ++ t :: post → Inv pre s →
      ∃ s', body (s, (t :: todo).map conc) = .ok (.next (s', (todo ++ kids t).map conc)) ∧
        Inv (pre ++ [t]) s')
    {s : S} (hs : Inv [] s) :
    ∃ s', Inv vs s' ∧
      Settles (fun fuel => whileLoop cond body fuel (s, q.map conc)) (.ok (s', [])) := by
  obtain ⟨s', hs', hrun⟩ := whileLoop_pops hcond hbody h [] [] s (by simp) hs
  refine ⟨s', by simpa using hs', Settles.of_add vs.length fun n => ?_⟩
  rw [hrun n, List.map_nil, whileLoop_exit (hdone s')]

/-- A worklist loop that reaches an item on which its body breaks settles on the broken state. -/
theorem whileLoop_breaks {kids : T → List T} {conc : T → P} {Inv : List T → S → Prop}
    {q pre post : List T} {t : T} (h : Pops kids q (pre ++ t :: post) [])
    (hcond : ∀ s p ps, cond (s, p :: ps) = true)
    (hbody : ∀ pre' t' post' s todo, pre = pre' ++ t' :: post' → Inv pre' s →
      ∃ s', body (s, (t' :: todo).map conc) = .ok (.next (s', (todo ++ kids t').map conc)) ∧
        Inv (pre' ++ [t']) s')
    {r : S} (hstop : ∀ s todo, Inv pre s →
      body (s, (t :: todo).map conc) = .ok (.stop (r, todo.map conc)))
    {s : S} (hs : Inv [] s) :
    ∃ todo, Settles (fun fuel => whileLoop cond body fuel (s, q.map conc)) (.ok (r, todo)) := by
  obtain ⟨p, hpre, hrest⟩ := h.split
  obtain ⟨q', rfl⟩ := hrest.head
  obtain ⟨s', hs', hrun⟩ := whileLoop_pops hcond hbody hpre [] [] s (by simp) hs
  refine ⟨q'.map conc, Settles.of_add (1 + pre.length) fun n => ?_⟩
  have hc : cond (s', (t :: q').map conc) = true := hcond s' (conc t) (q'.map conc)
  rw [← Nat.add_assoc, hrun (n + 1), whileLoop_stop hc (hstop s' q' (by simpa using hs'))]

end Worklist
end Btide
