import Btide.Theory.Topmost

/-!
# `Theory.Missing` — the topmost nodes when leaves are missing

A hereditary marking of a perfect tree of height `k` from which `d` leaves are missing. If none is, the
root is the only topmost node. Otherwise every topmost node is the sibling of a node on the way from the
root to a missing leaf (`Hereditary.exists_missing`), so there are at most `d * k` of them, and exactly
`k`, one on each level below the root, for a single missing leaf (`Hereditary.topmost_length_of_single`).
A single topmost node need not be the root: there is one whenever the leaves that are left are those below
some node (`Hereditary.topmost_length_eq_one_iff`).
-/

namespace Btide
namespace LevelOrder

variable {k n l : Nat} {M : Nat → Prop}

/-! ## Siblings -/

/-- The other child of the parent. -/
def sibling (n : Nat) : Nat := n + 1 - 2 * (n % 2)

theorem sibling_sibling (n : Nat) : sibling (sibling n) = n := by
  unfold sibling
  omega

theorem sibling_injective : Function.Injective sibling := by
  intro m n h
  rw [← sibling_sibling m, h, sibling_sibling]

/-- A node that is not the root is a child of an inner node, and so is its sibling. -/
theorem IsNode.exists_parent (hn : IsNode k n) (hroot : n ≠ 1) :
    ∃ p b, IsInner k p ∧ b < 2 ∧ n = 2 * p + b ∧ sibling n = 2 * p + (1 - b) := by
  have hpow := Nat.pow_succ 2 k
  have hlo := hn.1
  have hhi := hn.2
  refine ⟨n / 2, n % 2, ⟨by omega, by omega⟩, by omega, by omega, ?_⟩
  unfold sibling
  omega

/-- A node and its sibling have no leaf in common. -/
theorem not_above_sibling (h : Above n l) (h' : Above (sibling n) l) : False := by
  rcases Nat.mod_two_eq_zero_or_one n with heven | hodd
  · have hn : n = 2 * (n / 2) := by omega
    have hs : sibling n = 2 * (n / 2) + 1 := by unfold sibling; omega
    rw [hn] at h
    rw [hs] at h'
    exact not_above_both h h'
  · have hn : n = 2 * (n / 2) + 1 := by omega
    have hs : sibling n = 2 * (n / 2) := by unfold sibling; omega
    rw [hn] at h
    rw [hs] at h'
    exact not_above_both h' h

/-- A node above all leaves below `n` is above `n`. -/
theorem above_of_leaves {v : Nat} (hn : IsNode k n)
    (h : ∀ l, IsLeaf k l → Above n l → Above v l) : Above v n := by
  have hfirst := h _ (firstLeaf_isLeaf hn) (above_firstLeaf hn)
  rcases hfirst.total (above_firstLeaf hn) with ha | ha
  · exact ha
  · -- were it below a child of `n`, the leaves below the other child would not be below it
    have hlt : v < 2 ^ (k + 1) := Nat.lt_of_le_of_lt hfirst.le (firstLeaf_isLeaf hn).2
    have hother : ∀ b, b < 2 → IsInner k n → Above v (firstLeaf k (2 * n + b)) := by
      intro b hb hin
      have hchild := hin.child hb
      exact h _ (firstLeaf_isLeaf hchild)
        (((Above.refl hn.1).child hb).trans (above_firstLeaf hchild))
    rcases ha.cases_child with rfl | hleft | hright
    · exact Above.refl hn.1
    · have hle := hleft.le
      have hin : IsInner k n := ⟨hn.1, by have hpow := Nat.pow_succ 2 k; omega⟩
      exact (not_above_both (hleft.trans (hother 1 (by omega) hin)) (above_firstLeaf hin.right)).elim
    · have hle := hright.le
      have hin : IsInner k n := ⟨hn.1, by have hpow := Nat.pow_succ 2 k; omega⟩
      exact (not_above_both (above_firstLeaf hin.left) (hright.trans (hother 0 (by omega) hin))).elim

/-! ## The way to a leaf -/

section Way

variable (hl : IsLeaf k l)

include hl

/-- Below the root, `i` levels above the leaf. -/
theorem IsLeaf.two_le_div {i : Nat} (hi : i < k) : 2 ≤ l / 2 ^ i := by
  rw [Nat.le_div_iff_mul_le (Nat.two_pow_pos i)]
  have hlo := hl.1
  have hle := Nat.pow_le_pow_right (n := 2) (by omega) (by omega : i + 1 ≤ k)
  rw [Nat.pow_succ] at hle
  omega

theorem IsLeaf.lt_of_two_le_div {i : Nat} (h : 2 ≤ l / 2 ^ i) : i < k := by
  by_contra hge
  rw [Nat.le_div_iff_mul_le (Nat.two_pow_pos i)] at h
  have hhi := hl.2
  have hle := Nat.pow_le_pow_right (n := 2) (by omega) (by omega : k ≤ i)
  rw [Nat.pow_succ] at hhi
  omega

theorem IsLeaf.div_isNode {i : Nat} (hi : i < k) : IsNode k (l / 2 ^ i) := by
  have hlo := hl.two_le_div hi
  exact ⟨by omega, Nat.lt_of_le_of_lt (Nat.div_le_self _ _) hl.2⟩

/-- The nodes on the way are on different levels. -/
theorem IsLeaf.div_ne {i j : Nat} (hij : i < j) (hj : j < k) : l / 2 ^ i ≠ l / 2 ^ j := by
  intro he
  have hpos := hl.two_le_div hj
  have hle : l / 2 ^ j ≤ l / 2 ^ (i + 1) :=
    Nat.div_le_div_left (Nat.pow_le_pow_right (by omega) hij) (Nat.two_pow_pos _)
  rw [Nat.pow_succ, ← Nat.div_div_eq_div_mul] at hle
  omega

end Way

/-! ## Missing leaves -/

/-- The leaves that are not marked, from left to right. -/
def missing (k : Nat) (M : Nat → Prop) [DecidablePred M] : List Nat :=
  (List.range' (2 ^ k) (2 ^ k)).filter fun n => ¬ M n

section Missing

variable [DecidablePred M]

theorem mem_missing : n ∈ missing k M ↔ IsLeaf k n ∧ ¬ M n := by
  have hpow := Nat.pow_succ 2 k
  rw [missing, List.mem_filter, List.mem_range'_1, decide_eq_true_eq, IsLeaf]
  constructor
  · rintro ⟨⟨h₁, h₂⟩, h₃⟩
    exact ⟨⟨h₁, by omega⟩, h₃⟩
  · rintro ⟨⟨h₁, h₂⟩, h₃⟩
    exact ⟨⟨h₁, by omega⟩, h₃⟩

/-- Without the missing leaves there are the marked ones. -/
theorem marked_add_missing (k : Nat) (M : Nat → Prop) [DecidablePred M] :
    ((List.range' (2 ^ k) (2 ^ k)).filter fun n => M n).length + (missing k M).length = 2 ^ k := by
  have hsplit := @List.length_eq_length_filter_add _ (List.range' (2 ^ k) (2 ^ k)) fun n => decide (M n)
  rw [List.length_range'] at hsplit
  simp only [missing, decide_not]
  exact hsplit.symm

namespace Hereditary

variable (h : Hereditary k M)

include h

/-- A node is unmarked just if a missing leaf is below it. -/
theorem not_marked_iff (hn : IsNode k n) : ¬ M n ↔ ∃ l ∈ missing k M, Above n l := by
  rw [h n hn]
  push Not
  constructor
  · rintro ⟨l, hl, ha, hm⟩
    exact ⟨l, mem_missing.mpr ⟨hl, hm⟩, ha⟩
  · rintro ⟨l, hl, ha⟩
    obtain ⟨hleaf, hm⟩ := mem_missing.mp hl
    exact ⟨l, hleaf, ha, hm⟩

/-- A topmost node that is not the root is the sibling of a node on the way to a missing leaf. -/
theorem exists_missing (ht : n ∈ topmost k M) (hroot : n ≠ 1) :
    ∃ l ∈ missing k M, ∃ i < k, sibling (l / 2 ^ i) = n := by
  obtain ⟨hn, hm, hclear⟩ := mem_topmost.mp ht
  obtain ⟨p, b, hp, hb, hnb, hsib⟩ := hn.exists_parent hroot
  have hlo := hp.1
  -- the parent is not marked, so a leaf below it is missing
  have hparent : ¬ M p := by
    refine hclear p ?_ (by omega)
    rw [hnb]
    exact (Above.refl hlo).child hb
  obtain ⟨l, hl, ha⟩ := (h.not_marked_iff hp.isNode).mp hparent
  obtain ⟨hleaf, hml⟩ := mem_missing.mp hl
  -- and it is not below the node itself
  have hnot : ¬ Above n l := fun ha' => hml ((h n hn).mp hm l hleaf ha')
  have hsibling : Above (sibling n) l := by
    rw [hsib]
    rcases ha.cases_child with rfl | hleft | hright
    · exact absurd hleaf hp.not_isLeaf
    · have hb1 : b = 1 := by
        by_contra hb1
        have hb0 : b = 0 := by omega
        rw [hnb, hb0] at hnot
        exact hnot hleft
      rwa [hb1]
    · have hb0 : b = 0 := by
        by_contra hb0
        have hb1 : b = 1 := by omega
        rw [hnb, hb1] at hnot
        exact hnot hright
      rwa [hb0]
  obtain ⟨_, i, hi⟩ := hsibling
  refine ⟨l, hl, i, hleaf.lt_of_two_le_div ?_, ?_⟩
  · omega
  · rw [hi, sibling_sibling]

/-- When no leaf is missing, the root is the only topmost node. -/
theorem topmost_length_of_complete (hnone : missing k M = []) : (topmost k M).length = 1 := by
  have hroot : M 1 := by
    by_contra hm
    obtain ⟨l, hl, _⟩ := (h.not_marked_iff isNode_root).mp hm
    rw [hnone] at hl
    cases hl
  exact topmost_length_eq_one_iff.mpr ⟨1, isNode_root, hroot, fun w hw _ => above_root hw.1⟩

/-- **At most `k` nodes for each missing leaf.** -/
theorem topmost_length_le_missing (hsome : missing k M ≠ []) :
    (topmost k M).length ≤ (missing k M).length * k := by
  have hroot : ∀ t ∈ topmost k M, t ≠ 1 := by
    rintro t ht rfl
    obtain ⟨l, hl⟩ := List.exists_mem_of_ne_nil _ hsome
    have hunmarked := (h.not_marked_iff isNode_root).mpr
      ⟨l, hl, above_root (mem_missing.mp hl).1.isNode.1⟩
    exact hunmarked (mem_topmost.mp ht).2.1
  have hsub : topmost k M ⊆
      (missing k M).flatMap fun l => (List.range k).map fun i => sibling (l / 2 ^ i) := by
    intro t ht
    obtain ⟨l, hl, i, hi, he⟩ := h.exists_missing ht (hroot t ht)
    exact List.mem_flatMap.mpr ⟨l, hl, List.mem_map.mpr ⟨i, List.mem_range.mpr hi, he⟩⟩
  have hlen := (topmost_nodup.subperm hsub).length_le
  simpa using hlen

/-- **One node on each level below the root when a single leaf is missing.** -/
theorem topmost_length_of_single (hone : missing k M = [l]) : (topmost k M).length = k := by
  have hmem : ∀ l', l' ∈ missing k M ↔ l' = l := fun l' => by rw [hone, List.mem_singleton]
  obtain ⟨hleaf, hml⟩ := mem_missing.mp ((hmem l).mpr rfl)
  -- the siblings of the nodes on the way to the leaf are topmost
  have hsub : ((List.range k).map fun i => sibling (l / 2 ^ i)) ⊆ topmost k M := by
    intro t ht
    obtain ⟨i, hi, rfl⟩ := List.mem_map.mp ht
    rw [List.mem_range] at hi
    have hnode := hleaf.div_isNode hi
    have habove : Above (l / 2 ^ i) l := ⟨hnode.1, i, rfl⟩
    obtain ⟨p, b, hp, hb, hnb, hsib⟩ := hnode.exists_parent (by have := hleaf.two_le_div hi; omega)
    have hpl : Above p l := by
      refine Above.trans ?_ habove
      rw [hnb]
      exact (Above.refl hp.1).child hb
    have hchild : IsNode k (sibling (l / 2 ^ i)) := by
      rw [hsib]
      exact hp.child (by omega)
    refine mem_topmost.mpr ⟨hchild, ?_, fun v hv hne => ?_⟩
    · by_contra hm
      obtain ⟨l', hl', ha⟩ := (h.not_marked_iff hchild).mp hm
      rw [hmem] at hl'
      exact not_above_sibling habove (hl' ▸ ha)
    · rw [hsib] at hv hne
      have hvp := ((above_child_iff (by omega) hv.1).mp hv).resolve_left hne
      have hvnode : IsNode k v := ⟨hv.1, Nat.lt_of_le_of_lt hvp.le hp.isNode.2⟩
      exact (h.not_marked_iff hvnode).mpr ⟨l, (hmem l).mpr rfl, hvp.trans hpl⟩
  have hnodup : ((List.range k).map fun i => sibling (l / 2 ^ i)).Nodup := by
    refine List.nodup_range.map_on fun i hi j hj he => ?_
    rw [List.mem_range] at hi hj
    have hdiv := sibling_injective he
    rcases Nat.lt_trichotomy i j with hlt | rfl | hgt
    · exact absurd hdiv (hleaf.div_ne hlt hj)
    · rfl
    · exact absurd hdiv.symm (hleaf.div_ne hgt hi)
  have hge := (hnodup.subperm hsub).length_le
  have hle := h.topmost_length_le_missing (by rw [hone]; exact List.cons_ne_nil _ _)
  rw [List.length_map, List.length_range] at hge
  rw [hone, List.length_singleton] at hle
  omega

/-- **There is one topmost node just if the marked leaves are those below one node.** -/
theorem topmost_length_eq_one_iff : (topmost k M).length = 1 ↔
    ∃ v, IsNode k v ∧ ∀ l, IsLeaf k l → (M l ↔ Above v l) := by
  rw [LevelOrder.topmost_length_eq_one_iff]
  constructor
  · rintro ⟨v, hv, hm, hall⟩
    exact ⟨v, hv, fun l hl => ⟨hall l hl.isNode, fun ha => (h v hv).mp hm l hl ha⟩⟩
  · rintro ⟨v, hv, hleaves⟩
    refine ⟨v, hv, (h v hv).mpr fun l hl ha => (hleaves l hl).mpr ha, fun w hw hm => ?_⟩
    -- all leaves below a marked node are marked
    exact above_of_leaves hw fun l hl ha => (hleaves l hl).mp ((h w hw).mp hm l hl ha)

end Hereditary

end Missing

end LevelOrder
end Btide
