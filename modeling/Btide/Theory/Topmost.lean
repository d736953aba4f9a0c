import Mathlib.Data.Finset.Card
import Btide.Theory.LevelOrder

/-!
# `Theory.Topmost` — the topmost marked nodes of a perfect tree

Mark some of the nodes of a perfect tree. A traversal that stops descending at marked nodes reports the
*topmost* ones: marked, with no marked proper ancestor. They form an antichain, so there are at most as
many as leaves (`topmost_length_le`), and every marked node lies below exactly one of them.

If moreover a node is marked exactly when all leaves below it are (`Hereditary`), the topmost nodes are a
cover of the marked leaves, and the smallest one (`Hereditary.topmost_minimal`): every set of nodes with
exactly the marked leaves beneath it maps onto them, each node to the topmost node above it.
-/

namespace Btide
namespace LevelOrder

variable {k n t u v : Nat} {M : Nat → Prop}

/-- No proper ancestor of `n` is marked. -/
def Clear (M : Nat → Prop) (n : Nat) : Prop := ∀ v, Above v n → v ≠ n → ¬ M v

/-- `n` is marked and no proper ancestor is. -/
def Topmost (M : Nat → Prop) (n : Nat) : Prop := M n ∧ Clear M n

theorem clear_iff_bounded : Clear M n ↔ ∀ v < n, Above v n → ¬ M v := by
  constructor
  · intro h v hv ha
    exact h v ha (by omega)
  · intro h v ha hne
    exact h v (Nat.lt_of_le_of_ne ha.le hne) ha

instance [DecidablePred M] (n : Nat) : Decidable (Clear M n) := decidable_of_iff _ clear_iff_bounded.symm

instance [DecidablePred M] (n : Nat) : Decidable (Topmost M n) := inferInstanceAs (Decidable (_ ∧ _))

theorem clear_root : Clear M 1 := by
  intro v hv hne
  have h₁ := hv.1
  have h₂ := hv.le
  omega

/-- A child is clear when its parent is clear and not marked. -/
theorem clear_child_iff {b : Nat} (hb : b < 2) (hn : 1 ≤ n) :
    Clear M (2 * n + b) ↔ Clear M n ∧ ¬ M n := by
  constructor
  · intro h
    refine ⟨fun v hv _ => ?_, ?_⟩
    · exact h v (hv.child hb) (by have := hv.le; omega)
    · exact h n ((Above.refl hn).child hb) (by omega)
  · rintro ⟨hc, hm⟩ v hv hne
    rcases (above_child_iff hb hv.1).mp hv with he | ha
    · exact absurd he hne
    · by_cases hvn : v = n
      · exact hvn ▸ hm
      · exact hc v ha hvn

/-- A marked node lies below a topmost one. -/
theorem exists_topmost (hn : 1 ≤ n) (hm : M n) : ∃ t, Topmost M t ∧ Above t n := by
  induction n using Nat.strong_induction_on with
  | h n ih =>
      by_cases hc : Clear M n
      · exact ⟨n, ⟨hm, hc⟩, Above.refl hn⟩
      · rw [clear_iff_bounded] at hc
        push Not at hc
        obtain ⟨v, hvn, hv, hmv⟩ := hc
        obtain ⟨t, ht, htv⟩ := ih v hvn hv.1 hmv
        exact ⟨t, ht, htv.trans hv⟩

/-- Comparable topmost nodes are equal. -/
theorem Topmost.eq_of_above (hu : Topmost M u) (hv : Topmost M v) (h : Above u v) : u = v := by
  by_contra hne
  exact hv.2 u h hne hu.1

/-- The topmost node above a given node is unique. -/
theorem Topmost.unique (hu : Topmost M u) (hv : Topmost M v) (hun : Above u n) (hvn : Above v n) :
    u = v := by
  rcases hun.total hvn with h | h
  · exact hu.eq_of_above hv h
  · exact (hv.eq_of_above hu h).symm

/-! ## The list of topmost nodes -/

section TopmostList

variable [DecidablePred M]

/-- The topmost nodes in level order. -/
def topmost (k : Nat) (M : Nat → Prop) [DecidablePred M] : List Nat :=
  (List.range' 1 (2 ^ (k + 1) - 1)).filter fun n => Topmost M n

theorem mem_topmost : n ∈ topmost k M ↔ IsNode k n ∧ Topmost M n := by
  simp only [topmost, List.mem_filter, List.mem_range'_1, decide_eq_true_eq, IsNode]
  constructor
  · rintro ⟨⟨h₁, h₂⟩, h₃⟩
    exact ⟨⟨h₁, by omega⟩, h₃⟩
  · rintro ⟨⟨h₁, h₂⟩, h₃⟩
    exact ⟨⟨h₁, by omega⟩, h₃⟩

theorem topmost_sorted : (topmost k M).Pairwise (· < ·) :=
  List.Pairwise.filter _ List.pairwise_lt_range'

theorem topmost_nodup : (topmost k M).Nodup := topmost_sorted.imp fun h => Nat.ne_of_lt h

/-- The traversal that stops at marked nodes visits the clear nodes. -/
theorem pops_clear (k : Nat) (M : Nat → Prop) [DecidablePred M] :
    Pops (kids k fun n => ¬ M n) [1]
      ((List.range' 1 (2 ^ (k + 1) - 1)).filter fun n => Clear M n) [] := by
  refine pops_filter isNode_root clear_root (fun n h₁ h₂ => by omega) ?_
  intro n hn _ b hb
  exact clear_child_iff hb hn

/-- Among the visited nodes the marked ones are the topmost ones. -/
theorem filter_clear_marked (k : Nat) (M : Nat → Prop) [DecidablePred M] :
    (((List.range' 1 (2 ^ (k + 1) - 1)).filter fun n => Clear M n).filter fun n => M n)
      = topmost k M := by
  rw [List.filter_filter, topmost]
  refine List.filter_congr fun n _ => ?_
  rw [← Bool.decide_and]
  rfl

/-- **An antichain has at most as many nodes as the tree has leaves**: the leftmost leaves below two
    topmost nodes differ. -/
theorem topmost_length_le : (topmost k M).length ≤ 2 ^ k := by
  have hpow := Nat.pow_succ 2 k
  have hnodup : ((topmost k M).map (firstLeaf k)).Nodup := by
    refine topmost_nodup.map_on fun u hu v hv he => ?_
    obtain ⟨hun, hut⟩ := mem_topmost.mp hu
    obtain ⟨hvn, hvt⟩ := mem_topmost.mp hv
    exact hut.unique hvt (above_firstLeaf hun) (he ▸ above_firstLeaf hvn)
  have hsub : (topmost k M).map (firstLeaf k) ⊆ List.range' (2 ^ k) (2 ^ k) := by
    intro l hl
    obtain ⟨u, hu, rfl⟩ := List.mem_map.mp hl
    have hleaf := firstLeaf_isLeaf (mem_topmost.mp hu).1
    rw [List.mem_range'_1]
    exact ⟨hleaf.1, by have := hleaf.2; omega⟩
  have hlen := (hnodup.subperm hsub).length_le
  rwa [List.length_map, List.length_range'] at hlen

/-- There is exactly one topmost node when one marked node is above all marked nodes. -/
theorem topmost_length_eq_one_iff :
    (topmost k M).length = 1 ↔
      ∃ v, IsNode k v ∧ M v ∧ ∀ w, IsNode k w → M w → Above v w := by
  constructor
  · intro h
    obtain ⟨v, hv⟩ := List.length_eq_one_iff.mp h
    have hmem : v ∈ topmost k M := by simp [hv]
    obtain ⟨hvn, hvt⟩ := mem_topmost.mp hmem
    refine ⟨v, hvn, hvt.1, fun w hw hmw => ?_⟩
    obtain ⟨t, ht, htw⟩ := exists_topmost hw.1 hmw
    have htn : IsNode k t := ⟨htw.1, Nat.lt_of_le_of_lt htw.le hw.2⟩
    have htv : t ∈ topmost k M := mem_topmost.mpr ⟨htn, ht⟩
    rw [hv, List.mem_singleton] at htv
    exact htv ▸ htw
  · rintro ⟨v, hvn, hmv, hall⟩
    have hclear : Clear M v := by
      intro u hu hne hmu
      have hun : IsNode k u := ⟨hu.1, Nat.lt_of_le_of_lt hu.le hvn.2⟩
      exact hne (hu.antisymm (hall u hun hmu))
    have hperm : (topmost k M).Perm [v] := by
      rw [List.perm_ext_iff_of_nodup topmost_nodup (List.nodup_singleton v)]
      intro t
      rw [mem_topmost, List.mem_singleton]
      constructor
      · rintro ⟨htn, ht⟩
        have hvt : Topmost M v := ⟨hmv, hclear⟩
        exact (hvt.eq_of_above ht (hall t htn ht.1)).symm
      · rintro rfl
        exact ⟨hvn, hmv, hclear⟩
    simpa using hperm.length_eq

end TopmostList

/-! ## Marks determined by the leaves -/

/-- A node is marked exactly when all leaves below it are. -/
def Hereditary (k : Nat) (M : Nat → Prop) : Prop :=
  ∀ n, IsNode k n → (M n ↔ ∀ l, IsLeaf k l → Above n l → M l)

/-- It is enough to know this one level at a time. -/
theorem hereditary_of_children
    (h : ∀ n, IsInner k n → (M n ↔ M (2 * n) ∧ M (2 * n + 1))) : Hereditary k M := by
  have key : ∀ d n, IsNode k n → n + d = 2 ^ (k + 1) →
      (M n ↔ ∀ l, IsLeaf k l → Above n l → M l) := by
    intro d
    -- induction from the leaves upwards: a child has a larger number than its parent
    induction d using Nat.strong_induction_on with
    | h d ih =>
        intro n hn hd
        rcases hn.inner_or_leaf with hin | hleaf
        · have hl := hin.left
          have hr := hin.right
          have h1 := hn.1
          have h2 := hn.2
          have ihl := ih (2 ^ (k + 1) - 2 * n) (by omega) (2 * n) hl (by have := hl.2; omega)
          have ihr := ih (2 ^ (k + 1) - (2 * n + 1)) (by omega) (2 * n + 1) hr
            (by have := hr.2; omega)
          rw [h n hin, ihl, ihr]
          constructor
          · rintro ⟨hL, hR⟩ l hll ha
            rcases ha.cases_child with rfl | ha | ha
            · exact absurd hll hin.not_isLeaf
            · exact hL l hll ha
            · exact hR l hll ha
          · intro hall
            refine ⟨fun l hll ha => hall l hll ?_, fun l hll ha => hall l hll ?_⟩
            · exact ((Above.refl h1).child (by omega : 0 < 2)).trans ha
            · exact ((Above.refl h1).child (by omega : 1 < 2)).trans ha
        · constructor
          · intro hm l hll ha
            have hpow := Nat.pow_succ 2 k
            obtain ⟨_, i, hi⟩ := ha
            cases i with
            | zero =>
                rw [Nat.pow_zero, Nat.div_one] at hi
                exact hi ▸ hm
            | succ i =>
                have hle : l / 2 ^ (i + 1) ≤ l / 2 := by
                  rw [Nat.pow_succ', ← Nat.div_div_eq_div_mul]
                  exact Nat.div_le_self _ _
                have h1 := hleaf.1
                have h2 := hll.2
                omega
          · intro hall
            exact hall n hleaf (Above.refl hn.1)
  intro n hn
  exact key (2 ^ (k + 1) - n) n hn (by have := hn.2; omega)

/-- The marked leaves are those below a topmost node. -/
theorem Hereditary.marked_iff [DecidablePred M] (h : Hereditary k M) {l : Nat} (hl : IsLeaf k l) :
    M l ↔ ∃ t ∈ topmost k M, Above t l := by
  constructor
  · intro hm
    obtain ⟨t, ht, ha⟩ := exists_topmost hl.isNode.1 hm
    exact ⟨t, mem_topmost.mpr ⟨⟨ha.1, Nat.lt_of_le_of_lt ha.le hl.2⟩, ht⟩, ha⟩
  · rintro ⟨t, ht, ha⟩
    obtain ⟨htn, htt⟩ := mem_topmost.mp ht
    exact (h t htn).mp htt.1 l hl ha

/-- **The topmost nodes are a smallest cover.** No set of nodes with exactly the marked leaves beneath it
    has fewer elements. -/
theorem Hereditary.topmost_minimal [DecidablePred M] (h : Hereditary k M) (S : Finset Nat)
    (hS : ∀ s ∈ S, IsNode k s)
    (hcover : ∀ l, IsLeaf k l → (M l ↔ ∃ s ∈ S, Above s l)) :
    (topmost k M).length ≤ S.card := by
  have hmarked : ∀ s ∈ S, M s := by
    intro s hs
    refine (h s (hS s hs)).mpr fun l hl ha => ?_
    exact (hcover l hl).mpr ⟨s, hs, ha⟩
  have hsurj : ∀ t ∈ (topmost k M).toFinset, ∃ s ∈ S, Above t s := by
    intro t ht
    obtain ⟨htn, htt⟩ := mem_topmost.mp (List.mem_toFinset.mp ht)
    have hl := firstLeaf_isLeaf htn
    have hml : M (firstLeaf k t) := (h t htn).mp htt.1 _ hl (above_firstLeaf htn)
    obtain ⟨s, hs, hsl⟩ := (hcover _ hl).mp hml
    obtain ⟨u, hu, hus⟩ := exists_topmost (hS s hs).1 (hmarked s hs)
    have hut : u = t := hu.unique htt (hus.trans hsl) (above_firstLeaf htn)
    exact ⟨s, hs, hut ▸ hus⟩
  choose f hfS hfA using hsurj
  rw [← List.toFinset_card_of_nodup topmost_nodup]
  refine Finset.card_le_card_of_injOn (fun t => if ht : t ∈ (topmost k M).toFinset then f t ht else 0)
    ?_ ?_
  · intro t ht
    rw [Finset.mem_coe] at ht
    simp only [dif_pos ht]
    exact hfS t ht
  · intro t ht u hu he
    rw [Finset.mem_coe] at ht hu
    simp only [dif_pos ht, dif_pos hu] at he
    have htt := (mem_topmost.mp (List.mem_toFinset.mp ht)).2
    have huu := (mem_topmost.mp (List.mem_toFinset.mp hu)).2
    exact htt.unique huu (hfA t ht) (he ▸ hfA u hu)

end LevelOrder
end Btide
