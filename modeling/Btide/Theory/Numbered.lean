import Mathlib.Data.List.Nodup
import Btide.Theory.LevelOrder
import Btide.Theory.Traversal

/-!
# `Theory.Numbered` — perfect trees as values

`numbered node d n` is the perfect tree of height `d` that carries `node n` at its root and below it, in
each direction, what the numbers of `Theory.LevelOrder` carry. Its depths are intervals of numbers
(`atDepth_numbered`), so the two notions of level order agree (`levelOrder_numbered`): what is known about
the traversal of any tree applies to the numbered ones.
-/

namespace Btide
namespace Traversal

open LevelOrder

variable {ι : Type*} {node : Nat → ι} {d i k n : Nat}

def numbered (node : Nat → ι) : Nat → Nat → BinaryTree ι
  | 0, n => .node (node n) .nil .nil
  | d + 1, n => .node (node n) (numbered node d (2 * n)) (numbered node d (2 * n + 1))

theorem root?_numbered : root? (numbered node d n) = some (node n) := by
  cases d <;> rfl

theorem height_numbered : (numbered node d n).height = d + 1 := by
  induction d generalizing n with
  | zero => rfl
  | succ d ih => rw [numbered, BinaryTree.height, ih, ih, Nat.max_self]

/-- A depth is an interval. -/
theorem atDepth_numbered (h : i ≤ d) :
    atDepth i (numbered node d n) = (List.range' (n * 2 ^ i) (2 ^ i)).map node := by
  induction i generalizing d n with
  | zero =>
      rw [atDepth_zero, root?_numbered, Nat.pow_zero, Nat.mul_one]
      rfl
  | succ i ih =>
      obtain ⟨d, rfl⟩ := Nat.exists_eq_succ_of_ne_zero (by omega : d ≠ 0)
      have hpow := Nat.pow_succ 2 i
      have hstart : n * 2 ^ (i + 1) = 2 * n * 2 ^ i := by rw [hpow, Nat.mul_comm 2 n, Nat.mul_assoc,
        Nat.mul_comm 2]
      have hmid : (2 * n + 1) * 2 ^ i = 2 * n * 2 ^ i + 2 ^ i := by rw [Nat.add_mul, Nat.one_mul]
      rw [numbered, atDepth, ih (by omega), ih (by omega), ← List.map_append, hmid,
        List.range'_append_1, hstart, hpow, Nat.mul_two]

/-- **The two level orders agree.** -/
theorem levelOrder_numbered (node : Nat → ι) (k : Nat) :
    levelOrder (numbered node k 1) = (List.range' 1 (2 ^ (k + 1) - 1)).map node := by
  have hdepths : ∀ j, j ≤ k + 1 → (List.range j).flatMap (fun d => atDepth d (numbered node k 1))
      = (List.range' 1 (2 ^ j - 1)).map node := by
    intro j
    induction j with
    | zero => intro _; rfl
    | succ j ih =>
        intro hj
        have hpow := Nat.pow_succ 2 j
        have hpos := Nat.two_pow_pos j
        have hlen : 2 ^ (j + 1) - 1 = (2 ^ j - 1) + 2 ^ j := by omega
        have hstart : 1 + (2 ^ j - 1) = 2 ^ j := by omega
        rw [List.range_succ, List.flatMap_append, ih (by omega), List.flatMap_singleton,
          atDepth_numbered (by omega), Nat.one_mul, ← List.map_append, hlen, ← List.range'_append_1,
          hstart]
  rw [levelOrder, height_numbered]
  exact hdepths (k + 1) (Nat.le_refl _)

theorem mem_numbered {a : ι} : a ∈ nodes (numbered node k 1) ↔ ∃ w, IsNode k w ∧ node w = a := by
  rw [← mem_levelOrder, levelOrder_numbered, List.mem_map]
  refine exists_congr fun w => and_congr_left fun _ => ?_
  rw [List.mem_range'_1, IsNode]
  omega

theorem nodup_numbered (h : ∀ v w, IsNode k v → IsNode k w → node v = node w → v = w) :
    (nodes (numbered node k 1)).Nodup := by
  rw [← (levelOrder_perm _).nodup_iff, levelOrder_numbered]
  refine List.Nodup.map_on (fun v hv w hw he => ?_) List.nodup_range'
  rw [List.mem_range'_1] at hv hw
  exact h v w ⟨hv.1, by omega⟩ ⟨hw.1, by omega⟩ he

end Traversal
end Btide
