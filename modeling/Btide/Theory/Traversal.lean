import Mathlib.Data.List.Perm.Basic
import Mathlib.Data.List.Flatten
import Mathlib.Data.Tree.Basic
import Btide.Base.Loop

/-!
# `Theory.Traversal` — level order of a binary tree

The nodes of a finite binary tree, of any shape, depth by depth and from left to right within a depth.
A worklist that starts with the root and generates, for each node it takes, the node's left and right
child visits the tree in this order and then ends (`pops_levelOrder`): it takes one depth after the
other, and the nodes of one depth generate those of the next (`flatMap_kids`).
-/

namespace Btide
namespace Traversal

variable {ι : Type*} {t l r : BinaryTree ι} {kids : ι → List ι}

/-- The nodes, in preorder. -/
def nodes : BinaryTree ι → List ι
  | .nil => []
  | .node a l r => a :: (nodes l ++ nodes r)

def root? : BinaryTree ι → Option ι
  | .nil => none
  | .node a _ _ => some a

/-- The nodes at a depth, from left to right. -/
def atDepth : Nat → BinaryTree ι → List ι
  | _, .nil => []
  | 0, .node a _ _ => [a]
  | d + 1, .node _ l r => atDepth d l ++ atDepth d r

/-- One depth after the other. -/
def levelOrder (t : BinaryTree ι) : List ι := (List.range t.height).flatMap fun d => atDepth d t

theorem atDepth_nil (d : Nat) : atDepth d (.nil : BinaryTree ι) = [] := by
  cases d <;> rfl

theorem atDepth_zero (t : BinaryTree ι) : atDepth 0 t = (root? t).toList := by
  cases t <;> rfl

/-- Below its height a tree has no nodes. -/
theorem atDepth_height {d : Nat} (h : t.height ≤ d) : atDepth d t = [] := by
  induction t generalizing d with
  | nil => exact atDepth_nil d
  | node a l r ihl ihr =>
      cases d with
      | zero => simp at h
      | succ d =>
          rw [BinaryTree.height, Nat.succ_le_succ_iff, Nat.max_le] at h
          rw [atDepth, ihl h.1, ihr h.2, List.append_nil]

/-- Level order lists each node once. -/
theorem levelOrder_perm (t : BinaryTree ι) : (levelOrder t).Perm (nodes t) := by
  have hall : ∀ {t : BinaryTree ι} {n : Nat}, t.height ≤ n →
      ((List.range n).flatMap fun d => atDepth d t).Perm (nodes t) := by
    intro t
    induction t with
    | nil =>
        intro n _
        simp only [atDepth_nil]
        rw [List.flatMap_eq_nil_iff.mpr fun _ _ => rfl]
        exact .nil
    | node a l r ihl ihr =>
        intro n h
        obtain ⟨n, rfl⟩ := Nat.exists_eq_succ_of_ne_zero (Nat.ne_of_gt (Nat.lt_of_lt_of_le
          (Nat.succ_pos _) h))
        rw [BinaryTree.height, Nat.succ_le_succ_iff, Nat.max_le] at h
        rw [List.range_succ_eq_map, List.flatMap_cons, List.flatMap_map]
        apply List.Perm.cons a
        -- the depths of the two subtrees, interleaved
        apply (List.flatMap_append_perm (List.range n) (atDepth · l) (atDepth · r)).symm.trans
        exact (ihl h.1).append (ihr h.2)
  exact hall (Nat.le_refl _)

theorem length_nodes (t : BinaryTree ι) : (nodes t).length = t.numNodes := by
  induction t with
  | nil => rfl
  | node a l r ihl ihr =>
      rw [nodes, List.length_cons, List.length_append, ihl, ihr]
      rfl

theorem mem_levelOrder {a : ι} : a ∈ levelOrder t ↔ a ∈ nodes t := (levelOrder_perm t).mem_iff

theorem nodup_levelOrder (h : (nodes t).Nodup) : (levelOrder t).Nodup :=
  (levelOrder_perm t).nodup_iff.mpr h

theorem length_levelOrder (t : BinaryTree ι) : (levelOrder t).length = t.numNodes :=
  (levelOrder_perm t).length_eq.trans (length_nodes t)

/-! ## The worklist -/

/-- `kids` are the left and the right child of each node, as far as it has them. -/
def HasKids (kids : ι → List ι) : BinaryTree ι → Prop
  | .nil => True
  | .node a l r => kids a = (root? l).toList ++ (root? r).toList ∧ HasKids kids l ∧ HasKids kids r

/-- One depth generates the next. -/
theorem flatMap_kids (h : HasKids kids t) (d : Nat) :
    (atDepth d t).flatMap kids = atDepth (d + 1) t := by
  induction t generalizing d with
  | nil => rw [atDepth_nil, atDepth_nil, List.flatMap_nil]
  | node a l r ihl ihr =>
      obtain ⟨hkids, hl, hr⟩ := h
      cases d with
      | zero =>
          rw [atDepth, List.flatMap_singleton, hkids, atDepth, atDepth_zero, atDepth_zero]
      | succ d =>
          rw [atDepth, List.flatMap_append, ihl hl, ihr hr]
          rfl

/-- **Level order.** The worklist takes the nodes of the tree in level order and is empty then. -/
theorem pops_levelOrder (h : HasKids kids t) : Pops kids (root? t).toList (levelOrder t) [] := by
  have hrun : ∀ n, Pops kids (root? t).toList ((List.range n).flatMap fun d => atDepth d t)
      (atDepth n t) := by
    intro n
    induction n with
    | zero =>
        rw [atDepth_zero]
        exact .nil
    | succ n ih =>
        have hround := Pops.round kids (atDepth n t) []
        rw [List.append_nil, List.nil_append, flatMap_kids h] at hround
        rw [List.range_succ, List.flatMap_append, List.flatMap_singleton]
        exact ih.append hround
  have hend := hrun t.height
  rwa [atDepth_height (Nat.le_refl _)] at hend

end Traversal
end Btide
