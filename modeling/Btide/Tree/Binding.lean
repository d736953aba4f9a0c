import Btide.Tree.Match

/-!
# `Tree.Binding` — the root hash binds the chunk hashes

Two runs of `recursiveTree` that compute the same root hash were given the same chunk hashes, or they
have hashed two different strings to the same digest. No assumption about collisions is made: a collision
is one of the two possible conclusions, and both strings are in the logs of the two runs.
-/

namespace Btide

open LevelOrder

section Binding

variable {k : Nat} {xs ys : List Str}

theorem Grown.computedAt {m m' : Mem} {root : Nat} {node : Nat → Nat} {comp : Nat → Str} {n : Nat}
    (hg : Grown k comp m m' 1 root none node) (hn : IsNode k n) :
    m'.computedAt root n = some (comp n) := by
  obtain ⟨nd, hnd, hb⟩ := hg.built n hn (above_root hn.1)
  rw [hg.linked.computedAt hn hnd, hb.computed]

/-- The concatenations hashed for the inner nodes are among the logged strings. -/
theorem Grown.inputs_logged {m m' : Mem} {root : Nat} {node : Nat → Nat}
    (hg : Grown k (computed k xs) m m' 1 root none node) (hxs : 2 ^ k ≤ xs.length)
    (h64 : ∀ x ∈ xs, x.length = 64) :
    ∃ log, m'.hashed = m.hashed ++ log ∧
      ∀ x ∈ inputs (· ++ ·) k (computed k xs), x ∈ log ∧ x.length = 128 := by
  obtain ⟨log, hlog, hmem⟩ := hg.hashed
  refine ⟨log, hlog, ?_⟩
  rintro x ⟨n, hn, rfl⟩
  have hl := computed_length hxs h64 hn.left
  have hr := computed_length hxs h64 hn.right
  refine ⟨(hmem _).mpr ⟨n, hn, above_root hn.1, (combine_eq_append hl hr).symm⟩, ?_⟩
  rw [List.length_append, hl, hr]

/-- Chunk hashes of 64 characters can be read off the leaves. -/
theorem eq_of_computed_leaves (hxs : xs.length = 2 ^ k) (hys : ys.length = 2 ^ k)
    (hx64 : ∀ x ∈ xs, x.length = 64) (hy64 : ∀ y ∈ ys, y.length = 64)
    (h : ∀ n, IsLeaf k n → computed k xs n = computed k ys n) : xs = ys := by
  refine List.ext_getElem (hxs.trans hys.symm) fun i hi hi' => ?_
  have hpow := Nat.pow_succ 2 k
  have hleaf : IsLeaf k (2 ^ k + i) := ⟨Nat.le_add_right _ _, by omega⟩
  have he := h _ hleaf
  have hx : (xs[i]).length = 64 := hx64 _ (List.getElem_mem hi)
  have hy : (ys[i]).length = 64 := hy64 _ (List.getElem_mem hi')
  rwa [computed_leaf hleaf, computed_leaf hleaf, leafHash, leafHash, Nat.add_sub_cancel_left,
    List.getD_eq_getElem _ _ hi, List.getD_eq_getElem _ _ hi', List.take_of_length_le (Nat.le_of_eq hx),
    List.take_of_length_le (Nat.le_of_eq hy)] at he

/-- **Root binding.** Equal roots mean equal chunk hashes, or a collision among the strings hashed in the
    two builds. -/
theorem recursiveTree_binding (hk : 1 ≤ k) (hxs : xs.length = 2 ^ k) (hys : ys.length = 2 ^ k)
    (hx64 : ∀ x ∈ xs, x.length = 64) (hy64 : ∀ y ∈ ys, y.length = 64) {m₁ m₂ m₁' m₂' : Mem}
    (hrun₁ : Settles (fun fuel => recursiveTree fuel (initialiseTree m₁).2 (k + 1) 1
      (some (initialiseTree m₁).1) 0 (some xs)) (.ok m₁'))
    (hrun₂ : Settles (fun fuel => recursiveTree fuel (initialiseTree m₂).2 (k + 1) 1
      (some (initialiseTree m₂).1) 0 (some ys)) (.ok m₂'))
    (hroot : m₁'.computedAt (initialiseTree m₁).1 1 = m₂'.computedAt (initialiseTree m₂).1 1) :
    ∃ log₁ log₂, m₁'.hashed = m₁.hashed ++ log₁ ∧ m₂'.hashed = m₂.hashed ++ log₂ ∧
      (xs = ys ∨ ∃ x ∈ log₁ ++ log₂, ∃ y ∈ log₁ ++ log₂, x.length = 128 ∧ y.length = 128 ∧ x ≠ y ∧
        Fips180.sha256Hex x = Fips180.sha256Hex y) := by
  -- a build that returns has built the tree, because its positions stayed within `int`
  have hk31 : k ≤ 31 := by
    obtain ⟨fuel, hfuel⟩ := hrun₁
    exact height_le_of_ok (hfuel fuel (Nat.le_refl fuel))
  obtain ⟨n₁, node₁, hg₁, hs₁⟩ := recursiveTree_root m₁ hk hk31 (Nat.le_of_eq hxs.symm)
  obtain ⟨n₂, node₂, hg₂, hs₂⟩ := recursiveTree_root m₂ hk hk31 (Nat.le_of_eq hys.symm)
  obtain rfl : m₁' = n₁ := Except.ok.inj (hrun₁.unique hs₁)
  obtain rfl : m₂' = n₂ := Except.ok.inj (hrun₂.unique hs₂)
  obtain ⟨log₁, hlog₁, hin₁⟩ := hg₁.inputs_logged (Nat.le_of_eq hxs.symm) hx64
  obtain ⟨log₂, hlog₂, hin₂⟩ := hg₂.inputs_logged (Nat.le_of_eq hys.symm) hy64
  refine ⟨log₁, log₂, hlog₁, hlog₂, ?_⟩
  have he : computed k xs 1 = computed k ys 1 := by
    have h₁ : m₁'.computedAt (initialiseTree m₁).1 1 = some (computed k xs 1) :=
      hg₁.computedAt isNode_root
    have h₂ : m₂'.computedAt (initialiseTree m₂).1 1 = some (computed k ys 1) :=
      hg₂.computedAt isNode_root
    exact Option.some.inj (h₁.symm.trans (hroot.trans h₂))
  have hlogged : ∀ x ∈ inputs (· ++ ·) k (computed k xs) ∪ inputs (· ++ ·) k (computed k ys),
      x ∈ log₁ ++ log₂ ∧ x.length = 128 := by
    rintro x (hx | hx)
    · exact ⟨List.mem_append_left _ (hin₁ x hx).1, (hin₁ x hx).2⟩
    · exact ⟨List.mem_append_right _ (hin₂ x hx).1, (hin₂ x hx).2⟩
  by_cases hinj : Set.InjOn Fips180.sha256Hex
      (inputs (· ++ ·) k (computed k xs) ∪ inputs (· ++ ·) k (computed k ys))
  · -- no collision: the labels agree down to the leaves
    refine Or.inl (eq_of_computed_leaves hxs hys hx64 hy64 fun n hn => ?_)
    exact (computed_labels_append (Nat.le_of_eq hxs.symm) hx64).eq_leaves
      (computed_labels_append (Nat.le_of_eq hys.symm) hy64) pairsApart_append
      (fun n hn => computed_length (Nat.le_of_eq hxs.symm) hx64 hn)
      (fun n hn => computed_length (Nat.le_of_eq hys.symm) hy64 hn) hinj he hn
  · rw [Set.InjOn] at hinj
    push Not at hinj
    obtain ⟨x, hx, y, hy, hxy, hne⟩ := hinj
    exact Or.inr ⟨x, (hlogged x hx).1, y, (hlogged y hy).1, (hlogged x hx).2, (hlogged y hy).2, hne, hxy⟩

end Binding

/-- Two builds over the chunk hashes `aa…a` and `bb…b`. -/
theorem recursiveTree_binding_two :
    ∃ m' : Mem, Settles (fun fuel => recursiveTree fuel (initialiseTree Mem.empty).2 (1 + 1) 1
        (some (initialiseTree Mem.empty).1) 0 (some [List.replicate 64 97, List.replicate 64 98]))
        (.ok m') ∧
      ∃ log₁ log₂, m'.hashed = Mem.empty.hashed ++ log₁ ∧ m'.hashed = Mem.empty.hashed ++ log₂ ∧
        (([List.replicate 64 97, List.replicate 64 98] : List Str)
            = [List.replicate 64 97, List.replicate 64 98] ∨
          ∃ x ∈ log₁ ++ log₂, ∃ y ∈ log₁ ++ log₂, x.length = 128 ∧ y.length = 128 ∧ x ≠ y ∧
            Fips180.sha256Hex x = Fips180.sha256Hex y) := by
  have h64 : ∀ x ∈ ([List.replicate 64 97, List.replicate 64 98] : List Str), x.length = 64 := by
    decide
  obtain ⟨m', _, _, hrun⟩ := @recursiveTree_root 1
    ([List.replicate 64 97, List.replicate 64 98] : List Str) Mem.empty (by decide) (by decide)
    (by decide)
  exact ⟨m', hrun, recursiveTree_binding (by decide) (by decide) (by decide) h64 h64 hrun hrun rfl⟩

end Btide
