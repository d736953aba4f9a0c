import Btide.Chk.Query

/-!
# `Chk.Collect` — what the tree queries return

On a tree with both hashes on every node (`Labelled`) every query loop follows a worklist run over the
node numbers, and its body emits the nodes that satisfy a predicate. `collect_settles` is the common
argument; the only thing left to each query is to recognise its body (which nodes it expands, which it
emits) and to bound the number of emissions by the size of the result array.
-/

namespace Btide

open LevelOrder

/-! ## Collecting -/

/-- The results taken from the nodes of `vs` that satisfy `P`. -/
def collected (P : Nat → Prop) [DecidablePred P] (node : Nat → Nat) (exp : Nat → Str)
    (vs : List Nat) : BpkgQuery where
  hashes := (vs.filter fun w => P w).map fun w => (exp w).take 64
  nodes := (vs.filter fun w => P w).map fun w => some (node w)

section Collect

variable {k s : Nat} {P expands : Nat → Prop} [DecidablePred P] [DecidablePred expands]
  {node : Nat → Nat} {exp : Nat → Str} {bpkg : BpkgObj}

theorem collected_len (vs : List Nat) :
    (collected P node exp vs).len = (vs.filter fun w => P w).length := List.length_map _

theorem collected_append_pos {pre : List Nat} {t : Nat} (h : P t) :
    collected P node exp (pre ++ [t]) =
      { hashes := (collected P node exp pre).hashes ++ [(exp t).take 64]
        nodes := (collected P node exp pre).nodes ++ [some (node t)] } := by
  simp [collected, List.filter_append, h]

theorem collected_append_neg {pre : List Nat} {t : Nat} (h : ¬ P t) :
    collected P node exp (pre ++ [t]) = collected P node exp pre := by
  simp [collected, List.filter_append, h]

/-- **A traversal that emits the nodes satisfying `P`** returns their expected hashes in the order of the
    visit, if they fit the result array. -/
theorem collect_settles (P : Nat → Prop) [DecidablePred P] (node : Nat → Nat) (exp : Nat → Str)
    (bpkg : BpkgObj) (body : BpkgQuery × List Ptr → Run (Flow (BpkgQuery × List Ptr)))
    {vs : List Nat} (hpops : Pops (kids k expands) [s] vs [])
    (hbody : ∀ t ∈ vs, ∀ qry todo, body (qry, queueOf node (t :: todo))
      = ((if P t then emit bpkg qry (some (node t)) (exp t) else .ok qry) >>= fun qry =>
          .ok (.next (qry, queueOf node (todo ++ kids k expands t)))))
    (hcap : ((vs.filter fun w => P w).length : Int) ≤ bpkg.nchunks.toInt) :
    Settles (fun fuel => queueLoop body fuel (.new, [some (node s)]))
      (.ok (collected P node exp vs, [])) := by
  have hstep : ∀ pre t post qry todo, vs = pre ++ t :: post → qry = collected P node exp pre →
      ∃ qry', body (qry, queueOf node (t :: todo))
          = .ok (.next (qry', queueOf node (todo ++ kids k expands t))) ∧
        qry' = collected P node exp (pre ++ [t]) := by
    rintro pre t post qry todo rfl rfl
    have hmem : t ∈ pre ++ t :: post := by simp
    have hrun := hbody t hmem (collected P node exp pre) todo
    by_cases hP : P t
    · -- the result array has room: `t` itself is one of the nodes to be emitted
      have hroom : ((collected P node exp pre).len : Int) < bpkg.nchunks.toInt := by
        rw [collected_len]
        rw [List.filter_append, List.filter_cons_of_pos (by simpa using hP), List.length_append,
          List.length_cons] at hcap
        omega
      rw [if_pos hP, emit, if_pos hroom] at hrun
      exact ⟨_, hrun, (collected_append_pos hP).symm⟩
    · rw [if_neg hP] at hrun
      exact ⟨_, hrun, (collected_append_neg hP).symm⟩
  obtain ⟨qry, rfl, hrun⟩ := queueLoop_drains hpops hstep rfl
  exact hrun

end Collect

/-! ## The nodes of a tree -/

/-- The computed and the expected hash of a node agree. -/
def Agree (comp exp : Nat → Str) (n : Nat) : Prop := (exp n).take 64 = (comp n).take 64

instance (comp exp : Nat → Str) (n : Nat) : Decidable (Agree comp exp n) :=
  inferInstanceAs (Decidable (_ = _))

section Queries

variable {k root v : Nat} {comp exp : Nat → Str} {m : Mem} {node : Nat → Nat} {bpkg : BpkgObj}

/-- What a query reads at a node. -/
theorem Labelled.read (h : Labelled k comp exp m root node) {n : Nat} (hn : IsNode k n) :
    ∃ nd, m.deref (some (node n)) = .ok nd ∧ nd.expectedHash = some (exp n) ∧
      hashesMatch nd = .ok (strncmpEq 64 (exp n) (comp n)) ∧
      (IsInner k n → nd.left = some (node (2 * n)) ∧ nd.right = some (node (2 * n + 1)) ∧
        nd.isLeaf = 0) ∧
      (IsLeaf k n → nd.left = none ∧ nd.right = none ∧ nd.isLeaf = 1) := by
  obtain ⟨nd, hnd, hb, he⟩ := h.nodes n hn
  refine ⟨nd, Mem.deref_ok hnd, he, ?_, hb.inner, fun hleaf => ?_⟩
  · rw [hashesMatch, he, hb.computed]
    rfl
  · obtain ⟨hl, hr, hf, _⟩ := hb.leaf hleaf
    exact ⟨hl, hr, hf⟩

theorem strncmpEq_agree {n : Nat} : strncmpEq 64 (exp n) (comp n) = decide (Agree comp exp n) := by
  rw [Bool.eq_iff_iff, strncmpEq_iff, decide_eq_true_eq, Agree]

theorem mem_range_isNode {n : Nat} (h : n ∈ List.range' 1 (2 ^ (k + 1) - 1)) : IsNode k n := by
  rw [List.mem_range'_1] at h
  exact ⟨h.1, by omega⟩

/-- The leaves among all nodes. -/
theorem filter_leaves (M : Nat → Prop) [DecidablePred M] :
    (List.range' 1 (2 ^ (k + 1) - 1)).filter (fun n => IsLeaf k n ∧ M n)
      = (List.range' (2 ^ k) (2 ^ k)).filter fun n => M n := by
  have hpow := Nat.pow_succ 2 k
  have hpos := Nat.two_pow_pos k
  have hlen : 2 ^ (k + 1) - 1 = (2 ^ k - 1) + 2 ^ k := by omega
  have hstart : 1 + (2 ^ k - 1) = 2 ^ k := by omega
  have hnone : (List.range' 1 (2 ^ k - 1)).filter (fun n => IsLeaf k n ∧ M n) = [] := by
    refine List.filter_eq_nil_iff.mpr fun n hn => ?_
    rw [List.mem_range'_1] at hn
    intro h
    have hleaf := (of_decide_eq_true h).1.1
    omega
  rw [hlen, ← List.range'_append_1, List.filter_append, hnone, List.nil_append, hstart]
  refine List.filter_congr fun n hn => ?_
  rw [List.mem_range'_1] at hn
  have hleaf : IsLeaf k n := ⟨hn.1, by omega⟩
  simp [hleaf]

/-- **`bpkg_get_completed_chunks`** returns the leaves whose hashes agree, from left to right. -/
theorem bpkgGetCompletedChunks_settles (bpkg : BpkgObj)
    (h : Labelled k comp exp m root node)
    (htree : bpkg.tree = some root) (hcap : (2 ^ k : Nat) ≤ bpkg.nchunks.toInt) :
    Settles (fun fuel => bpkgGetCompletedChunks fuel m bpkg)
      (.ok (collected (Agree comp exp) node exp (List.range' (2 ^ k) (2 ^ k)))) := by
  have hleaves := filter_leaves (k := k) (Agree comp exp)
  have hrun := collect_settles (fun n => IsLeaf k n ∧ Agree comp exp n) node exp bpkg
    (completedChunksBody m bpkg) (pops_all k) ?_ ?_
  · rw [h.linked.root] at hrun
    have heq : collected (fun n => IsLeaf k n ∧ Agree comp exp n) node exp
          (List.range' 1 (2 ^ (k + 1) - 1))
        = collected (Agree comp exp) node exp (List.range' (2 ^ k) (2 ^ k)) := by
      rw [collected, collected, hleaves]
    rw [heq] at hrun
    have hstart : queuePush [] bpkg.tree = [some root] := by rw [htree]; rfl
    unfold bpkgGetCompletedChunks
    rw [hstart]
    exact hrun.bind (g := fun s _ => .ok s.1) (Settles.const _)
  · intro t ht qry todo
    have hn := mem_range_isNode ht
    obtain ⟨nd, hread, he, hmatch, hinner, hleaf⟩ := h.read hn
    show (m.deref (some (node t)) >>= fun cur => _) = _
    rw [hread, Run.ok_bind]
    -- an inner node pushes its children, a leaf is emitted if its hashes agree
    rcases hn.inner_or_leaf with hin | hlf
    · obtain ⟨hl, hr, hf⟩ := hinner hin
      have hP : ¬ (IsLeaf k t ∧ Agree comp exp t) := fun h => hin.not_isLeaf h.1
      have hf1 : nd.isLeaf ≠ 1 := by rw [hf]; decide
      rw [if_neg hP, kids_inner hin trivial, if_neg hf1]
      simp [hl, hr, queuePush, queueOf]
    · obtain ⟨hl, hr, hf⟩ := hleaf hlf
      rw [kids_leaf hlf, if_pos hf, hmatch, Run.ok_bind, strncmpEq_agree, he]
      by_cases ha : Agree comp exp t
      · have hP : IsLeaf k t ∧ Agree comp exp t := ⟨hlf, ha⟩
        rw [if_pos hP, if_pos (decide_eq_true ha)]
        simp [assigned, hl, queueOf]
      · have hP : ¬ (IsLeaf k t ∧ Agree comp exp t) := fun h => ha h.2
        rw [if_neg hP, if_neg (by simpa using ha)]
        simp [hl, queueOf]
  · rw [hleaves]
    have hle := List.length_filter_le (fun n => decide (Agree comp exp n))
      (List.range' (2 ^ k) (2 ^ k))
    rw [List.length_range'] at hle
    omega

/-- **`bpkg_get_min_completed_hashes`** returns the topmost nodes whose hashes agree, in level order. -/
theorem bpkgGetMinCompletedHashes_settles (bpkg : BpkgObj)
    (h : Labelled k comp exp m root node)
    (htree : bpkg.tree = some root) (hcap : (2 ^ k : Nat) ≤ bpkg.nchunks.toInt) :
    Settles (fun fuel => bpkgGetMinCompletedHashes fuel m bpkg)
      (.ok { hashes := (topmost k (Agree comp exp)).map fun w => (exp w).take 64
             nodes := (topmost k (Agree comp exp)).map fun w => some (node w) }) := by
  have htop := filter_clear_marked k (Agree comp exp)
  have hrun := collect_settles (Agree comp exp) node exp bpkg (minCompletedBody m bpkg)
    (pops_clear k (Agree comp exp)) ?_ ?_
  · rw [h.linked.root, collected, htop] at hrun
    have hstart : queuePush [] bpkg.tree = [some root] := by rw [htree]; rfl
    unfold bpkgGetMinCompletedHashes
    rw [hstart]
    exact hrun.bind (g := fun s _ => .ok s.1) (Settles.const _)
  · intro t ht qry todo
    have hn := mem_range_isNode (List.mem_of_mem_filter ht)
    obtain ⟨nd, hread, he, hmatch, hinner, hleaf⟩ := h.read hn
    show (m.deref (some (node t)) >>= fun cur => _) = _
    rw [hread, Run.ok_bind, hmatch, Run.ok_bind, strncmpEq_agree, he]
    by_cases ha : Agree comp exp t
    · -- a match is emitted and not expanded
      have hstop : ¬ ¬ Agree comp exp t := fun h => h ha
      rw [if_pos ha, kids_stop hstop, if_pos (decide_eq_true ha)]
      simp [assigned, queueOf]
    · rw [if_neg ha, if_neg (by simpa using ha)]
      rcases hn.inner_or_leaf with hin | hlf
      · obtain ⟨hl, hr, hf⟩ := hinner hin
        rw [if_pos hf, kids_inner hin ha]
        simp [hl, hr, queuePush, queueOf]
      · obtain ⟨_, _, hf⟩ := hleaf hlf
        have hf0 : nd.isLeaf ≠ 0 := by rw [hf]; decide
        rw [if_neg hf0, kids_leaf hlf]
        simp [queueOf]
  · rw [htop]
    have hle := topmost_length_le (k := k) (M := Agree comp exp)
    omega

/-- Among the nodes below `v` the leaves are `leavesUnder k v`. -/
theorem filter_leavesUnder :
    ((List.range' v (2 ^ (k + 1) - v)).filter fun n => Above v n).filter (fun n => IsLeaf k n)
      = leavesUnder k v := by
  have hsorted : (((List.range' v (2 ^ (k + 1) - v)).filter fun n => Above v n).filter
      (fun n => IsLeaf k n)).Pairwise (· < ·) :=
    List.Pairwise.filter _ (List.Pairwise.filter _ List.pairwise_lt_range')
  refine eq_of_mem_iff hsorted leavesUnder_sorted fun n => ?_
  rw [mem_leavesUnder, List.mem_filter, List.mem_filter, List.mem_range'_1, decide_eq_true_eq,
    decide_eq_true_eq]
  constructor
  · rintro ⟨⟨_, ha⟩, hl⟩
    exact ⟨hl, ha⟩
  · rintro ⟨hl, ha⟩
    have hle := ha.le
    have hhi := hl.2
    exact ⟨⟨⟨hle, by omega⟩, ha⟩, hl⟩

/-- The second half of `bpkg_get_all_chunk_hashes_from_hash`. -/
theorem chunksUnder_settles (h : Labelled k comp exp m root node) (hv : IsNode k v)
    (hcap : (2 ^ k : Nat) ≤ bpkg.nchunks.toInt) :
    Settles (fun fuel => queueLoop (chunksUnderBody m bpkg) fuel (.new, [some (node v)]))
      (.ok ({ hashes := (leavesUnder k v).map fun w => (exp w).take 64
              nodes := (leavesUnder k v).map fun w => some (node w) }, [])) := by
  have hleaves := filter_leavesUnder (k := k) (v := v)
  have hrun := collect_settles (fun n => IsLeaf k n) node exp bpkg (chunksUnderBody m bpkg)
    (pops_under hv) ?_ ?_
  · rwa [collected, hleaves] at hrun
  · intro t ht qry todo
    have hn : IsNode k t := by
      have hmem := List.mem_of_mem_filter ht
      rw [List.mem_range'_1] at hmem
      have h1 := hv.1
      exact ⟨by omega, by omega⟩
    obtain ⟨nd, hread, he, _, hinner, hleaf⟩ := h.read hn
    show (m.deref (some (node t)) >>= fun cur => _) = _
    rw [hread, Run.ok_bind]
    rcases hn.inner_or_leaf with hin | hlf
    · obtain ⟨hl, hr, hf⟩ := hinner hin
      have hf1 : nd.isLeaf ≠ 1 := by rw [hf]; decide
      rw [if_neg hin.not_isLeaf, kids_inner hin trivial, if_neg hf1]
      simp [hl, hr, queuePush, queueOf]
    · obtain ⟨_, _, hf⟩ := hleaf hlf
      rw [if_pos hlf, kids_leaf hlf, if_pos hf, he]
      simp [assigned, queueOf]
  · rw [hleaves]
    have hle := List.length_filter_le (fun n => decide (Above v n)) (List.range' (2 ^ k) (2 ^ k))
    rw [List.length_range'] at hle
    rw [leavesUnder]
    omega

/-- Emptying the queue takes one iteration for each of its items. -/
theorem drain_run (queue : List Ptr) (n : Nat) :
    queueLoop drainBody (n + queue.length) ((), queue) = .ok ((), []) := by
  induction queue with
  | nil => exact whileLoop_exit rfl n
  | cons p queue ih =>
      rw [List.length_cons, ← Nat.add_assoc]
      exact (whileLoop_next (by simp [queueEmpty]) rfl (n + queue.length)).trans ih

theorem drain_settles (queue : List Ptr) :
    Settles (fun fuel => queueLoop drainBody fuel ((), queue)) (.ok ((), [])) :=
  Settles.of_add queue.length (drain_run queue)

/-- The numbers of all nodes, cut at `v`. -/
theorem range'_around (hv : IsNode k v) : List.range' 1 (2 ^ (k + 1) - 1)
    = List.range' 1 (v - 1) ++ v :: List.range' (v + 1) (2 ^ (k + 1) - (v + 1)) := by
  have hv1 := hv.1
  have hv2 := hv.2
  have hlen : 2 ^ (k + 1) - 1 = (v - 1) + ((2 ^ (k + 1) - (v + 1)) + 1) := by omega
  have hstart : 1 + (v - 1) = v := by omega
  rw [hlen, ← List.range'_append_1, hstart, List.range'_succ]

/-- The search goes on at a node with another hash. -/
theorem findHashBody_other (h : Labelled k comp exp m root node) {t : Nat} (hn : IsNode k t)
    {hash : Str} (hne : (exp t).take 64 ≠ hash.take 64) (s : Int × Ptr) (todo : List Nat) :
    findHashBody m hash (s, queueOf node (t :: todo)) = .ok (.next ((s.1, some (node t)),
      queueOf node (todo ++ kids k (fun _ => True) t))) := by
  have hcmp : strncmpEq 64 (exp t) hash = false := by
    rw [Bool.eq_false_iff]
    exact fun hc => hne (strncmpEq_iff.mp hc)
  obtain ⟨nd, hread, he, _, hinner, hleaf⟩ := h.read hn
  show (m.deref (some (node t)) >>= fun cur => _) = _
  rw [hread, Run.ok_bind, he]
  show (if strncmpEq 64 (exp t) hash = true then _ else _) = _
  rw [hcmp, if_neg Bool.false_ne_true]
  cases hn.inner_or_leaf with
  | inl hin =>
      obtain ⟨hl, hr, hf⟩ := hinner hin
      rw [if_pos hf, kids_inner hin trivial]
      simp [hl, hr, queuePush, queueOf]
  | inr hlf =>
      obtain ⟨_, _, hf⟩ := hleaf hlf
      have hf0 : nd.isLeaf ≠ 0 := by simp [hf]
      rw [if_neg hf0, kids_leaf hlf]
      simp [queueOf]

/-- The search breaks off at a node with the hash. -/
theorem findHashBody_found (h : Labelled k comp exp m root node) (hv : IsNode k v) {hash : Str}
    (hmatch : (exp v).take 64 = hash.take 64) (s : Int × Ptr) (todo : List Nat) :
    findHashBody m hash (s, queueOf node (v :: todo))
      = .ok (.stop ((1, some (node v)), queueOf node todo)) := by
  obtain ⟨nd, hread, he, _⟩ := h.read hv
  show (m.deref (some (node v)) >>= fun cur => _) = _
  rw [hread, Run.ok_bind, he]
  show (if strncmpEq 64 (exp v) hash = true then _ else _) = _
  rw [if_pos (strncmpEq_iff.mpr hmatch)]
  rfl

/-- The first half of `bpkg_get_all_chunk_hashes_from_hash`: the search ends at the first node in level
    order that has the hash. -/
theorem findHash_settles (h : Labelled k comp exp m root node) (hv : IsNode k v) {hash : Str}
    (hmatch : (exp v).take 64 = hash.take 64)
    (hfirst : ∀ w, IsNode k w → w < v → (exp w).take 64 ≠ hash.take 64) :
    ∃ todo, Settles (fun fuel =>
      queueLoop (findHashBody m hash) fuel ((0, none), [some (node 1)]))
      (.ok ((1, some (node v)), todo)) := by
  have hpops := pops_all k
  rw [range'_around hv] at hpops
  -- the invariant: `foundHash` is 0 as long as the search goes on
  have hstep : ∀ pre t post (s : Int × Ptr) todo, List.range' 1 (v - 1) = pre ++ t :: post →
      s.1 = 0 → ∃ s', findHashBody m hash (s, queueOf node (t :: todo))
          = .ok (.next (s', queueOf node (todo ++ kids k (fun _ => True) t))) ∧ s'.1 = 0 := by
    intro pre t post s todo hall hs
    have hmem : t ∈ List.range' 1 (v - 1) := by simp [hall]
    rw [List.mem_range'_1] at hmem
    have hv2 := hv.2
    have hn : IsNode k t := ⟨hmem.1, by omega⟩
    exact ⟨_, findHashBody_other h hn (hfirst t hn (by omega)) s todo, hs⟩
  have hinit : ((0, none) : Int × Ptr).1 = 0 := rfl
  exact queueLoop_breaks hpops hstep (fun s todo _ => findHashBody_found h hv hmatch s todo) hinit

/-- Without a node that has the hash the search empties the queue. -/
theorem findHash_none (h : Labelled k comp exp m root node) {hash : Str}
    (hnone : ∀ w, IsNode k w → (exp w).take 64 ≠ hash.take 64) :
    ∃ currentnode, Settles (fun fuel =>
      queueLoop (findHashBody m hash) fuel ((0, none), [some (node 1)]))
      (.ok ((0, currentnode), [])) := by
  have hstep : ∀ pre t post (s : Int × Ptr) todo,
      List.range' 1 (2 ^ (k + 1) - 1) = pre ++ t :: post → s.1 = 0 →
      ∃ s', findHashBody m hash (s, queueOf node (t :: todo))
          = .ok (.next (s', queueOf node (todo ++ kids k (fun _ => True) t))) ∧ s'.1 = 0 := by
    intro pre t post s todo hall hs
    have hmem : t ∈ List.range' 1 (2 ^ (k + 1) - 1) := by simp [hall]
    have hn := mem_range_isNode hmem
    exact ⟨_, findHashBody_other h hn (hnone t hn) s todo, hs⟩
  have hinit : ((0, none) : Int × Ptr).1 = 0 := rfl
  obtain ⟨⟨foundHash, currentnode⟩, rfl, hrun⟩ := queueLoop_drains (pops_all k) hstep hinit
  exact ⟨currentnode, hrun⟩

/-- A hash that no node has gives no results. -/
theorem bpkgGetAllChunkHashesFromHash_none (bpkg : BpkgObj) (h : Labelled k comp exp m root node)
    (htree : bpkg.tree = some root) {hash : Str}
    (hnone : ∀ w, IsNode k w → (exp w).take 64 ≠ hash.take 64) :
    Settles (fun fuel => bpkgGetAllChunkHashesFromHash fuel m bpkg hash) (.ok .new) := by
  obtain ⟨currentnode, hfind⟩ := findHash_none h hnone
  have hstart : queuePush [] bpkg.tree = [some (node 1)] := by rw [htree, h.linked.root]; rfl
  unfold bpkgGetAllChunkHashesFromHash
  rw [hstart]
  exact Settles.bind hfind (Settles.const _)

/-- **`bpkg_get_all_chunk_hashes_from_hash`** finds the first node in level order with the given expected
    hash and returns the leaves below it. -/
theorem bpkgGetAllChunkHashesFromHash_settles (bpkg : BpkgObj)
    (h : Labelled k comp exp m root node)
    (htree : bpkg.tree = some root) (hcap : (2 ^ k : Nat) ≤ bpkg.nchunks.toInt) {hash : Str}
    (hv : IsNode k v) (hmatch : (exp v).take 64 = hash.take 64)
    (hfirst : ∀ w, IsNode k w → w < v → (exp w).take 64 ≠ hash.take 64) :
    Settles (fun fuel => bpkgGetAllChunkHashesFromHash fuel m bpkg hash)
      (.ok { hashes := (leavesUnder k v).map fun w => (exp w).take 64
             nodes := (leavesUnder k v).map fun w => some (node w) }) := by
  obtain ⟨todo, hfind⟩ := findHash_settles h hv hmatch hfirst
  have hstart : queuePush [] bpkg.tree = [some (node 1)] := by rw [htree, h.linked.root]; rfl
  unfold bpkgGetAllChunkHashesFromHash
  rw [hstart]
  apply Settles.bind hfind
  -- the queue is emptied before it is used again
  apply Settles.bind (drain_settles todo)
  exact (chunksUnder_settles h hv hcap).map Prod.fst

end Queries

end Btide
