import Btide.Tree.Build

/-!
# `Tree.Deal` — the expected hashes (`levelOrderAddHash`)

`levelOrderAddHash` deals the package's hashes out to the nodes in the order in which a queue delivers
them: first `hashes[0]`, `hashes[1]`, …, then the chunks' hashes. The traversal is level order
(`LevelOrder.pops_all`), so the node `n` receives the entry `n - 1` of the two arrays laid end to end,
whatever their lengths, provided they hold enough entries. `buildTree` is the sequence of calls with
which `main` and `add_package` give a package its tree; `buildTree_built` describes the result.
-/

namespace Btide

open LevelOrder

/-! ## The queue

`struct nodeQueue` is a list of node pointers, front first. -/

def queuePush (queue : List Ptr) (node : Ptr) : List Ptr := queue ++ [node]

def queuePop : List Ptr → Ptr × List Ptr
  | [] => (none, [])
  | node :: rest => (node, rest)

def queueEmpty (queue : List Ptr) : Int := if queue = [] then 1 else 0

/-- `while (queueEmpty(queue) == 0)`. -/
def queueLoop {σ : Type} (body : σ × List Ptr → Run (Flow (σ × List Ptr))) (fuel : Nat)
    (s : σ × List Ptr) : Run (σ × List Ptr) := whileLoop (fun s => queueEmpty s.2 == 0) body fuel s

/-- The nodes numbered `ws`, queued. -/
def queueOf (node : Nat → Nat) (ws : List Nat) : List Ptr := ws.map fun w => some (node w)

theorem queueOf_append (node : Nat → Nat) (vs ws : List Nat) :
    queueOf node (vs ++ ws) = queueOf node vs ++ queueOf node ws := List.map_append

section QueueLoop

variable {σ : Type} {kids : Nat → List Nat} {node : Nat → Nat} {Inv : List Nat → σ → Prop}
  {body : σ × List Ptr → Run (Flow (σ × List Ptr))} {q : List Nat}

/-- A loop whose body takes one node off the queue and pushes others runs until the queue is empty. -/
theorem queueLoop_drains {vs : List Nat} (h : Pops kids q vs [])
    (hbody : ∀ pre t post s todo, vs = pre ++ t :: post → Inv pre s →
      ∃ s', body (s, queueOf node (t :: todo)) = .ok (.next (s', queueOf node (todo ++ kids t))) ∧
        Inv (pre ++ [t]) s') {s : σ} (hs : Inv [] s) :
    ∃ s', Inv vs s' ∧ Settles (fun fuel => queueLoop body fuel (s, queueOf node q)) (.ok (s', [])) :=
  whileLoop_drains h (fun s p ps => by simp [queueEmpty]) (fun s => by simp [queueEmpty]) hbody hs

/-- … or until it meets a node at which the body breaks. -/
theorem queueLoop_breaks {pre post : List Nat} {t : Nat} (h : Pops kids q (pre ++ t :: post) [])
    (hbody : ∀ pre' t' post' s todo, pre = pre' ++ t' :: post' → Inv pre' s →
      ∃ s', body (s, queueOf node (t' :: todo)) = .ok (.next (s', queueOf node (todo ++ kids t'))) ∧
        Inv (pre' ++ [t']) s')
    {r s : σ} (hstop : ∀ s todo, Inv pre s →
      body (s, queueOf node (t :: todo)) = .ok (.stop (r, queueOf node todo))) (hs : Inv [] s) :
    ∃ todo, Settles (fun fuel => queueLoop body fuel (s, queueOf node q)) (.ok (r, todo)) :=
  whileLoop_breaks h (fun s p ps => by simp [queueEmpty]) hbody hstop hs

end QueueLoop

/-! ## `levelOrderAddHash` -/

/-- The local variables of `levelOrderAddHash`, with the memory. -/
structure Deal where
  mem : Mem
  index : Int
  index2 : Int

/-- Copy the next expected hash into the node. -/
def copyExpected (bpkg : BpkgObj) (currentnode : Ptr) (s : Deal) : Run Deal :=
  if s.index < bpkg.nhashes.toInt then do
    let h ← index bpkg.hashes s.index.toNat
    let mem ← s.mem.assign currentnode fun nd => { nd with expectedHash := some (h.take 64) }
    let next ← cInt (s.index + 1)
    .ok { s with mem := mem, index := next }
  else do
    let c ← index bpkg.chunks s.index2.toNat
    let mem ← s.mem.assign currentnode
      fun nd => { nd with expectedHash := some (c.hashvalue.take 64) }
    let next ← cInt (s.index2 + 1)
    .ok { s with mem := mem, index2 := next }

/-- Push the children that exist. -/
def pushChildren (cur : TreeNode) (queue : List Ptr) : List Ptr :=
  let queue := if cur.left ≠ none then queuePush queue cur.left else queue
  if cur.right ≠ none then queuePush queue cur.right else queue

def levelOrderBody (bpkg : BpkgObj) : Deal × List Ptr → Run (Flow (Deal × List Ptr))
  | (s, queue) => do
    let (currentnode, queue) := queuePop queue
    let s ← copyExpected bpkg currentnode s
    let cur ← s.mem.deref currentnode
    .ok (.next (s, pushChildren cur queue))

def levelOrderAddHash (fuel : Nat) (m : Mem) (root : Ptr) (bpkg : BpkgObj) : Run Mem := do
  let (s, _) ← queueLoop (levelOrderBody bpkg) fuel
    ({ mem := m, index := 0, index2 := 0 }, queuePush [] root)
  .ok s.mem

/-- `int depth = log2(obj->nchunks) + 1`; the conversion of an infinity or a NaN has no meaning. -/
def treeDepth (nchunks : Int32) : Run Int :=
  if 0 < nchunks.toInt then .ok (Nat.log 2 nchunks.toInt.toNat + 1 : Nat) else .error .badConversion

/-- The calls that give a package its tree; `calculatehash` is the call of `hashChunk` in between. -/
def buildTree (fuel : Nat) (m : Mem) (bpkg : BpkgObj) (calculatehash : Run (Option (List Str))) :
    Run (Mem × BpkgObj) := do
  let (root, m) := initialiseTree m
  let bpkg := { bpkg with tree := some root }
  let depth ← treeDepth bpkg.nchunks
  let hash ← calculatehash
  let m ← recursiveTree fuel m depth 1 (some root) 0 hash
  let m ← levelOrderAddHash fuel m (some root) bpkg
  .ok (m, bpkg)

/-! ## What has been dealt out -/

/-- The entries of the two arrays, laid end to end. -/
def listed (hs : List Str) (cs : List ChunkInfo) : List Str := hs ++ cs.map ChunkInfo.hashvalue

/-- The expected hash of the node `n`. -/
def expected (hs : List Str) (cs : List ChunkInfo) (n : Nat) : Str :=
  ((listed hs cs).getD (n - 1) []).take 64

/-- The tree in `m` is the one in `m₀`, with the expected hashes `exp` on the nodes up to `i`. -/
structure Dealt (k : Nat) (comp exp : Nat → Str) (node : Nat → Nat) (m₀ : Mem) (i : Nat) (m : Mem) :
    Prop where
  next : m.nodes.next = m₀.nodes.next
  hashed : m.hashed = m₀.hashed
  frame : ∀ b : Nat, (∀ w, IsNode k w → b ≠ node w) → m.nodes.cells b = m₀.nodes.cells b
  nodes : ∀ w, IsNode k w → ∃ nd, m.nodes.cells (node w) = some nd ∧ BuiltNode k comp node w nd ∧
    (w ≤ i → nd.expectedHash = some (exp w))

section Dealing

variable {k i : Nat} {comp exp : Nat → Str} {node : Nat → Nat} {m₀ m : Mem}

/-- Dealing out the next hash. -/
theorem Dealt.store (h : Dealt k comp exp node m₀ i m) (hi : IsNode k (i + 1))
    (hinj : ∀ v w, IsNode k v → IsNode k w → node v = node w → v = w) :
    Dealt k comp exp node m₀ (i + 1)
      (m.store (node (i + 1)) fun nd => { nd with expectedHash := some (exp (i + 1)) }) where
  next := h.next
  hashed := h.hashed
  frame := fun b hb => (Mem.store_cells_ne (hb (i + 1) hi)).trans (h.frame b hb)
  nodes := fun w hw => by
    obtain ⟨nd, hnd, hb, hexp⟩ := h.nodes w hw
    by_cases hwi : w = i + 1
    · rw [← hwi]
      refine ⟨_, Mem.store_cells_self hnd, ⟨hb.computed, hb.inner, hb.leaf⟩, fun _ => rfl⟩
    · refine ⟨nd, ?_, hb, fun hle => hexp (by omega)⟩
      rw [Mem.store_cells_ne fun he => hwi (hinj w (i + 1) hw hi he), hnd]

/-- The invariant of the loop: the hashes dealt out, and where the two indices stand. -/
structure DealInv (k : Nat) (comp : Nat → Str) (hs : List Str) (cs : List ChunkInfo)
    (node : Nat → Nat) (m₀ : Mem) (done : List Nat) (s : Deal) : Prop where
  dealt : Dealt k comp (expected hs cs) node m₀ done.length s.mem
  index : s.index = (min done.length hs.length : Nat)
  index2 : s.index2 = (done.length - hs.length : Nat)

variable {hs : List Str} {cs : List ChunkInfo} {bpkg : BpkgObj}

/-- After `done` nodes the next one receives the next entry, and the indices move on. -/
theorem copyExpected_entry (hlists : bpkg.Lists hs cs) {done a : Nat} {s : Deal} {nd : TreeNode}
    (hindex : s.index = (min done hs.length : Nat)) (hindex2 : s.index2 = (done - hs.length : Nat))
    (henough : done < (listed hs cs).length) (hnd : s.mem.nodes.cells a = some nd) :
    ∃ s', copyExpected bpkg (some a) s = .ok s' ∧
      s'.mem = s.mem.store a (fun nd => { nd with expectedHash := some (expected hs cs (done + 1)) }) ∧
      s'.index = (min (done + 1) hs.length : Nat) ∧ s'.index2 = (done + 1 - hs.length : Nat) := by
  have hnh := hlists.nhashes
  have hnc := hlists.nchunks
  have hmaxh := toInt_le_intMax bpkg.nhashes
  have hmaxc := toInt_le_intMax bpkg.nchunks
  have htotal : (listed hs cs).length = hs.length + cs.length := by
    rw [listed, List.length_append, List.length_map]
  rcases Nat.lt_or_ge done hs.length with hlt | hge
  · -- the next hash
    have hhash : index bpkg.hashes s.index.toNat = .ok hs[done] := by
      have htoNat : s.index.toNat = done := by omega
      rw [hlists.hashes, htoNat]
      exact index_ok (List.getElem?_eq_getElem hlt)
    have hexp : expected hs cs (done + 1) = hs[done].take 64 := by
      rw [expected, listed, Nat.add_sub_cancel, List.getD_append _ _ _ _ hlt,
        List.getD_eq_getElem _ _ hlt]
    have hnext : cInt (s.index + 1) = .ok (s.index + 1) :=
      cInt_ok (by unfold INT_MIN; omega) (by omega)
    refine ⟨{ s with mem := _, index := s.index + 1 }, ?_, rfl, ?_, ?_⟩
    · rw [copyExpected, if_pos (by omega), hhash, Run.ok_bind, Mem.assign_ok hnd, Run.ok_bind, hnext,
        Run.ok_bind, hexp]
      rfl
    · show s.index + 1 = _
      omega
    · show s.index2 = _
      omega
  · -- the next chunk
    have hclt : done - hs.length < cs.length := by omega
    have hhash : index bpkg.chunks s.index2.toNat = .ok cs[done - hs.length] := by
      have htoNat : s.index2.toNat = done - hs.length := by omega
      rw [hlists.chunks, htoNat]
      exact index_ok (List.getElem?_eq_getElem hclt)
    have hexp : expected hs cs (done + 1) = cs[done - hs.length].hashvalue.take 64 := by
      rw [expected, listed, Nat.add_sub_cancel, List.getD_append_right _ _ _ _ hge,
        List.getD_eq_getElem _ _ (by rwa [List.length_map]), List.getElem_map]
    have hnext : cInt (s.index2 + 1) = .ok (s.index2 + 1) :=
      cInt_ok (by unfold INT_MIN; omega) (by omega)
    refine ⟨{ s with mem := _, index2 := s.index2 + 1 }, ?_, rfl, ?_, ?_⟩
    · rw [copyExpected, if_neg (by omega), hhash, Run.ok_bind, Mem.assign_ok hnd, Run.ok_bind, hnext,
        Run.ok_bind, hexp]
      rfl
    · show s.index = _
      omega
    · show s.index2 + 1 = _
      omega

/-- In the perfect tree the next node is the one with the next number. -/
theorem copyExpected_ok (hlists : bpkg.Lists hs cs) {done : List Nat} {s : Deal}
    (h : DealInv k comp hs cs node m₀ done s) (hn : IsNode k (done.length + 1))
    (hinj : ∀ v w, IsNode k v → IsNode k w → node v = node w → v = w)
    (henough : done.length < (listed hs cs).length) (x : Nat) :
    ∃ s', copyExpected bpkg (some (node (done.length + 1))) s = .ok s' ∧
      DealInv k comp hs cs node m₀ (done ++ [x]) s' := by
  obtain ⟨nd, hnd, _⟩ := h.dealt.nodes _ hn
  obtain ⟨s', hrun, hmem, hindex, hindex2⟩ :=
    copyExpected_entry hlists h.index h.index2 henough hnd
  have hlen : (done ++ [x]).length = done.length + 1 := List.length_append
  refine ⟨s', hrun, ⟨?_, ?_, ?_⟩⟩
  · rw [hlen, hmem]
    exact h.dealt.store hn hinj
  · rw [hlen]
    exact hindex
  · rw [hlen]
    exact hindex2

/-- What a finished node pushes are the two nodes below it. -/
theorem pushChildren_eq {n : Nat} {nd : TreeNode} (hn : IsNode k n) (h : BuiltNode k comp node n nd)
    (queue : List Ptr) :
    pushChildren nd queue = queue ++ queueOf node (kids k (fun _ => True) n) := by
  rcases hn.inner_or_leaf with hin | hleaf
  · obtain ⟨hl, hr, _⟩ := h.inner hin
    rw [kids_inner hin trivial]
    simp [pushChildren, queuePush, queueOf, hl, hr]
  · obtain ⟨hl, hr, _⟩ := h.leaf hleaf
    rw [kids_leaf hleaf]
    simp [pushChildren, queueOf, hl, hr]

/-- The items before a given one of an interval are as many as they are. -/
theorem range'_split {s d t : Nat} {pre post : List Nat} (h : List.range' s d = pre ++ t :: post) :
    t = s + pre.length := by
  have ht : (List.range' s d)[pre.length]? = some t := by
    rw [h, List.getElem?_append_right (Nat.le_refl _), Nat.sub_self]
    rfl
  obtain ⟨_, ht⟩ := List.getElem?_eq_some_iff.mp ht
  rw [List.getElem_range'] at ht
  omega

/-- **The expected hashes are dealt out in level order.** -/
theorem levelOrderAddHash_dealt (hlists : bpkg.Lists hs cs)
    (hbuilt : ∀ w, IsNode k w → ∃ nd, m.nodes.cells (node w) = some nd ∧ BuiltNode k comp node w nd)
    (hinj : ∀ v w, IsNode k v → IsNode k w → node v = node w → v = w)
    (henough : 2 ^ (k + 1) - 1 ≤ (listed hs cs).length) :
    ∃ m', Dealt k comp (expected hs cs) node m (2 ^ (k + 1) - 1) m' ∧
      Settles (fun fuel => levelOrderAddHash fuel m (some (node 1)) bpkg) (.ok m') := by
  have hinit : DealInv k comp hs cs node m [] { mem := m, index := 0, index2 := 0 } := by
    refine ⟨⟨rfl, rfl, fun _ _ => rfl, fun w hw => ?_⟩, ?_, ?_⟩
    · obtain ⟨nd, hnd, hb⟩ := hbuilt w hw
      exact ⟨nd, hnd, hb, fun h => absurd hw.1 (by simp at h; omega)⟩
    · rw [List.length_nil, Nat.zero_min]
      rfl
    · rw [List.length_nil, Nat.zero_sub]
      rfl
  have hbody : ∀ pre t post s todo, List.range' 1 (2 ^ (k + 1) - 1) = pre ++ t :: post →
      DealInv k comp hs cs node m pre s →
      ∃ s', levelOrderBody bpkg (s, queueOf node (t :: todo))
          = .ok (.next (s', queueOf node (todo ++ kids k (fun _ => True) t))) ∧
        DealInv k comp hs cs node m (pre ++ [t]) s' := by
    intro pre t post s todo hall hs
    have ht : t = 1 + pre.length := range'_split hall
    have hmem : t ∈ List.range' 1 (2 ^ (k + 1) - 1) := by simp [hall]
    rw [List.mem_range'_1] at hmem
    obtain rfl : t = pre.length + 1 := by omega
    have hn : IsNode k (pre.length + 1) := ⟨hmem.1, by omega⟩
    obtain ⟨s', hcopy, hs'⟩ := copyExpected_ok hlists hs hn hinj (by omega) (pre.length + 1)
    obtain ⟨nd, hnd, hb, _⟩ := hs'.dealt.nodes _ hn
    refine ⟨s', ?_, hs'⟩
    show (copyExpected bpkg (some (node (pre.length + 1))) s >>= fun s => _) = _
    rw [hcopy, Run.ok_bind, Mem.deref_ok hnd, Run.ok_bind, pushChildren_eq hn hb, queueOf_append]
    rfl
  obtain ⟨s, hs, hrun⟩ := queueLoop_drains (pops_all k) hbody hinit
  refine ⟨s.mem, ?_, hrun.bind (Settles.const _)⟩
  have h := hs.dealt
  rwa [List.length_range'] at h

end Dealing

/-! ## The finished tree -/

/-- The tree at `root` carries the computed hashes `comp` and the expected hashes `exp`. -/
structure Labelled (k : Nat) (comp exp : Nat → Str) (m : Mem) (root : Nat) (node : Nat → Nat) :
    Prop where
  linked : Linked k m root node
  nodes : ∀ w, IsNode k w → ∃ nd, m.nodes.cells (node w) = some nd ∧ BuiltNode k comp node w nd ∧
    nd.expectedHash = some (exp w)

/-- The tree at `root` in `m`, added to the memory `m₀`: its nodes are distinct, carry the computed
    hashes `comp` and the expected hashes `exp`, and nothing older has changed. -/
structure Built (k : Nat) (comp exp : Nat → Str) (m₀ m : Mem) (root : Nat) (node : Nat → Nat) :
    Prop where
  linked : Linked k m root node
  nodes : ∀ w, IsNode k w → ∃ nd, m.nodes.cells (node w) = some nd ∧ BuiltNode k comp node w nd ∧
    nd.expectedHash = some (exp w)
  inj : ∀ v w, IsNode k v → IsNode k w → node v = node w → v = w
  frame : ∀ b : Nat, b < m₀.nodes.next → m.nodes.cells b = m₀.nodes.cells b
  hashed : ∃ log, m.hashed = m₀.hashed ++ log ∧
    ∀ x, x ∈ log ↔ ∃ w, IsInner k w ∧ x = combine (comp (2 * w)) (comp (2 * w + 1))

section Finished

variable {k n root : Nat} {comp exp : Nat → Str} {m₀ m : Mem} {node : Nat → Nat}

theorem Labelled.computedAt (h : Labelled k comp exp m root node) (hn : IsNode k n) :
    m.computedAt root n = some (comp n) := by
  obtain ⟨nd, hnd, hb, _⟩ := h.nodes n hn
  rw [h.linked.computedAt hn hnd, hb.computed]

theorem Labelled.expectedAt (h : Labelled k comp exp m root node) (hn : IsNode k n) :
    m.expectedAt root n = some (exp n) := by
  obtain ⟨nd, hnd, _, he⟩ := h.nodes n hn
  rw [h.linked.expectedAt hn hnd, he]

theorem Built.labelled (h : Built k comp exp m₀ m root node) : Labelled k comp exp m root node :=
  ⟨h.linked, h.nodes⟩

theorem Built.nodeAt (h : Built k comp exp m₀ m root node) (hn : IsNode k n) :
    m.nodeAt root n = some (node n) := h.linked.nodeAt hn

theorem Built.computedAt (h : Built k comp exp m₀ m root node) (hn : IsNode k n) :
    m.computedAt root n = some (comp n) := h.labelled.computedAt hn

theorem Built.expectedAt (h : Built k comp exp m₀ m root node) (hn : IsNode k n) :
    m.expectedAt root n = some (exp n) := h.labelled.expectedAt hn

/-- A tree that has been grown below a new root and then dealt its expected hashes. -/
theorem Grown.deal {m₁ : Mem} (hg : Grown k comp (initialiseTree m₀).2 m₁ 1 root none node)
    (hroot : root = m₀.nodes.next) (hd : Dealt k comp exp node m₁ (2 ^ (k + 1) - 1) m) :
    Built k comp exp m₀ m root node := by
  have hnodes : ∀ w, IsNode k w → ∃ nd, m.nodes.cells (node w) = some nd ∧
      BuiltNode k comp node w nd ∧ nd.expectedHash = some (exp w) := by
    intro w hw
    obtain ⟨nd, hnd, hb, he⟩ := hd.nodes w hw
    exact ⟨nd, hnd, hb, he (by have := hw.2; omega)⟩
  -- the tree's addresses are new
  have hnew : ∀ w, IsNode k w → m₀.nodes.next ≤ node w := by
    intro w hw
    by_cases hone : w = 1
    · rw [hone, hg.self, hroot]
    · have h : m₀.nodes.next + 1 ≤ node w := hg.new w hw (above_root hw.1) hone
      omega
  refine ⟨⟨hg.self, fun w hw => ?_⟩, hnodes, ?_, ?_, ?_⟩
  · obtain ⟨nd, hnd, hb, _⟩ := hnodes w hw.isNode
    exact ⟨nd, hnd, (hb.inner hw).1, (hb.inner hw).2.1⟩
  · intro v w hv hw
    exact hg.inj v w hv hw (above_root hv.1) (above_root hw.1)
  · intro b hb
    have hother : ∀ w, IsNode k w → b ≠ node w := fun w hw he => by
      have := hnew w hw
      omega
    have hlt : b < (initialiseTree m₀).2.nodes.next := Nat.lt_succ_of_lt hb
    rw [hd.frame b hother, hg.frame b hlt (by omega)]
    exact createNode_cells_lt hb
  · obtain ⟨log, hlog, hmem⟩ := hg.hashed
    refine ⟨log, hd.hashed.trans hlog, fun x => ?_⟩
    rw [hmem]
    constructor
    · rintro ⟨w, hw, _, hx⟩
      exact ⟨w, hw, hx⟩
    · rintro ⟨w, hw, hx⟩
      exact ⟨w, hw, above_root hw.1, hx⟩

end Finished

theorem treeDepth_ok {nchunks : Int32} {n : Nat} (h : nchunks.toInt = n) (hn : 1 ≤ n) :
    treeDepth nchunks = .ok ((Nat.log 2 n : Int) + 1) := by
  have hpos : 0 < nchunks.toInt := by omega
  rw [treeDepth, if_pos hpos, h, Int.toNat_natCast]
  rfl

theorem log_nchunks_le {nchunks : Int32} {n : Nat} (h : nchunks.toInt = n) : Nat.log 2 n ≤ 31 := by
  have hmax := toInt_le_intMax nchunks
  unfold INT_MAX at hmax
  have hlt : n < 2 ^ 32 := by omega
  by_cases hn : n = 0
  · rw [hn, Nat.log_zero_right]
    omega
  · exact Nat.le_of_lt_succ (Nat.log_lt_of_lt_pow hn hlt)

/-- The two passes of `buildTree`: the tree is grown below a new root, and then the expected hashes are
    dealt out. -/
theorem buildTree_dealt {bpkg : BpkgObj} {hs : List Str} {cs : List ChunkInfo} {hashes : List Str}
    (m : Mem) (hlists : bpkg.Lists hs cs) {k : Nat} (hlog : Nat.log 2 cs.length = k) (hk : 1 ≤ k)
    (hhashes : 2 ^ k ≤ hashes.length) (henough : 2 ^ (k + 1) - 1 ≤ (listed hs cs).length) :
    ∃ m₁ m' node, Grown k (computed k hashes) (initialiseTree m).2 m₁ 1 m.nodes.next none node ∧
      Dealt k (computed k hashes) (expected hs cs) node m₁ (2 ^ (k + 1) - 1) m' ∧
      Settles (fun fuel => buildTree fuel m bpkg (.ok (some hashes)))
        (.ok (m', { bpkg with tree := some m.nodes.next })) := by
  have hpos : 1 ≤ cs.length := by
    by_contra h
    have hzero : cs.length = 0 := by omega
    rw [hzero, Nat.log_zero_right] at hlog
    omega
  have hk31 : k ≤ 31 := hlog ▸ log_nchunks_le hlists.nchunks
  have hdepth : treeDepth bpkg.nchunks = .ok ((k : Int) + 1) := by
    rw [treeDepth_ok hlists.nchunks hpos, hlog]
  obtain ⟨m₁, node, hg, hrun₁⟩ := recursiveTree_root m hk hk31 hhashes
  have hlists' : { bpkg with tree := some m.nodes.next : BpkgObj }.Lists hs cs :=
    ⟨hlists.hashes, hlists.chunks, hlists.nhashes, hlists.nchunks⟩
  obtain ⟨m', hd, hrun₂⟩ := levelOrderAddHash_dealt hlists'
    (fun w hw => hg.built w hw (above_root hw.1))
    (fun v w hv hw => hg.inj v w hv hw (above_root hv.1) (above_root hw.1)) henough
  rw [hg.self] at hrun₂
  refine ⟨m₁, m', node, hg, hd, ?_⟩
  -- the two passes over the tree, one after the other
  have hsteps : ∀ fuel, buildTree fuel m bpkg (.ok (some hashes))
      = (recursiveTree fuel (initialiseTree m).2 (k + 1) 1 (some (initialiseTree m).1) 0 (some hashes)
          >>= fun m₁ =>
        levelOrderAddHash fuel m₁ (some m.nodes.next) { bpkg with tree := some m.nodes.next }
          >>= fun m' => .ok (m', { bpkg with tree := some m.nodes.next })) := by
    intro fuel
    show (treeDepth bpkg.nchunks >>= fun depth => _) = _
    rw [hdepth]
    rfl
  simp only [hsteps]
  exact hrun₁.bind (g := fun m₁ fuel =>
    levelOrderAddHash fuel m₁ (some m.nodes.next) { bpkg with tree := some m.nodes.next }
      >>= fun m' => .ok (m', { bpkg with tree := some m.nodes.next }))
    (hrun₂.bind (g := fun m' _ => .ok (m', { bpkg with tree := some m.nodes.next }))
      (Settles.const _))

/-- **The tree of a package.** With at least two chunks, a hash for each leaf and an entry for each
    node, the tree is built; its height is the logarithm of the number of chunks. -/
theorem buildTree_built {bpkg : BpkgObj} {hs : List Str} {cs : List ChunkInfo} {hashes : List Str}
    (m : Mem) (hlists : bpkg.Lists hs cs) {k : Nat} (hlog : Nat.log 2 cs.length = k) (hk : 1 ≤ k)
    (hhashes : 2 ^ k ≤ hashes.length) (henough : 2 ^ (k + 1) - 1 ≤ (listed hs cs).length) :
    ∃ m' node, Built k (computed k hashes) (expected hs cs) m m' m.nodes.next node ∧
      Settles (fun fuel => buildTree fuel m bpkg (.ok (some hashes)))
        (.ok (m', { bpkg with tree := some m.nodes.next })) := by
  obtain ⟨_, m', node, hg, hd, hrun⟩ := buildTree_dealt m hlists hlog hk hhashes henough
  exact ⟨m', node, hg.deal rfl hd, hrun⟩

/-- A tree is built only from computed hashes, and never for a single chunk. -/
theorem buildTree_returns {fuel : Nat} {m : Mem} {bpkg : BpkgObj}
    {calculatehash : Run (Option (List Str))} {r : Mem × BpkgObj}
    (h : buildTree fuel m bpkg calculatehash = .ok r) :
    0 < bpkg.nchunks.toInt ∧ ∃ hashes, calculatehash = .ok (some hashes) ∧
      (1 ≤ hashes.length → bpkg.nchunks.toInt ≠ 1) := by
  obtain ⟨depth, hdepth, h⟩ := Run.bind_eq_ok.mp h
  obtain ⟨hash, hhash, h⟩ := Run.bind_eq_ok.mp h
  obtain ⟨m₁, hrec, _⟩ := Run.bind_eq_ok.mp h
  have hpos : 0 < bpkg.nchunks.toInt := by
    unfold treeDepth at hdepth
    split at hdepth
    · assumption
    · cases hdepth
  cases hash with
  | none => exact absurd hrec (recursiveTree_null fuel _ _ _ _ _ _)
  | some hashes =>
      refine ⟨hpos, hashes, hhash, fun hlen hone => ?_⟩
      have hdepth' := treeDepth_ok (n := 1) hone (Nat.le_refl 1)
      rw [show treeDepth bpkg.nchunks = .ok depth from hdepth, Nat.log_one_right] at hdepth'
      cases hdepth'
      cases fuel with
      | zero => cases hrec
      | succ fuel =>
          have hsingle := recursiveTree_single m hlen fuel
          rw [show recursiveTree (fuel + 1) (initialiseTree m).2 1 1 (some (initialiseTree m).1) 0
            (some hashes) = .ok m₁ from hrec] at hsingle
          cases hsingle

end Btide
