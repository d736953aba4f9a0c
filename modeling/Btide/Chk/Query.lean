import Btide.Theory.Topmost
import Btide.Tree.Deal

/-!
# `Chk.Query` — the tree queries of `chk/pkgchk.c`

Three of the queries walk the tree with the queue of `tree/merkletree.c` and append the expected hashes
of some of the nodes they meet to a result array of `nchunks` entries. Each loop is one instance of
`collect_settles`: a worklist run over the numbered nodes, of which those with a certain property are
emitted.
-/

namespace Btide

open LevelOrder

/-- `struct bpkg_query`; its field `len` is the number of hashes stored so far. `nodes` is a ghost: the
    nodes from which the hashes were taken. -/
structure BpkgQuery where
  hashes : List Str
  nodes : List Ptr
deriving DecidableEq

def BpkgQuery.len (qry : BpkgQuery) : Nat := qry.hashes.length

def BpkgQuery.new : BpkgQuery := { hashes := [], nodes := [] }

/-- Append a copy of a node's expected hash to the results; there is room for `nchunks` of them. -/
def emit (bpkg : BpkgObj) (qry : BpkgQuery) (currentnode : Ptr) (expected : Str) : Run BpkgQuery :=
  if qry.len < bpkg.nchunks.toInt then
    .ok { hashes := qry.hashes ++ [expected.take 64], nodes := qry.nodes ++ [currentnode] }
  else .error .outOfBounds

/-- `strncmp(node->expected_hash, node->computed_hash, 64) == 0`. -/
def hashesMatch (nd : TreeNode) : Run Bool := do
  let expected ← assigned nd.expectedHash
  let computed ← assigned nd.computedHash
  .ok (strncmpEq 64 expected computed)

/-! ## The queries -/

def completedChunksBody (m : Mem) (bpkg : BpkgObj) :
    BpkgQuery × List Ptr → Run (Flow (BpkgQuery × List Ptr))
  | (qry, queue) => do
    let (currentnode, queue) := queuePop queue
    let cur ← m.deref currentnode
    let queue :=
      if cur.left ≠ none ∧ cur.right ≠ none then queuePush (queuePush queue cur.left) cur.right
      else queue
    if cur.isLeaf = 1 then do
      if ← hashesMatch cur then do
        let expected ← assigned cur.expectedHash
        let qry ← emit bpkg qry currentnode expected
        .ok (.next (qry, queue))
      else .ok (.next (qry, queue))
    else .ok (.next (qry, queue))

def bpkgGetCompletedChunks (fuel : Nat) (m : Mem) (bpkg : BpkgObj) : Run BpkgQuery := do
  let (qry, _) ← queueLoop (completedChunksBody m bpkg) fuel (.new, queuePush [] bpkg.tree)
  .ok qry

def minCompletedBody (m : Mem) (bpkg : BpkgObj) :
    BpkgQuery × List Ptr → Run (Flow (BpkgQuery × List Ptr))
  | (qry, queue) => do
    let (currentnode, queue) := queuePop queue
    let cur ← m.deref currentnode
    if ← hashesMatch cur then do
      let expected ← assigned cur.expectedHash
      let qry ← emit bpkg qry currentnode expected
      .ok (.next (qry, queue))
    else if cur.isLeaf = 0 then
      .ok (.next (qry, queuePush (queuePush queue cur.left) cur.right))
    else .ok (.next (qry, queue))

def bpkgGetMinCompletedHashes (fuel : Nat) (m : Mem) (bpkg : BpkgObj) : Run BpkgQuery := do
  let (qry, _) ← queueLoop (minCompletedBody m bpkg) fuel (.new, queuePush [] bpkg.tree)
  .ok qry

/-- The first loop of `bpkg_get_all_chunk_hashes_from_hash`; its state is `foundHash` and
    `currentnode`. -/
def findHashBody (m : Mem) (hash : Str) :
    (Int × Ptr) × List Ptr → Run (Flow ((Int × Ptr) × List Ptr))
  | ((foundHash, _), queue) => do
    let (currentnode, queue) := queuePop queue
    let cur ← m.deref currentnode
    let expected ← assigned cur.expectedHash
    if strncmpEq 64 expected hash then .ok (.stop ((1, currentnode), queue))
    else if cur.isLeaf = 0 then
      .ok (.next ((foundHash, currentnode), queuePush (queuePush queue cur.left) cur.right))
    else .ok (.next ((foundHash, currentnode), queue))

/-- `while (queueEmpty(queue) == 0) queuePop(queue);` -/
def drainBody : Unit × List Ptr → Run (Flow (Unit × List Ptr))
  | (_, queue) => .ok (.next ((), (queuePop queue).2))

def chunksUnderBody (m : Mem) (bpkg : BpkgObj) :
    BpkgQuery × List Ptr → Run (Flow (BpkgQuery × List Ptr))
  | (qry, queue) => do
    let (currentnode, queue) := queuePop queue
    let cur ← m.deref currentnode
    if cur.isLeaf = 1 then do
      let expected ← assigned cur.expectedHash
      let qry ← emit bpkg qry currentnode expected
      .ok (.next (qry, queue))
    else .ok (.next (qry, queuePush (queuePush queue cur.left) cur.right))

def bpkgGetAllChunkHashesFromHash (fuel : Nat) (m : Mem) (bpkg : BpkgObj) (hash : Str) :
    Run BpkgQuery := do
  let ((foundHash, currentnode), queue) ←
    queueLoop (findHashBody m hash) fuel ((0, none), queuePush [] bpkg.tree)
  if foundHash = 0 then .ok .new
  else do
    let (_, queue) ← queueLoop drainBody fuel ((), queue)
    let (qry, _) ← queueLoop (chunksUnderBody m bpkg) fuel (.new, queuePush queue currentnode)
    .ok qry

end Btide
