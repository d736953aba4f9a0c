import Mathlib.Data.Nat.Log
import Btide.Base.Heap
import Btide.Chk.Obj
import Btide.Crypt.Sha256

/-!
# `Tree.Node` — building the Merkle tree (`tree/merkletree.c`)

Tree nodes live in a `Heap` and point at each other by address, parents included, because the C code
computes an inner node's hash through the `parent` pointer of its right child. Fields that `createNode`
leaves uninitialised are `none`, and reading one aborts.

`Mem.hashed` is a ghost: the strings that `computeParentHash` has hashed so far. No function reads it.
-/

namespace Btide

/-- `struct tree_node` (its field `value` is never used). -/
structure TreeNode where
  left : Ptr
  right : Ptr
  parent : Ptr
  position : Option Int
  isLeaf : Int
  expectedHash : Option Str
  computedHash : Option Str
deriving DecidableEq

/-- The tree nodes in memory, and the strings hashed by `computeParentHash`. -/
structure Mem where
  nodes : Heap TreeNode
  hashed : List Str

namespace Mem

def empty : Mem := { nodes := Heap.empty, hashed := [] }

/-- The node a pointer points to. -/
def deref (m : Mem) (p : Ptr) : Run TreeNode :=
  match p with
  | none => .error .nullDeref
  | some a =>
    match m.nodes.cells a with
    | none => .error .wildPointer
    | some nd => .ok nd

/-- Change the fields of the node at `a`. -/
def store (m : Mem) (a : Addr) (f : TreeNode → TreeNode) : Mem :=
  { m with nodes := m.nodes.modify a f }

/-- An assignment through a pointer. -/
def assign (m : Mem) (p : Ptr) (f : TreeNode → TreeNode) : Run Mem :=
  match p with
  | none => .error .nullDeref
  | some a => do
    let _ ← m.deref (some a)
    .ok (m.store a f)

end Mem

/-- The value of a field that has to have been assigned. -/
def assigned {α : Type} : Option α → Run α
  | none => .error .uninitRead
  | some x => .ok x

/-! ## The functions of `merkletree.c` -/

/-- The node that `createNode` fills in. -/
def TreeNode.new : TreeNode where
  left := none
  right := none
  parent := none
  position := none
  isLeaf := 0
  expectedHash := none
  computedHash := none

/-- `createNode`: a new node, and the memory that holds it. -/
def createNode (m : Mem) : Addr × Mem :=
  (m.nodes.next, { m with nodes := m.nodes.alloc TreeNode.new })

/-- `snprintf(combinedhash, sizeof(combinedhash), "%s%s", …)` with its buffer of `2 * 65` bytes. -/
def combine (left right : Str) : Str := (left ++ right).take 129

def computeParentHash (m : Mem) (currentnode : Ptr) : Run Mem := do
  let cur ← m.deref currentnode
  let parent ← m.deref cur.parent
  let left ← m.deref parent.left
  let right ← m.deref parent.right
  let lefthash ← assigned left.computedHash
  let righthash ← assigned right.computedHash
  let combinedhash := combine lefthash righthash
  let hash ← sha256OfPieces .local [combinedhash]
  let m := { m with hashed := m.hashed ++ [combinedhash] }
  m.assign cur.parent fun nd => { nd with computedHash := some hash }

/-- `initialiseTree`: the root of a new tree. -/
def initialiseTree (m : Mem) : Addr × Mem := createNode m

/-- `if (currentnode->parent->right == currentnode) computeParentHash(currentnode);` -/
def hashIfRightChild (m : Mem) (currentnode : Ptr) : Run Mem := do
  let cur ← m.deref currentnode
  let parent ← m.deref cur.parent
  if parent.right = currentnode then computeParentHash m currentnode else .ok m

/-- `hash[position]`, for the array of computed chunk hashes; `none` is NULL. -/
def chunkHash (hash : Option (List Str)) (position : Int) : Run Str :=
  match hash with
  | none => .error .nullDeref
  | some hashes => if position < 0 then .error .outOfBounds else index (some hashes) position.toNat

/-- Create the left and the right child of a node, setting the node as their parent. -/
def createChildren (m : Mem) (currentnode : Ptr) : Run Mem := do
  let (left, m) := createNode m
  let m ← m.assign currentnode fun nd => { nd with left := some left }
  let m ← m.assign (some left) fun nd => { nd with parent := currentnode }
  let (right, m) := createNode m
  let m ← m.assign currentnode fun nd => { nd with right := some right }
  m.assign (some right) fun nd => { nd with parent := currentnode }

def recursiveTree : Nat → Mem → Int → Int → Ptr → Int → Option (List Str) → Run Mem
  | 0, _, _, _, _, _, _ => .error .outOfFuel
  | fuel + 1, m, depth, currentdepth, currentnode, position, hash =>
    if currentdepth ≠ depth then do
      -- both children are created before either is built
      let m ← createChildren m currentnode
      let nextdepth ← cInt (currentdepth + 1)
      let leftposition ← cInt (position * 2)
      let cur ← m.deref currentnode
      let m ← recursiveTree fuel m depth nextdepth cur.left leftposition hash
      let rightposition ← cInt (position * 2 + 1)
      let cur ← m.deref currentnode
      let m ← recursiveTree fuel m depth nextdepth cur.right rightposition hash
      let cur ← m.deref currentnode
      if cur.parent ≠ none then hashIfRightChild m currentnode else .ok m
    else do
      let m ← m.assign currentnode fun nd => { nd with isLeaf := 1, position := some position }
      let h ← chunkHash hash position
      let m ← m.assign currentnode fun nd => { nd with computedHash := some (h.take 64) }
      hashIfRightChild m currentnode

/-! ## Walking the tree -/

/-- The node with number `n` in level order, counting the root as 1: the children of `n` are `2 * n` and
    `2 * n + 1`. -/
def Mem.nodeAt (m : Mem) (root : Addr) (n : Nat) : Ptr :=
  if n = 0 then none
  else if n = 1 then some root
  else do
    let parent ← m.nodeAt root (n / 2)
    let nd ← m.nodes.cells parent
    if n % 2 = 0 then nd.left else nd.right
termination_by n

/-- The hash that building the tree computed for the node `n`. -/
def Mem.computedAt (m : Mem) (root : Addr) (n : Nat) : Option Str := do
  let a ← m.nodeAt root n
  let nd ← m.nodes.cells a
  nd.computedHash

/-- The hash that the package lists for the node `n`. -/
def Mem.expectedAt (m : Mem) (root : Addr) (n : Nat) : Option Str := do
  let a ← m.nodeAt root n
  let nd ← m.nodes.cells a
  nd.expectedHash

end Btide
