import Btide.Base.Run

/-!
# `Chk.Obj` — package objects

The structures of `include/chk/pkgchk.h`. A pointer that has never been assigned is `none`; an array it
points to is the list of its elements. `tree` holds the root of the object's Merkle tree (the structure
`merkle_tree` has no other field).
-/

namespace Btide

/-- The address of a tree node. -/
abbrev Addr := Nat

/-- A `struct tree_node*`; `none` is NULL. -/
abbrev Ptr := Option Addr

/-- `struct chunkinfo`. -/
structure ChunkInfo where
  hashvalue : Str
  offset : Int32
  size : Int32
deriving DecidableEq

/-- `struct bpkg_obj`. -/
structure BpkgObj where
  identifier : Str
  filename : Str
  size : Int32
  nhashes : Int32
  hashes : Option (List Str)
  nchunks : Int32
  chunks : Option (List ChunkInfo)
  tree : Ptr
deriving DecidableEq

/-- The object's arrays are `hs` and `cs`, and its counters are their lengths. -/
structure BpkgObj.Lists (bpkg : BpkgObj) (hs : List Str) (cs : List ChunkInfo) : Prop where
  hashes : bpkg.hashes = some hs
  chunks : bpkg.chunks = some cs
  nhashes : bpkg.nhashes.toInt = hs.length
  nchunks : bpkg.nchunks.toInt = cs.length

/-- The tree is apart from the arrays. -/
theorem BpkgObj.Lists.withTree {bpkg : BpkgObj} {hs : List Str} {cs : List ChunkInfo}
    (h : bpkg.Lists hs cs) (tree : Ptr) : { bpkg with tree := tree }.Lists hs cs :=
  ⟨h.hashes, h.chunks, h.nhashes, h.nchunks⟩

/-- `array[i]`, for an array reached through a pointer. -/
def index {α : Type} (array : Option (List α)) (i : Nat) : Run α :=
  match array with
  | none => .error .wildPointer
  | some xs =>
    match xs[i]? with
    | none => .error .outOfBounds
    | some x => .ok x

theorem index_ok {α : Type} {xs : List α} {i : Nat} {x : α} (h : xs[i]? = some x) :
    index (some xs) i = .ok x := by
  simp only [index, h]

theorem index_eq_ok {α : Type} {array : Option (List α)} {i : Nat} {x : α}
    (h : index array i = .ok x) : ∃ xs, array = some xs ∧ xs[i]? = some x := by
  unfold index at h
  split at h
  · cases h
  · next xs =>
      split at h
      · cases h
      · next y hy =>
          cases h
          exact ⟨xs, rfl, hy⟩

end Btide
