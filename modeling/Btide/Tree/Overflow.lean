import Btide.Chk.Query
import Btide.Tree.HashChunk
import Btide.Tree.Traverse

/-!
# `Tree.Overflow` — the tree functions overflow no array

A function of `tree/merkletree.c` or a query on a tree may stop in many ways on a tree that is not in
order, but not by writing past the end of an array: what it copies is cut to length, and the slices that
`hashChunk` feeds to the hash are small enough for the block that is being filled up. Along the functions
this is one lemma each.
-/

namespace Btide

open Run

/-- The abort that this module is about. -/
abbrev NoOverflow {α : Type} (x : Run α) : Prop := Avoids .bufferOverflow x

/-- The aborts that only code with an array or a loop of its own can end in. -/
def Abort.Structural (e : Abort) : Prop := e = .bufferOverflow ∨ e = .outOfFuel

theorem Abort.Structural.error {α : Type} {e e' : Abort} (he : e.Structural)
    (h : e' ≠ .bufferOverflow ∧ e' ≠ .outOfFuel) : Avoids e (.error e' : Run α) := by
  rcases he with rfl | rfl
  · exact Avoids.error h.1
  · exact Avoids.error h.2

section Basic

variable {α : Type} {e : Abort}

theorem index_avoids (he : e.Structural) (array : Option (List α)) (i : Nat) :
    Avoids e (index array i) := by
  unfold index
  split
  · exact he.error (by simp)
  · split
    · exact he.error (by simp)
    · exact Avoids.ok _

theorem index_noOverflow (array : Option (List α)) (i : Nat) : NoOverflow (index array i) :=
  index_avoids (.inl rfl) array i

theorem assigned_avoids (he : e.Structural) (x : Option α) : Avoids e (assigned x) := by
  cases x with
  | none => exact he.error (by simp)
  | some x => exact Avoids.ok x

theorem assigned_noOverflow (x : Option α) : NoOverflow (assigned x) := assigned_avoids (.inl rfl) x

theorem Abort.Structural.cInt (he : e.Structural) (z : Int) : Avoids e (cInt z) :=
  cInt_avoids (fun h => by rcases he with rfl | rfl <;> cases h) z

theorem cInt_noOverflow (z : Int) : NoOverflow (cInt z) := cInt_avoids (by simp) z

theorem load_noOverflow (h : Heap (Node α)) (a : Nat) : NoOverflow (load h a) := by
  unfold load
  split
  · exact Avoids.error (by simp)
  · exact Avoids.ok _

theorem appendRecord_noOverflow (h : Heap (Node α)) (fuel : Nat) (head : Option Nat) (a : Nat) :
    NoOverflow (appendRecord h fuel head a) := by
  cases head with
  | none => exact Avoids.ok _
  | some first =>
      refine Avoids.bind ?_ fun current _ => Avoids.ok _
      refine whileLoop_avoids (by simp) (fun s => ?_) fuel first
      refine (load_noOverflow h s).bind fun n _ => ?_
      split
      · exact Avoids.ok _
      · exact Avoids.ok _

theorem mapM_avoids {β : Type} {f : α → Run β} (h : ∀ a, Avoids e (f a)) (as : List α) :
    Avoids e (as.mapM f) := by
  induction as with
  | nil => exact Avoids.ok _
  | cons a as ih =>
      rw [List.mapM_cons]
      exact (h a).bind fun b _ => ih.bind fun bs _ => Avoids.ok _

end Basic

/-! ## Building a tree -/

section Build

variable {e : Abort} (he : e.Structural) (m : Mem) (p : Ptr) (f : TreeNode → TreeNode)

include he

theorem deref_avoids : Avoids e (m.deref p) := by
  cases p with
  | none => exact he.error (by simp)
  | some a =>
      simp only [Mem.deref]
      split
      · exact he.error (by simp)
      · exact Avoids.ok _

theorem assign_avoids : Avoids e (m.assign p f) := by
  cases p with
  | none => exact he.error (by simp)
  | some a => exact (deref_avoids he m (some a)).bind fun _ _ => Avoids.ok _

/-- What `combinedhash` holds is short enough to be hashed. -/
theorem computeParentHash_avoids : Avoids e (computeParentHash m p) := by
  refine (deref_avoids he m p).bind fun cur _ => ?_
  refine (deref_avoids he m cur.parent).bind fun parent _ => ?_
  refine (deref_avoids he m parent.left).bind fun left _ => ?_
  refine (deref_avoids he m parent.right).bind fun right _ => ?_
  refine (assigned_avoids he left.computedHash).bind fun x _ => ?_
  refine (assigned_avoids he right.computedHash).bind fun y _ => ?_
  show Avoids e (sha256OfPieces .local [combine x y] >>= fun hash => _)
  rw [sha256OfPieces_combine, ok_bind]
  exact assign_avoids he _ _ _

theorem hashIfRightChild_avoids : Avoids e (hashIfRightChild m p) := by
  refine (deref_avoids he m p).bind fun cur _ => ?_
  refine (deref_avoids he m cur.parent).bind fun parent _ => ?_
  split
  · exact computeParentHash_avoids he m p
  · exact Avoids.ok m

theorem chunkHash_avoids (hash : Option (List Str)) (position : Int) :
    Avoids e (chunkHash hash position) := by
  cases hash with
  | none => exact he.error (by simp)
  | some hashes =>
      simp only [chunkHash]
      split
      · exact he.error (by simp)
      · exact index_avoids he _ _

theorem createChildren_avoids : Avoids e (createChildren m p) := by
  refine (assign_avoids he _ _ _).bind fun m _ => ?_
  refine (assign_avoids he _ _ _).bind fun m _ => ?_
  exact (assign_avoids he _ _ _).bind fun m _ => assign_avoids he _ _ _

omit he

theorem deref_noOverflow : NoOverflow (m.deref p) := deref_avoids (.inl rfl) m p

theorem assign_noOverflow : NoOverflow (m.assign p f) := assign_avoids (.inl rfl) m p f

theorem recursiveTree_noOverflow (fuel : Nat) (m : Mem) (depth currentdepth : Int) (p : Ptr)
    (position : Int) (hash : Option (List Str)) :
    NoOverflow (recursiveTree fuel m depth currentdepth p position hash) := by
  induction fuel generalizing m currentdepth p position with
  | zero => exact Avoids.error (by simp)
  | succ fuel ih =>
      unfold recursiveTree
      split
      · refine (createChildren_avoids (.inl rfl) m p).bind fun m _ => ?_
        refine (cInt_noOverflow _).bind fun nextdepth _ => ?_
        refine (cInt_noOverflow _).bind fun leftposition _ => ?_
        refine (deref_noOverflow m p).bind fun cur _ => ?_
        refine (ih m nextdepth cur.left leftposition).bind fun m _ => ?_
        refine (cInt_noOverflow _).bind fun rightposition _ => ?_
        refine (deref_noOverflow m p).bind fun cur _ => ?_
        refine (ih m nextdepth cur.right rightposition).bind fun m _ => ?_
        refine (deref_noOverflow m p).bind fun cur _ => ?_
        split
        · exact hashIfRightChild_avoids (.inl rfl) m p
        · exact Avoids.ok m
      · refine (assign_noOverflow m p _).bind fun m _ => ?_
        refine (chunkHash_avoids (.inl rfl) hash position).bind fun h _ => ?_
        exact (assign_noOverflow m p _).bind fun m _ => hashIfRightChild_avoids (.inl rfl) m p

theorem copyExpected_noOverflow (bpkg : BpkgObj) (p : Ptr) (s : Deal) :
    NoOverflow (copyExpected bpkg p s) := by
  unfold copyExpected
  split
  · refine (index_noOverflow bpkg.hashes _).bind fun h _ => ?_
    exact (assign_noOverflow s.mem p _).bind fun mem _ => (cInt_noOverflow _).bind fun next _ =>
      Avoids.ok _
  · refine (index_noOverflow bpkg.chunks _).bind fun c _ => ?_
    exact (assign_noOverflow s.mem p _).bind fun mem _ => (cInt_noOverflow _).bind fun next _ =>
      Avoids.ok _

theorem levelOrderAddHash_noOverflow (fuel : Nat) (root : Ptr) (bpkg : BpkgObj) :
    NoOverflow (levelOrderAddHash fuel m root bpkg) := by
  refine Avoids.bind ?_ fun r _ => Avoids.ok _
  refine whileLoop_avoids (by simp) (fun s => ?_) fuel _
  refine (copyExpected_noOverflow bpkg _ s.1).bind fun d _ => ?_
  exact (deref_noOverflow d.mem _).bind fun cur _ => Avoids.ok _

theorem buildTree_noOverflow (fuel : Nat) (bpkg : BpkgObj) {calculatehash : Run (Option (List Str))}
    (h : NoOverflow calculatehash) : NoOverflow (buildTree fuel m bpkg calculatehash) := by
  refine Avoids.bind ?_ fun depth _ => ?_
  · unfold treeDepth
    split
    · exact Avoids.ok _
    · exact Avoids.error (by simp)
  · refine h.bind fun hash _ => ?_
    refine (recursiveTree_noOverflow fuel _ depth 1 _ 0 hash).bind fun m _ => ?_
    exact (levelOrderAddHash_noOverflow m fuel _ _).bind fun m _ => Avoids.ok _

end Build

/-! ## Hashing the data file -/

/-- The slices of a range can all be absorbed, and add no more to the message than the range is long. -/
theorem hashRange_avoids {e : Abort} (he : e.Structural) (contents : Str) (data : Sha256ComputeData)
    (offset datasize : Int) {m : Str} (h : Absorbed data m) :
    Avoids e (hashRange contents data offset datasize) ∧
      ∀ data', hashRange contents data offset datasize = .ok data' →
        ∃ m', Absorbed data' m' ∧ m'.length ≤ m.length + datasize.toNat := by
  induction hn : datasize.toNat using Nat.strongRecOn generalizing data offset datasize m with
  | ind n ih =>
      rw [hashRange]
      by_cases hpos : 0 < datasize
      · obtain ⟨r, hr, hrpos, hrle, hrn⟩ : ∃ r : Nat,
            (if datasize < 1024 then datasize else 1024) = (r : Int) ∧ 0 < r ∧ r ≤ 1024 ∧
              (r : Int) ≤ datasize := by
          by_cases hlt : datasize < 1024
          · exact ⟨datasize.toNat, by rw [if_pos hlt]; omega, by omega, by omega, by omega⟩
          · exact ⟨1024, by rw [if_neg hlt]; rfl, by omega, by omega, by omega⟩
        rw [dif_pos hpos, hr]
        simp only [Int.toNat_natCast]
        cases hread : readAt contents offset r with
        | error e' =>
            constructor
            · apply he.error
              unfold readAt readBytes at hread
              split at hread
              · cases hread
                simp
              · split at hread
                · cases hread
                · cases hread
                  simp
            · intro data' hrun
              cases hrun
        | ok slice =>
            -- one slice, then the rest of the range
            have hlen : slice.length = r := by
              unfold readAt readBytes at hread
              split at hread
              · cases hread
              · split at hread
                · next hle =>
                    cases hread
                    rw [List.length_take]
                    omega
                · cases hread
            obtain ⟨data₁, hupdate, habs⟩ := @sha256Update_absorbed data m slice h (by omega)
            rw [hlen] at hupdate
            rw [ok_bind]
            show Avoids e (sha256Update data slice r.toUInt32 >>= fun data => _) ∧
              ∀ data', (sha256Update data slice r.toUInt32 >>= fun data => _) = .ok data' → _
            rw [hupdate, ok_bind]
            have hrec := fun o => ih (datasize - r).toNat (by omega) data₁ o (datasize - r) habs rfl
            constructor
            · exact (he.cInt _).bind fun o _ => (hrec o).1
            · intro data' hrun
              obtain ⟨o, _, hrun⟩ := bind_eq_ok.mp hrun
              obtain ⟨m', habs', hle⟩ := (hrec o).2 data' hrun
              refine ⟨m', habs', ?_⟩
              rw [List.length_append] at hle
              omega
      · rw [dif_neg hpos]
        refine ⟨Avoids.ok _, fun data' hrun => ?_⟩
        cases hrun
        exact ⟨m, h, by omega⟩

theorem hashOne_avoids {e : Abort} (he : e.Structural) (contents : Str) (bpkg : BpkgObj) (i : Nat) :
    Avoids e (hashOne contents bpkg i) := by
  refine (index_avoids he bpkg.chunks i).bind fun c _ => ?_
  obtain ⟨hrange, hlen⟩ := hashRange_avoids he contents (sha256ComputeDataInit .local) c.offset.toInt
    c.size.toInt (sha256ComputeDataInit_absorbed .local)
  refine hrange.bind fun data hdata => ?_
  obtain ⟨m, habs, hle⟩ := hlen data hdata
  -- the length of the range is an `int`
  have hmax := toInt_le_intMax c.size
  unfold INT_MAX at hmax
  rw [List.length_nil] at hle
  obtain ⟨data', hfinal, _⟩ := sha256Finalize_absorbed habs (by omega)
  rw [hfinal, ok_bind]
  exact Avoids.ok _

theorem hashChunk_avoids {e : Abort} (he : e.Structural) (pageSize : Nat) (file : DataFile)
    (bpkg : BpkgObj) : Avoids e (hashChunk pageSize file bpkg) := by
  unfold hashChunk
  split
  · exact Avoids.ok _
  · exact Avoids.ok _
  · exact Avoids.ok _
  · split
    · exact (mapM_avoids (hashOne_avoids he _ bpkg) _).bind fun hashes _ => Avoids.ok _
    · exact Avoids.ok _

theorem hashChunk_noOverflow (pageSize : Nat) (file : DataFile) (bpkg : BpkgObj) :
    NoOverflow (hashChunk pageSize file bpkg) := hashChunk_avoids (.inl rfl) pageSize file bpkg

/-! ## Queries and releases -/

theorem emit_noOverflow (bpkg : BpkgObj) (qry : BpkgQuery) (p : Ptr) (expected : Str) :
    NoOverflow (emit bpkg qry p expected) := by
  unfold emit
  split
  · exact Avoids.ok _
  · exact Avoids.error (by simp)

theorem bpkgGetMinCompletedHashes_noOverflow (fuel : Nat) (m : Mem) (bpkg : BpkgObj) :
    NoOverflow (bpkgGetMinCompletedHashes fuel m bpkg) := by
  refine Avoids.bind ?_ fun r _ => Avoids.ok _
  refine whileLoop_avoids (by simp) (fun s => ?_) fuel _
  refine (deref_noOverflow m _).bind fun cur _ => ?_
  refine Avoids.bind ?_ fun same _ => ?_
  · refine (assigned_noOverflow cur.expectedHash).bind fun expected _ => ?_
    exact (assigned_noOverflow cur.computedHash).bind fun computed _ => Avoids.ok _
  · split
    · refine (assigned_noOverflow cur.expectedHash).bind fun expected _ => ?_
      exact (emit_noOverflow bpkg _ _ expected).bind fun qry _ => Avoids.ok _
    · split
      · exact Avoids.ok _
      · exact Avoids.ok _

theorem pushChild_noOverflow (queue : NodeQueue) (node : Ptr) : NoOverflow (queue.pushChild node) := by
  unfold NodeQueue.pushChild
  split
  · exact (appendRecord_noOverflow _ _ _ _).bind fun r _ => Avoids.ok _
  · exact Avoids.ok _

theorem freeTree_noOverflow (fuel : Nat) (m : Mem) (root : Ptr) : NoOverflow (freeTree fuel m root) := by
  refine ((appendRecord_noOverflow _ _ _ _).bind fun r _ => Avoids.ok _).bind fun queue _ => ?_
  refine Avoids.bind ?_ fun r _ => Avoids.ok _
  refine whileLoop_avoids (by simp) (fun s => ?_) fuel _
  obtain ⟨s, queue⟩ := s
  refine Avoids.bind ?_ fun popped _ => ?_
  · unfold NodeQueue.queuePop
    split
    · exact Avoids.ok _
    · exact (load_noOverflow _ _).bind fun object _ => Avoids.ok _
  · refine (deref_noOverflow s.mem popped.1).bind fun cur _ => ?_
    refine Avoids.bind ?_ fun queue _ => ?_
    · exact (pushChild_noOverflow popped.2 cur.left).bind fun queue _ => pushChild_noOverflow queue _
    · refine Avoids.bind ?_ fun s _ => Avoids.ok _
      unfold freeNode
      split
      · exact Avoids.ok _
      · exact (deref_noOverflow s.mem _).bind fun nd _ => Avoids.ok _

end Btide
