import Btide.Base.Ends
import Btide.Package.Add
import Btide.Tree.Overflow

/-!
# `Package.Ends` — loading a package and building its tree come to an end

The loader and `hashChunk` need no fuel. `recursiveTree` needs one unit for each level, whatever array of
hashes it is given (`recursiveTree_ends`). The traversal that hands out the expected hashes is only
reached for a loaded package with two chunks or more, and for these the tree is finished
(`buildTree_ends`).
-/

namespace Btide

open LevelOrder Run

/-! ## The loader -/

section Loader

variable {junk : Junk}

theorem readIdent_needsNoFuel (obj : BpkgObj) (buffer : Str) : NeedsNoFuel (readIdent obj buffer) := by
  refine (assignStr_needsNoFuel _ _ _ _).bind fun w _ => ?_
  split
  · exact Avoids.error (by simp [unableToLoad])
  · exact Avoids.ok _

theorem readNchunks_needsNoFuel (obj : BpkgObj) (buffer : Str) :
    NeedsNoFuel (readNchunks obj buffer) := by
  refine (assignInt_needsNoFuel _ _ _).bind fun n _ => (cInt_needsNoFuel _).bind fun expected _ => ?_
  split
  · exact Avoids.error (by simp [unableToLoad])
  · exact Avoids.ok _

theorem readChunk_needsNoFuel (initial : ChunkInfo) (buffer : Str) :
    NeedsNoFuel (readChunk initial buffer) := by
  refine (assignStr_needsNoFuel _ _ _ _).bind fun w _ => ?_
  refine (sscanf_needsNoFuel _ _).bind fun vs _ => ?_
  split <;> exact Avoids.ok _

theorem eachLine_needsNoFuel {α : Type} {read : Nat → Str → Run α}
    (h : ∀ i buffer, NeedsNoFuel (read i buffer)) (n : Nat) :
    ∀ i buffer file, NeedsNoFuel (eachLine read n i buffer file) := by
  induction n with
  | zero => exact fun _ _ _ => Avoids.ok _
  | succ n ih =>
      intro i buffer file
      cases file with
      | nil => exact (h i buffer).bind fun x _ => (ih _ _ _).bind fun r _ => Avoids.ok _
      | cons line file => exact (h i line).bind fun x _ => (ih _ _ _).bind fun r _ => Avoids.ok _

theorem inPlace_needsNoFuel {read : BpkgObj → Str → Run BpkgObj}
    (h : ∀ obj buffer, NeedsNoFuel (read obj buffer)) (obj : BpkgObj) (buffer : Str) (file : List Str) :
    NeedsNoFuel (inPlace read obj buffer file) := (h obj buffer).bind fun _ _ => Avoids.ok _

theorem onLine_needsNoFuel {step : BpkgObj → Str → List Str → Run (BpkgObj × List Str)}
    {k : BpkgObj → List Str → Run BpkgObj} (hstep : ∀ obj line file, NeedsNoFuel (step obj line file))
    (hk : ∀ obj file, NeedsNoFuel (k obj file)) (obj : BpkgObj) (file : List Str) :
    NeedsNoFuel (onLine step k obj file) := by
  cases file with
  | nil => exact Avoids.ok _
  | cons line file => exact (hstep obj line file).bind fun r _ => hk r.1 r.2

/-- **Loading comes to an end.** -/
theorem bpkgLoad_needsNoFuel (junk : Junk) (path : Option Str) : NeedsNoFuel (bpkgLoad junk path) := by
  cases path with
  | none => exact Avoids.error (by simp [unableToLoad])
  | some contents =>
      rw [bpkgLoad_eq]
      apply onLine_needsNoFuel (inPlace_needsNoFuel readIdent_needsNoFuel)
      apply onLine_needsNoFuel (inPlace_needsNoFuel fun _ _ =>
        (assignStr_needsNoFuel _ _ _ _).bind fun _ _ => Avoids.ok _)
      apply onLine_needsNoFuel (inPlace_needsNoFuel fun _ _ =>
        (assignInt_needsNoFuel _ _ _).bind fun _ _ => Avoids.ok _)
      apply onLine_needsNoFuel (inPlace_needsNoFuel fun _ _ =>
        (assignInt_needsNoFuel _ _ _).bind fun _ _ => Avoids.ok _)
      apply onLine_needsNoFuel fun obj buffer file =>
        (eachLine_needsNoFuel (fun _ _ => assignStr_needsNoFuel _ _ _ _) _ _ _ _).bind fun _ _ =>
          Avoids.ok _
      apply onLine_needsNoFuel (inPlace_needsNoFuel readNchunks_needsNoFuel)
      apply onLine_needsNoFuel fun obj buffer file =>
        (eachLine_needsNoFuel (fun _ _ => readChunk_needsNoFuel _ _) _ _ _ _).bind fun _ _ => Avoids.ok _
      intro obj file
      unfold ignoreRest
      split
      · exact Avoids.ok _
      · exact Avoids.error (by simp)

end Loader

/-! ## The tree -/

theorem outOfFuel_structural : Abort.Structural .outOfFuel := .inr rfl

theorem calculateHash_needsNoFuel (pageSize : Nat) (file : DataFile) (obj : BpkgObj) :
    NeedsNoFuel (calculateHash pageSize file obj) := by
  refine (hashChunk_avoids outOfFuel_structural pageSize file obj).bind fun r _ => ?_
  cases r with
  | ok hashes => exact Avoids.ok _
  | error message => exact Avoids.ok _

/-- A level of the tree takes one unit of fuel. -/
theorem recursiveTree_levels {hash : Option (List Str)} (j : Nat) :
    ∀ m cur currentnode pos,
      NeedsNoFuel (recursiveTree (j + 1) m (cur + j) cur currentnode pos hash) ∧
        ∀ fuel, j + 1 ≤ fuel → recursiveTree fuel m (cur + j) cur currentnode pos hash
          = recursiveTree (j + 1) m (cur + j) cur currentnode pos hash := by
  induction j with
  | zero =>
      intro m cur currentnode pos
      have heq : ¬ cur ≠ cur + ((0 : Nat) : Int) := by omega
      constructor
      · rw [recursiveTree, if_neg heq]
        refine (assign_avoids outOfFuel_structural m _ _).bind fun m _ => ?_
        refine (chunkHash_avoids outOfFuel_structural hash pos).bind fun h _ => ?_
        exact (assign_avoids outOfFuel_structural m _ _).bind fun m _ =>
          hashIfRightChild_avoids outOfFuel_structural m _
      · intro fuel hfuel
        obtain ⟨n, rfl⟩ := Nat.exists_eq_add_of_le' hfuel
        show recursiveTree (n + 0 + 1) _ _ _ _ _ _ = _
        rw [recursiveTree, if_neg heq, recursiveTree, if_neg heq]
  | succ j ih =>
      intro m cur currentnode pos
      have hne : cur ≠ cur + ((j + 1 : Nat) : Int) := by omega
      have hdepth : cur + ((j + 1 : Nat) : Int) = cur + 1 + (j : Int) := by omega
      constructor
      · rw [recursiveTree, if_pos hne, hdepth]
        refine (createChildren_avoids outOfFuel_structural m _).bind fun m _ => ?_
        refine Avoids.bind (cInt_needsNoFuel _) fun nextdepth hnext => ?_
        obtain ⟨rfl, _⟩ := cInt_eq_ok.mp hnext
        refine Avoids.bind (cInt_needsNoFuel _) fun leftposition _ => ?_
        refine (deref_avoids outOfFuel_structural m _).bind fun cur' _ => ?_
        refine (ih m (cur + 1) cur'.left leftposition).1.bind fun m _ => ?_
        refine Avoids.bind (cInt_needsNoFuel _) fun rightposition _ => ?_
        refine (deref_avoids outOfFuel_structural m _).bind fun cur' _ => ?_
        refine (ih m (cur + 1) cur'.right rightposition).1.bind fun m _ => ?_
        refine (deref_avoids outOfFuel_structural m _).bind fun cur' _ => ?_
        split
        · exact hashIfRightChild_avoids outOfFuel_structural m _
        · exact Avoids.ok m
      · intro fuel hfuel
        obtain ⟨n, rfl⟩ := Nat.exists_eq_add_of_le' hfuel
        show recursiveTree (n + (j + 1) + 1) _ _ _ _ _ _ = _
        -- the two calls inside have the fuel they need as well
        have hrec : ∀ m currentnode pos,
            recursiveTree (n + (j + 1)) m (cur + 1 + j) (cur + 1) currentnode pos hash
              = recursiveTree (j + 1) m (cur + 1 + j) (cur + 1) currentnode pos hash :=
          fun m currentnode pos => (ih m (cur + 1) currentnode pos).2 _ (by omega)
        rw [recursiveTree, if_pos hne, recursiveTree, if_pos hne, hdepth]
        congr 1
        funext m
        cases hnext : cInt (cur + 1) with
        | error e => rfl
        | ok nextdepth =>
            obtain ⟨rfl, _⟩ := cInt_eq_ok.mp hnext
            simp only [Run.ok_bind, hrec]

theorem recursiveTree_ends (m : Mem) (cur : Int) (j : Nat) (currentnode : Ptr) (pos : Int)
    (hash : Option (List Str)) :
    Ends fun fuel => recursiveTree fuel m (cur + j) cur currentnode pos hash := by
  obtain ⟨hneeds, hsame⟩ := recursiveTree_levels j m cur currentnode pos
  exact Ends.of_le hsame hneeds

/-- Building a tree comes to an end if it does so with the hashes of at least two chunks. -/
theorem buildTree_ends_of {m : Mem} {bpkg : BpkgObj} {calculatehash : Run (Option (List Str))}
    (hneeds : NeedsNoFuel calculatehash)
    (hfinish : ∀ hashes, calculatehash = .ok (some hashes) → 0 < bpkg.nchunks.toInt →
      (1 ≤ hashes.length → bpkg.nchunks.toInt ≠ 1) →
      ∃ r, Settles (fun fuel => buildTree fuel m bpkg (.ok (some hashes))) (.ok r)) :
    Ends fun fuel => buildTree fuel m bpkg calculatehash := by
  by_cases hpos : 0 < bpkg.nchunks.toInt
  · obtain ⟨n, hn⟩ : ∃ n : Nat, bpkg.nchunks.toInt = n := ⟨_, (Int.toNat_of_nonneg (by omega)).symm⟩
    have hdepth := treeDepth_ok hn (by omega)
    have hlevels : (Nat.log 2 n : Int) + 1 = 1 + (Nat.log 2 n : Int) := Int.add_comm _ _
    cases hcalc : calculatehash with
    | error e =>
        rw [hcalc] at hneeds
        simp only [buildTree, hdepth, Run.ok_bind, Run.error_bind]
        refine Ends.const fun he => hneeds ?_
        cases he
        rfl
    | ok hash =>
        cases hash with
        | none =>
            simp only [buildTree, hdepth, Run.ok_bind, hlevels]
            refine (recursiveTree_ends _ 1 _ _ 0 none).bind fun m₁ hm₁ => ?_
            obtain ⟨fuel, hfuel⟩ := hm₁
            exact absurd (hfuel fuel (Nat.le_refl _)) (recursiveTree_null fuel _ _ _ _ _ _)
        | some hashes =>
            by_cases hone : 1 ≤ hashes.length → bpkg.nchunks.toInt ≠ 1
            · obtain ⟨r, hr⟩ := hfinish hashes hcalc hpos hone
              exact hr.ends
            · obtain ⟨hlen, heq⟩ := Classical.not_imp.mp hone
              have hzero : Nat.log 2 n = 0 := by
                rw [show n = 1 by omega, Nat.log_one_right]
              simp only [buildTree, hdepth, Run.ok_bind, hzero]
              refine ⟨.error .nullDeref, Settles.of_add 1 fun fuel => ?_, Avoids.error (by simp)⟩
              show (recursiveTree (fuel + 1) (initialiseTree m).2 1 1 (some (initialiseTree m).1) 0
                (some hashes) >>= _) = _
              rw [recursiveTree_single m hlen fuel]
              rfl
  · have hdepth : treeDepth bpkg.nchunks = .error .badConversion := if_neg hpos
    simp only [buildTree, hdepth, Run.error_bind]
    exact Ends.const (Avoids.error (by simp))

/-- **Building the tree of a loaded package comes to an end**, whatever the state of the data file. -/
theorem buildTree_ends {junk : Junk} {contents : Str} {obj : BpkgObj}
    (hload : bpkgLoad junk (some contents) = .ok obj) (pageSize : Nat) (file : DataFile) (m : Mem)
    (name : Str) :
    Ends fun fuel => buildTree fuel m { obj with filename := name }
      (calculateHash pageSize file { obj with filename := name }) := by
  refine buildTree_ends_of (calculateHash_needsNoFuel pageSize file _) fun hashes hcalc hpos hone => ?_
  obtain ⟨hlen, data, hfile, hne, heach⟩ := hashChunk_eq_ok (calculateHash_eq_some.mp hcalc)
  have hpos : 0 < obj.nchunks.toInt := hpos
  have hlen : hashes.length = obj.nchunks.toInt.toNat := hlen
  have hone : obj.nchunks.toInt ≠ 1 := hone (by omega)
  obtain ⟨cs, _, hcs, _⟩ := heach 0 (by show 0 < obj.nchunks.toInt.toNat; omega)
  have hcs : obj.chunks = some cs := hcs
  have hn := loaded_nchunks hload hcs
  obtain ⟨hs, hlists, hcount⟩ := loaded_lists hload hcs (by omega)
  -- two levels at least, and an expected hash for every node
  have hlog : 1 ≤ Nat.log 2 cs.length := Nat.log_pos (by omega) (by omega)
  have hle : 2 ^ Nat.log 2 cs.length ≤ cs.length := Nat.pow_log_le_self 2 (by omega)
  have hpow := Nat.pow_succ 2 (Nat.log 2 cs.length)
  have hhashes : 2 ^ Nat.log 2 cs.length ≤ hashes.length := by omega
  have henough : 2 ^ (Nat.log 2 cs.length + 1) - 1 ≤ (listed hs cs).length := by
    rw [listed, List.length_append, List.length_map]
    omega
  have hlists' : { obj with filename := name }.Lists hs cs :=
    ⟨hlists.hashes, hlists.chunks, hlists.nhashes, hlists.nchunks⟩
  obtain ⟨m', node, _, _, hrun⟩ := buildTree_allocates m hlists' rfl hlog hhashes henough
  exact ⟨_, hrun⟩

end Btide
