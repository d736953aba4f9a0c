import Btide.Chk.FieldSizes
import Btide.Package.Ends

/-!
# `Chk.Pkgmain` — the package checker (`pkgmain.c`)

`pkgmain` loads a package, gives it a tree from the data file and prints the answer to one query.
`report` is that answer as a function of the package and of the computed chunk hashes; it knows neither
memory nor queues. `pkgmain_answers` says that the program prints it, and that no tree node is left in
memory at the end; `pkgmain_returns_iff` says for which package and data files the program gets that far.

The query `-file_check` is answered without a tree. It may create the data file, and the queries that
follow then run on the new one (`fileCheck_prepares`).
-/

namespace Btide

open LevelOrder

/-! ## The arguments -/

/-- The queries that need the tree; `hashesOf` carries what `harg` receives. -/
inductive Query
  | allHashes
  | chunkCheck
  | minHashes
  | hashesOf (harg : Str)
  | getRoot
deriving DecidableEq

/-- The values of `argselect` other than 0. -/
inductive Flag
  | query (q : Query)
  | fileCheck
deriving DecidableEq

/-- `argv[i]`; the entry behind the last argument is NULL. -/
def argvAt (argv : List Str) (i : Nat) : Run (Option Str) :=
  if i ≤ argv.length then .ok argv[i]? else .error .outOfBounds

/-- `arg_select`; `none` is 0. -/
def argSelect (argv : List Str) : Run (Option Flag) := do
  -- the flag is fetched before the arguments are counted
  match ← argvAt argv 2 with
  | none => .error (.exit (bytes "bpkg or flag not provided\n") 1)
  | some cursor =>
    if cursor = bytes "-all_hashes" then .ok (some (.query .allHashes))
    else if cursor = bytes "-chunk_check" then .ok (some (.query .chunkCheck))
    else if cursor = bytes "-min_hashes" then .ok (some (.query .minHashes))
    else if cursor = bytes "-hashes_of" then do
      match ← argvAt argv 3 with
      | none => .error (.exit (bytes "filename not provided\n") 1)
      | some hash => .ok (some (.query (.hashesOf (hash.take SHA256_HEX_LEN))))
    else if cursor = bytes "-file_check" then .ok (some .fileCheck)
    else if cursor = bytes "-get_root" then .ok (some (.query .getRoot))
    else .ok none

/-! ## The program -/

/-- The lines that `bpkg_print_hashes` prints. -/
def printed (hashes : List Str) : Str := hashes.flatMap fun h => h.take SHA256_HEX_LEN ++ bytes "\n"

def bpkgPrintHashes (qry : BpkgQuery) : Str := printed qry.hashes

/-- `bpkg_file_check`: its answer, and the data file afterwards. -/
def bpkgFileCheck (bpkg : BpkgObj) (file : DataFile) : BpkgQuery × DataFile :=
  match file with
  | .present stat map contents =>
    ({ hashes := [bytes "File Exists"], nodes := [] }, .present stat map contents)
  | file => ({ hashes := [bytes "File created"], nodes := [] }, makeFile bpkg file)

/-- `bpkg_obj_destroy` follows the two array pointers, assigned or not, and reads a pointer for every
    hash. -/
def bpkgObjDestroy (obj : BpkgObj) : Run Unit := do
  let _ ← assigned obj.chunks
  let hashes ← assigned obj.hashes
  let _ ← (List.range obj.nhashes.toInt.toNat).mapM fun i => index (some hashes) i
  .ok ()

/-- What `pkgmain` prints for a query, once the tree has been built. -/
def answer (fuel : Nat) (mem : Mem) (obj : BpkgObj) : Query → Run Str
  | .allHashes => do
    let qry ← bpkgGetAllHashes obj
    .ok (bpkgPrintHashes qry)
  | .chunkCheck => do
    let qry ← bpkgGetCompletedChunks fuel mem obj
    .ok (bpkgPrintHashes qry)
  | .minHashes => do
    let qry ← bpkgGetMinCompletedHashes fuel mem obj
    .ok (bpkgPrintHashes qry)
  | .hashesOf hash => do
    let qry ← bpkgGetAllChunkHashesFromHash fuel mem obj hash
    .ok (bpkgPrintHashes qry)
  | .getRoot => do
    let root ← mem.deref obj.tree
    let computedHash ← assigned root.computedHash
    .ok (computedHash ++ bytes "\n")

/-- How the program ends: the value that `main` returns, what has been printed, the tree nodes still in
    memory and the files. -/
structure Finished where
  status : Int
  output : Str
  mem : Mem
  files : Files

/-- `main` of `pkgmain.c`. The loader does not return NULL. -/
def pkgmain (fuel pageSize : Nat) (junk : Junk) (argv : List Str) (files : Files) : Run Finished := do
  match ← argSelect argv with
  | none => .ok { status := 0, output := [], mem := .empty, files := files }
  | some flag =>
    match ← argvAt argv 1 with
    | none => .error .nullDeref
    | some path => do
      let obj ← bpkgLoad junk (files.text path)
      match flag with
      | .fileCheck =>
        let (qry, file) := bpkgFileCheck obj (files.data obj.filename)
        bpkgObjDestroy obj
        .ok
          { status := 1
            output := bpkgPrintHashes qry
            mem := .empty
            files := files.setData obj.filename file }
      | .query q => do
        let calculatehash := calculateHash pageSize (files.data obj.filename) obj
        let (mem, obj) ← buildTree fuel .empty obj calculatehash
        let output ← answer fuel mem obj q
        bpkgObjDestroy obj
        let freed ← freeTree fuel mem obj.tree
        .ok { status := 0, output := output, mem := freed.mem, files := files }

/-! ## What is printed -/

/-- The first node in level order with the expected hash `hash`. -/
def firstWith (k : Nat) (exp : Nat → Str) (hash : Str) : Option Nat :=
  (List.range' 1 (2 ^ (k + 1) - 1)).find? fun n => (exp n).take 64 = hash.take 64

/-- The answer to a query about a package with the hashes `hs` and the chunks `cs`, whose data have the
    hashes `hashes`. -/
def report (hs : List Str) (cs : List ChunkInfo) (hashes : List Str) : Query → List Str
  | .allHashes => listed hs cs
  | .chunkCheck =>
    let k := Nat.log 2 cs.length
    ((List.range' (2 ^ k) (2 ^ k)).filter fun n =>
      Agree (computed k hashes) (expected hs cs) n).map (expected hs cs)
  | .minHashes =>
    let k := Nat.log 2 cs.length
    (topmost k (Agree (computed k hashes) (expected hs cs))).map (expected hs cs)
  | .hashesOf hash =>
    let k := Nat.log 2 cs.length
    match firstWith k (expected hs cs) hash with
    | none => []
    | some v => (leavesUnder k v).map (expected hs cs)
  | .getRoot => [computed (Nat.log 2 cs.length) hashes 1]

theorem firstWith_eq_some {k v : Nat} {exp : Nat → Str} {hash : Str}
    (h : firstWith k exp hash = some v) :
    IsNode k v ∧ (exp v).take 64 = hash.take 64 ∧
      ∀ w, IsNode k w → w < v → (exp w).take 64 ≠ hash.take 64 := by
  obtain ⟨hv, hmem, hfirst⟩ := List.find?_range'_eq_some.mp h
  refine ⟨mem_range_isNode hmem, of_decide_eq_true hv, fun w hw hlt he => ?_⟩
  have hnot := hfirst w hw.1 hlt
  rw [he] at hnot
  simp at hnot

theorem firstWith_eq_none {k w : Nat} {exp : Nat → Str} {hash : Str}
    (h : firstWith k exp hash = none) (hw : IsNode k w) : (exp w).take 64 ≠ hash.take 64 := by
  have hlt := hw.2
  have hnot := List.find?_range'_eq_none.mp h w hw.1 (by omega)
  intro he
  rw [he] at hnot
  simp at hnot

theorem printed_append (xs ys : List Str) : printed (xs ++ ys) = printed xs ++ printed ys :=
  List.flatMap_append

theorem printed_take {α : Type} (vs : List α) (exp : α → Str) :
    printed (vs.map fun n => (exp n).take 64) = printed (vs.map exp) := by
  simp only [printed, List.flatMap_map, SHA256_HEX_LEN, List.take_take, Nat.min_self]

section Answer

variable {k : Nat} {mem : Mem} {root : Addr} {node : Nat → Nat} {bpkg : BpkgObj} {hs : List Str}
  {cs : List ChunkInfo} {hashes : List Str}

/-- **Each query prints its report**, on the tree that `buildTree` has built. -/
theorem answer_settles (hk : Nat.log 2 cs.length = k) (hpos : 0 < cs.length)
    (ht : Labelled k (computed k hashes) (expected hs cs) mem root node) (htree : bpkg.tree = some root)
    (hlists : bpkg.Lists hs cs) (q : Query)
    (hall : q = .allHashes → Listable hs cs) :
    Settles (fun fuel => answer fuel mem bpkg q) (.ok (printed (report hs cs hashes q))) := by
  subst hk
  have hcap : (2 ^ Nat.log 2 cs.length : Nat) ≤ bpkg.nchunks.toInt := by
    have hle : 2 ^ Nat.log 2 cs.length ≤ cs.length := Nat.pow_log_le_self 2 (by omega)
    rw [hlists.nchunks]
    exact_mod_cast hle
  cases q with
  | allHashes =>
      have hrun := bpkgGetAllHashes_lists hlists (hall rfl)
      have htext : printed (hs ++ cs.map fun c => c.hashvalue.take 64)
          = printed (report hs cs hashes .allHashes) := by
        simp only [report, listed, printed_append, printed_take cs ChunkInfo.hashvalue]
      simp only [answer, hrun, Run.ok_bind, bpkgPrintHashes, htext]
      exact Settles.const _
  | chunkCheck =>
      have hrun := (bpkgGetCompletedChunks_settles bpkg ht htree hcap).map bpkgPrintHashes
      simp only [collected, bpkgPrintHashes, printed_take] at hrun
      exact hrun
  | minHashes =>
      have hrun := (bpkgGetMinCompletedHashes_settles bpkg ht htree hcap).map bpkgPrintHashes
      simp only [bpkgPrintHashes, printed_take] at hrun
      exact hrun
  | hashesOf hash =>
      cases hfind : firstWith (Nat.log 2 cs.length) (expected hs cs) hash with
      | none =>
          have hnone := fun w (hw : IsNode _ w) => firstWith_eq_none hfind hw
          have hrun := (bpkgGetAllChunkHashesFromHash_none bpkg ht htree hnone).map bpkgPrintHashes
          simp only [report, hfind]
          exact hrun
      | some v =>
          obtain ⟨hv, hmatch, hfirst⟩ := firstWith_eq_some hfind
          have hrun := (bpkgGetAllChunkHashesFromHash_settles bpkg ht htree hcap hv hmatch hfirst).map
            bpkgPrintHashes
          simp only [bpkgPrintHashes, printed_take] at hrun
          simp only [report, hfind]
          exact hrun
  | getRoot =>
      obtain ⟨nd, hnd, hb, _⟩ := ht.nodes 1 isNode_root
      have hderef : mem.deref bpkg.tree = .ok nd := by
        rw [htree, ← ht.linked.root]
        exact Mem.deref_ok hnd
      have hlen : (computed (Nat.log 2 cs.length) hashes 1).length ≤ SHA256_HEX_LEN :=
        computed_length_le.resolve_right fun h => h isNode_root
      simp only [answer, hderef, Run.ok_bind, hb.computed, assigned]
      have htext : printed (report hs cs hashes .getRoot)
          = computed (Nat.log 2 cs.length) hashes 1 ++ bytes "\n" := by
        simp only [report, printed, List.flatMap_cons, List.flatMap_nil, List.append_nil]
        rw [List.take_of_length_le hlen]
      rw [htext]
      exact Settles.const _

end Answer

/-! ## A run -/

/-- What a run with the query `q` needs of the loaded package and of its data file: at least two chunks,
    contents that can be mapped, a range of the mapping for every chunk; and to list all hashes, hashes
    that can be copied and a sum of the counters that is an `int`. -/
structure Answerable (pageSize : Nat) (obj : BpkgObj) (file : DataFile) (q : Query) (hs : List Str)
    (cs : List ChunkInfo) (data : Str) : Prop where
  lists : obj.Lists hs cs
  two : 2 ≤ cs.length
  file : file = .present true true data
  nonempty : data ≠ []
  hashable : ∀ c ∈ cs, c.Hashable (mapping pageSize data).length
  listing : q = .allHashes → Listable hs cs

/-- The command line `pkgmain p.bpkg flag`. -/
def commandLine (flag : Str) : List Str := [bytes "pkgmain", bytes "p.bpkg", flag]

theorem two_le_intMax : ((1 + 1 : Nat) : Int) ≤ INT_MAX := by decide

/-- A package with two chunks, and its data file. -/
def uniformFiles (file : DataFile) : Files where
  text := fun _ => some (Package.uniform 1 two_le_intMax).write
  data := fun _ => file

theorem uniformFiles_answerable (q : Query) :
    Answerable 4096 (Package.uniform 1 two_le_intMax).obj (.present true true (List.replicate 8 0)) q
      (List.replicate 1 (List.replicate 64 48)) (List.replicate 2 ⟨List.replicate 64 48, 0, 8⟩)
      (List.replicate 8 0) := by
  refine ⟨⟨rfl, rfl, by decide, by decide⟩, by decide, rfl, by decide, fun c hc => ?_,
    fun _ => ⟨by decide, by decide⟩⟩
  rw [List.eq_of_mem_replicate hc]
  have hlen : 8 ≤ (mapping 4096 (List.replicate 8 0)).length :=
    length_le_mapping 4096 (List.replicate 8 0)
  exact Or.inr ⟨by decide, Int.ofNat_le.mpr hlen, by decide⟩

section Pkgmain

variable {pageSize : Nat} {junk : Junk} {argv : List Str} {files : Files} {path contents : Str}
  {obj : BpkgObj} {q : Query} {hs : List Str} {cs : List ChunkInfo} {data : Str}

/-- A flag is only selected behind a path. -/
theorem argSelect_path {flag : Flag} (h : argSelect argv = .ok (some flag)) :
    ∃ path, argvAt argv 1 = .ok (some path) ∧ argv[1]? = some path := by
  obtain ⟨cursor, hcursor, h⟩ := Run.bind_eq_ok.mp h
  unfold argvAt at hcursor
  split at hcursor
  · cases hcursor
    cases hget : argv[2]? with
    | none =>
        rw [hget] at h
        cases h
    | some w =>
        have hlen : 2 < argv.length := (List.getElem?_eq_some_iff.mp hget).1
        have hone : argv[1]? = some argv[1] := List.getElem?_eq_getElem (by omega)
        refine ⟨argv[1], ?_, hone⟩
        rw [argvAt, if_pos (by omega), hone]
  · cases hcursor

/-- A run with a query, once its arguments have been read. -/
theorem pkgmain_query (hsel : argSelect argv = .ok (some (.query q))) (hpath : argv[1]? = some path)
    (fuel : Nat) :
    pkgmain fuel pageSize junk argv files
      = (bpkgLoad junk (files.text path) >>= fun obj =>
          buildTree fuel .empty obj (calculateHash pageSize (files.data obj.filename) obj) >>= fun r =>
          answer fuel r.1 r.2 q >>= fun output =>
          bpkgObjDestroy r.2 >>= fun _ =>
          freeTree fuel r.1 r.2.tree >>= fun freed =>
          .ok { status := 0, output := output, mem := freed.mem, files := files }) := by
  obtain ⟨p, hp, hget⟩ := argSelect_path hsel
  rw [hpath] at hget
  cases hget
  unfold pkgmain
  rw [hsel, Run.ok_bind]
  show (argvAt argv 1 >>= fun x => _) = _
  rw [hp, Run.ok_bind]

theorem bpkgObjDestroy_ok (hcs : obj.chunks = some cs) (hhs : obj.hashes = some hs)
    (hlen : hs.length = obj.nhashes.toInt.toNat) : bpkgObjDestroy obj = .ok () := by
  have hread : ∀ i (hi : i < hs.length), index (some hs) i = .ok hs[i] :=
    fun i hi => index_ok (List.getElem?_eq_getElem hi)
  have hrun := mapM_range (g := id) hs hread
  rw [bpkgObjDestroy, hcs, hhs, ← hlen]
  show ((List.range hs.length).mapM (fun i => index (some hs) i) >>= fun _ => _) = _
  rw [hrun]
  rfl

/-- A run with a file check. -/
theorem pkgmain_fileCheck (hsel : argSelect argv = .ok (some .fileCheck)) (hpath : argv[1]? = some path)
    (hload : bpkgLoad junk (files.text path) = .ok obj) (hdestroy : bpkgObjDestroy obj = .ok ())
    (fuel : Nat) :
    pkgmain fuel pageSize junk argv files
      = .ok
          { status := 1
            output := bpkgPrintHashes (bpkgFileCheck obj (files.data obj.filename)).1
            mem := .empty
            files := files.setData obj.filename (bpkgFileCheck obj (files.data obj.filename)).2 } := by
  obtain ⟨p, hp, hget⟩ := argSelect_path hsel
  rw [hpath] at hget
  cases hget
  unfold pkgmain
  rw [hsel, Run.ok_bind]
  show (argvAt argv 1 >>= fun x => _) = _
  rw [hp, Run.ok_bind]
  show (bpkgLoad junk (files.text path) >>= fun obj => _) = _
  rw [hload, Run.ok_bind]
  show (bpkgObjDestroy obj >>= fun _ => _) = _
  rw [hdestroy]
  rfl

/-- The tree of a package that can be answered about. -/
theorem Answerable.built {file : DataFile} (h : Answerable pageSize obj file q hs cs data)
    (hlen : cs.length ≤ hs.length + 1) :
    ∃ mem root node,
      Labelled (Nat.log 2 cs.length)
        (computed (Nat.log 2 cs.length) (fileHashes pageSize data cs)) (expected hs cs) mem root node ∧
      (∀ v w, IsNode (Nat.log 2 cs.length) v → IsNode (Nat.log 2 cs.length) w → node v = node w →
        v = w) ∧
      (∀ b, (∀ w, IsNode (Nat.log 2 cs.length) w → node w ≠ b) → mem.nodes.cells b = none) ∧
      Settles (fun fuel => buildTree fuel .empty obj (calculateHash pageSize file obj))
        (.ok (mem, { obj with tree := some root })) := by
  have hchunk := @hashChunk_ok pageSize data obj cs h.lists.chunks h.lists.nchunks h.nonempty h.hashable
  have hcalc := calculateHash_eq_some.mpr hchunk
  have htwo := h.two
  have hlog : 1 ≤ Nat.log 2 cs.length := Nat.log_pos (by omega) htwo
  have hle : 2 ^ Nat.log 2 cs.length ≤ cs.length := Nat.pow_log_le_self 2 (by omega)
  have hpow := Nat.pow_succ 2 (Nat.log 2 cs.length)
  have hhashes : 2 ^ Nat.log 2 cs.length ≤ (fileHashes pageSize data cs).length := by
    rw [fileHashes, List.length_map]
    exact hle
  have henough : 2 ^ (Nat.log 2 cs.length + 1) - 1 ≤ (listed hs cs).length := by
    rw [listed, List.length_append, List.length_map]
    omega
  obtain ⟨mem, node, hbuilt, hall, hrun⟩ :=
    buildTree_allocates Mem.empty h.lists rfl hlog hhashes henough
  refine ⟨mem, _, node, hbuilt.labelled, hbuilt.inj, fun b hb => ?_, ?_⟩
  · -- every address in use is that of a node of the tree
    have hfree : ¬ (Mem.empty.nodes.next ≤ b ∧ b < mem.nodes.next) := by
      intro hrange
      obtain ⟨w, hw, he⟩ := (hall.2 b).mp hrange
      exact hb w hw he
    have hge : mem.nodes.next ≤ b := by
      have hzero : Mem.empty.nodes.next = 0 := rfl
      omega
    exact mem.nodes.fresh b hge
  · rw [h.file, hcalc]
    exact hrun

/-- The loader's check of the counters. -/
theorem Answerable.length_le {file : DataFile} (h : Answerable pageSize obj file q hs cs data)
    (hload : bpkgLoad junk (some contents) = .ok obj) : cs.length ≤ hs.length + 1 := by
  have htwo : (2 : Int) ≤ obj.nchunks.toInt := by
    rw [h.lists.nchunks]
    exact_mod_cast h.two
  obtain ⟨hs', hlists, hlen⟩ := loaded_lists hload h.lists.chunks htwo
  have heq : hs' = hs := Option.some.inj (hlists.hashes.symm.trans h.lists.hashes)
  rw [heq] at hlen
  exact Nat.le_of_eq hlen

/-- Building the tree changes nothing else of the object. -/
theorem buildTree_object {fuel : Nat} {m : Mem} {calculatehash : Run (Option (List Str))}
    {r : Mem × BpkgObj} (h : buildTree fuel m obj calculatehash = .ok r) :
    ∃ root, r.2 = { obj with tree := some root } := by
  obtain ⟨_, _, h⟩ := Run.bind_eq_ok.mp h
  obtain ⟨_, _, h⟩ := Run.bind_eq_ok.mp h
  obtain ⟨_, _, h⟩ := Run.bind_eq_ok.mp h
  obtain ⟨_, _, h⟩ := Run.bind_eq_ok.mp h
  cases h
  exact ⟨_, rfl⟩

/-- A package that can be answered about, and the run. -/
theorem pkgmain_settles (hsel : argSelect argv = .ok (some (.query q)))
    (hpath : argv[1]? = some path) (htext : files.text path = some contents)
    (hload : bpkgLoad junk (some contents) = .ok obj)
    (h : Answerable pageSize obj (files.data obj.filename) q hs cs data) :
    ∃ mem : Mem, (∀ b, mem.nodes.cells b = none) ∧
      Settles (fun fuel => pkgmain fuel pageSize junk argv files)
        (.ok
          { status := 0
            output := printed (report hs cs (fileHashes pageSize data cs) q)
            mem := mem
            files := files }) := by
  obtain ⟨mem, root, node, htree, hinj, hnone, hbuild⟩ := h.built (h.length_le hload)
  have htwo := h.two
  have hlists := h.lists.withTree (some root)
  have hanswer := answer_settles rfl (by omega) htree rfl hlists q h.listing
  have hdestroy := bpkgObjDestroy_ok hlists.chunks hlists.hashes
    (by rw [hlists.nhashes, Int.toNat_natCast])
  obtain ⟨freed, hfree, hgone, hrest⟩ := htree.freeTree hinj
  refine ⟨freed.mem, fun b => ?_, ?_⟩
  · by_cases hb : ∃ w, IsNode (Nat.log 2 cs.length) w ∧ node w = b
    · obtain ⟨w, hw, rfl⟩ := hb
      exact hgone w hw
    · have hne : ∀ w, IsNode (Nat.log 2 cs.length) w → node w ≠ b := fun w hw he => hb ⟨w, hw, he⟩
      rw [hrest b hne]
      exact hnone b hne
  · simp only [pkgmain_query hsel hpath, htext, hload, Run.ok_bind]
    refine hbuild.bind ?_
    refine hanswer.bind ?_
    rw [hdestroy]
    exact hfree.map fun freed => Finished.mk 0 _ freed.mem files

/-- A tree is built only for a package and a data file that are as required. -/
theorem buildTree_needs {fuel : Nat} {file : DataFile} {r : Mem × BpkgObj}
    (hload : bpkgLoad junk (some contents) = .ok obj)
    (h : buildTree fuel .empty obj (calculateHash pageSize file obj) = .ok r) :
    ∃ hs cs data, Answerable pageSize obj file .getRoot hs cs data := by
  obtain ⟨hpos, hashes, hcalc, hone⟩ := buildTree_returns h
  obtain ⟨hlen, data, hfile, hne, heach⟩ := hashChunk_eq_ok (calculateHash_eq_some.mp hcalc)
  have hone := hone (by omega)
  obtain ⟨cs, _, hcs, _⟩ := heach 0 (by omega)
  have hn := loaded_nchunks hload hcs
  obtain ⟨hs, hlists, _⟩ := loaded_lists hload hcs (by omega)
  refine ⟨hs, cs, data, hlists, by omega, hfile, hne, fun c hc => ?_, fun hq => by cases hq⟩
  obtain ⟨i, hi, rfl⟩ := List.getElem_of_mem hc
  obtain ⟨cs', c', hcs', hget, hhash⟩ := heach i (by omega)
  rw [hcs] at hcs'
  cases hcs'
  rw [List.getElem?_eq_getElem hi] at hget
  cases hget
  exact hhash

/-- A run returns only if the package and its data file are as required. -/
theorem pkgmain_needs {fuel : Nat} {r : Finished} (hsel : argSelect argv = .ok (some (.query q)))
    (hpath : argv[1]? = some path) (h : pkgmain fuel pageSize junk argv files = .ok r) :
    ∃ contents obj hs cs data, files.text path = some contents ∧
      bpkgLoad junk (some contents) = .ok obj ∧
      Answerable pageSize obj (files.data obj.filename) q hs cs data := by
  rw [pkgmain_query hsel hpath] at h
  obtain ⟨obj, hload, h⟩ := Run.bind_eq_ok.mp h
  obtain ⟨⟨mem, obj'⟩, hbuild, h⟩ := Run.bind_eq_ok.mp h
  obtain ⟨output, hanswer, _⟩ := Run.bind_eq_ok.mp h
  cases htext : files.text path with
  | none =>
      rw [htext] at hload
      cases hload
  | some contents =>
      rw [htext] at hload
      obtain ⟨hs, cs, data, hneeds⟩ := buildTree_needs hload hbuild
      refine ⟨contents, obj, hs, cs, data, rfl, hload, hneeds.lists, hneeds.two, hneeds.file,
        hneeds.nonempty, hneeds.hashable, ?_⟩
      rintro rfl
      obtain ⟨root, hobj⟩ := buildTree_object hbuild
      have hlists : obj'.Lists hs cs := by
        rw [show obj' = { obj with tree := some root } from hobj]
        exact hneeds.lists.withTree _
      obtain ⟨qry, hqry, _⟩ := Run.bind_eq_ok.mp hanswer
      exact listable_of_bpkgGetAllHashes hlists hqry

/-- **The program answers.** What it prints is the report on the package and the data file; it returns 0,
    changes no file, and has released every tree node. -/
theorem pkgmain_answers (hsel : argSelect argv = .ok (some (.query q)))
    (hpath : argv[1]? = some path) (htext : files.text path = some contents)
    (hload : bpkgLoad junk (some contents) = .ok obj)
    (h : Answerable pageSize obj (files.data obj.filename) q hs cs data) :
    ∃ r, Settles (fun fuel => pkgmain fuel pageSize junk argv files) (.ok r) ∧ r.status = 0 ∧
      r.output = printed (report hs cs (fileHashes pageSize data cs) q) ∧ r.files = files ∧
      ∀ b, r.mem.nodes.cells b = none := by
  obtain ⟨mem, hmem, hrun⟩ := pkgmain_settles hsel hpath htext hload h
  exact ⟨_, hrun, rfl, rfl, rfl, hmem⟩

theorem pkgmain_answers_uniform :
    ∃ r, Settles (fun fuel => pkgmain fuel 4096 default (commandLine (bytes "-min_hashes"))
        (uniformFiles (.present true true (List.replicate 8 0)))) (.ok r) ∧ r.status = 0 ∧
      r.output = printed (report (List.replicate 1 (List.replicate 64 48))
        (List.replicate 2 ⟨List.replicate 64 48, 0, 8⟩)
        (fileHashes 4096 (List.replicate 8 0) (List.replicate 2 ⟨List.replicate 64 48, 0, 8⟩))
        .minHashes) ∧
      r.files = uniformFiles (.present true true (List.replicate 8 0)) ∧
      ∀ b, r.mem.nodes.cells b = none :=
  pkgmain_answers (by decide) rfl rfl (Package.uniform_load default 1 two_le_intMax)
    (uniformFiles_answerable .minHashes)

/-- **When the program answers.** -/
theorem pkgmain_returns_iff (hsel : argSelect argv = .ok (some (.query q)))
    (hpath : argv[1]? = some path) :
    (∃ r, Settles (fun fuel => pkgmain fuel pageSize junk argv files) (.ok r)) ↔
      ∃ contents obj hs cs data, files.text path = some contents ∧
        bpkgLoad junk (some contents) = .ok obj ∧
        Answerable pageSize obj (files.data obj.filename) q hs cs data := by
  constructor
  · rintro ⟨r, n, hn⟩
    exact pkgmain_needs hsel hpath (hn n (Nat.le_refl n))
  · rintro ⟨contents, obj, hs, cs, data, htext, hload, h⟩
    obtain ⟨_, _, hrun⟩ := pkgmain_settles hsel hpath htext hload h
    exact ⟨_, hrun⟩

theorem pkgmain_returns_iff_uniform :
    (∃ r, Settles (fun fuel => pkgmain fuel 4096 default (commandLine (bytes "-get_root"))
        (uniformFiles (.absent true true))) (.ok r)) ↔
      ∃ contents obj hs cs data,
        (uniformFiles (.absent true true)).text (bytes "p.bpkg") = some contents ∧
        bpkgLoad default (some contents) = .ok obj ∧
        Answerable 4096 obj ((uniformFiles (.absent true true)).data obj.filename) .getRoot hs cs data :=
  pkgmain_returns_iff (by decide) rfl

/-! ## Every run comes to an end -/

theorem argvAt_needsNoFuel (argv : List Str) (i : Nat) : NeedsNoFuel (argvAt argv i) := by
  unfold argvAt
  split
  · exact Run.Avoids.ok _
  · exact Run.Avoids.error (by simp)

theorem argSelect_needsNoFuel (argv : List Str) : NeedsNoFuel (argSelect argv) := by
  refine (argvAt_needsNoFuel argv 2).bind fun cursor _ => ?_
  cases cursor with
  | none => exact Run.Avoids.error (by simp)
  | some cursor =>
      show NeedsNoFuel (ite _ _ _)
      split_ifs
      all_goals first
        | exact Run.Avoids.ok _
        | skip
      refine (argvAt_needsNoFuel argv 3).bind fun hash _ => ?_
      cases hash with
      | none => exact Run.Avoids.error (by simp)
      | some hash => exact Run.Avoids.ok _

theorem bpkgObjDestroy_needsNoFuel (obj : BpkgObj) : NeedsNoFuel (bpkgObjDestroy obj) := by
  refine (assigned_avoids outOfFuel_structural obj.chunks).bind fun _ _ => ?_
  refine (assigned_avoids outOfFuel_structural obj.hashes).bind fun hashes _ => ?_
  exact (mapM_avoids (index_avoids outOfFuel_structural (some hashes)) _).bind fun _ _ => Run.Avoids.ok _

theorem bpkgGetAllHashes_needsNoFuel (obj : BpkgObj) : NeedsNoFuel (bpkgGetAllHashes obj) := by
  refine Run.Avoids.bind (cInt_needsNoFuel _) fun _ _ => ?_
  refine Run.Avoids.bind (mapM_avoids (fun i => ?_) _) fun hashes _ => ?_
  · exact (index_avoids outOfFuel_structural obj.hashes i).bind fun h _ => storeStr_needsNoFuel _ h
  · refine Run.Avoids.bind (mapM_avoids (fun i => ?_) _) fun chunkhashes _ => Run.Avoids.ok _
    refine Run.Avoids.bind (cInt_needsNoFuel _) fun count _ => ?_
    refine (index_avoids outOfFuel_structural obj.chunks i).bind fun c _ => ?_
    split
    · exact Run.Avoids.ok _
    · exact Run.Avoids.error (by simp)

/-- What follows once the tree has been built comes to an end. -/
theorem ends_after_buildTree {file : DataFile} {r : Mem × BpkgObj}
    (hload : bpkgLoad junk (some contents) = .ok obj)
    (hbuild : Settles (fun fuel => buildTree fuel .empty obj (calculateHash pageSize file obj))
      (.ok r)) :
    Ends (fun fuel => answer fuel r.1 r.2 q) ∧ Ends fun fuel => freeTree fuel r.1 r.2.tree := by
  obtain ⟨hs, cs, data, hneeds⟩ : ∃ hs cs data, Answerable pageSize obj file .getRoot hs cs data := by
    obtain ⟨n, hn⟩ := hbuild
    exact buildTree_needs hload (hn n (Nat.le_refl n))
  obtain ⟨mem, root, node, htree, hinj, _, hrun⟩ := hneeds.built (hneeds.length_le hload)
  cases hbuild.unique hrun
  constructor
  · by_cases hq : q = .allHashes
    · subst hq
      exact Ends.const ((bpkgGetAllHashes_needsNoFuel _).bind fun qry _ => Run.Avoids.ok _)
    · have hlists := hneeds.lists.withTree (some root)
      have htwo := hneeds.two
      exact (answer_settles rfl (by omega) htree rfl hlists q fun he => absurd he hq).ends
  · obtain ⟨freed, hfree, _⟩ := htree.freeTree hinj
    exact hfree.ends

/-- **The package checker always comes to an end**: whatever the arguments, the files and the memory, it
    returns, exits or is stopped, and no loop or recursion of it goes on for ever. -/
theorem pkgmain_ends (pageSize : Nat) (junk : Junk) (argv : List Str) (files : Files) :
    Ends fun fuel => pkgmain fuel pageSize junk argv files := by
  have hargs := argSelect_needsNoFuel argv
  cases hsel : argSelect argv with
  | error e =>
      simp only [pkgmain, hsel, Run.error_bind]
      refine Ends.const fun he => hargs ?_
      cases he
      exact hsel
  | ok selected =>
      cases selected with
      | none =>
          simp only [pkgmain, hsel, Run.ok_bind]
          exact (Settles.const _).ends
      | some flag =>
          obtain ⟨path, hargv, hpath⟩ := argSelect_path hsel
          have hloads := bpkgLoad_needsNoFuel junk (files.text path)
          cases flag with
          | fileCheck =>
              simp only [pkgmain, hsel, Run.ok_bind, hargv]
              refine Ends.const (hloads.bind fun obj _ => ?_)
              exact (bpkgObjDestroy_needsNoFuel obj).bind fun _ _ => Run.Avoids.ok _
          | query q =>
              simp only [pkgmain_query hsel hpath]
              refine Ends.after hloads fun obj hload => ?_
              cases htext : files.text path with
              | none =>
                  rw [htext] at hload
                  cases hload
              | some contents =>
                  rw [htext] at hload
                  have hbuilding := buildTree_ends hload pageSize (files.data obj.filename) .empty
                    obj.filename
                  refine hbuilding.bind fun r hbuild => ?_
                  obtain ⟨hanswer, hfree⟩ := ends_after_buildTree hload hbuild
                  refine hanswer.bind fun output _ => ?_
                  refine Ends.after (bpkgObjDestroy_needsNoFuel r.2) fun _ _ => ?_
                  exact hfree.bind fun freed _ => (Settles.const _).ends

/-! ## The file check -/

/-- The file check leaves the data file that `make_file` leaves. -/
theorem bpkgFileCheck_file (bpkg : BpkgObj) (file : DataFile) :
    (bpkgFileCheck bpkg file).2 = makeFile bpkg file := by
  cases file with
  | absent create resize => rfl
  | unreadable => rfl
  | present stat map contents => rfl

theorem Files.setData_data (files : Files) (name : Str) (file : DataFile) :
    (files.setData name file).data name = file := if_pos rfl

/-- **A file check prepares the queries.** If the loader has reached the chunk lines, the check returns
    1, leaves the package file as it is, and after it a query is answered if and only if the data file
    could be mapped before or could be created with a positive size. -/
theorem fileCheck_prepares {argv' : List Str}
    (hcheck : argSelect argv = .ok (some .fileCheck)) (hpath : argv[1]? = some path)
    (hsel : argSelect argv' = .ok (some (.query q))) (hpath' : argv'[1]? = some path)
    (htext : files.text path = some contents) (hload : bpkgLoad junk (some contents) = .ok obj)
    (hcs : obj.chunks = some cs) :
    ∃ r, (∀ fuel, pkgmain fuel pageSize junk argv files = .ok r) ∧ r.status = 1 ∧
      r.files.text = files.text ∧
      ((∃ r', Settles (fun fuel => pkgmain fuel pageSize junk argv' r.files) (.ok r')) ↔
        ∃ hs cs data, (files.data obj.filename).Holds obj.size data ∧
          Answerable pageSize obj (.present true true data) q hs cs data) := by
  have hload' : bpkgLoad junk (files.text path) = .ok obj := by rw [htext, hload]
  have hdestroy : bpkgObjDestroy obj = .ok () := by
    have hlines := hload
    rw [bpkgLoad_eq] at hlines
    obtain ⟨_, _, hs, hhs, hlen⟩ := (loadLines_counted hlines).lists cs hcs
    exact bpkgObjDestroy_ok hcs hhs hlen
  refine ⟨_, pkgmain_fileCheck hcheck hpath hload' hdestroy, rfl, rfl, ?_⟩
  rw [bpkgFileCheck_file]
  constructor
  · rintro ⟨r', n, hn⟩
    obtain ⟨contents', obj', hs, cs, data, htext', hload₂, h⟩ :=
      pkgmain_needs hsel hpath' (hn n (Nat.le_refl n))
    have hsame : some contents' = some contents := htext'.symm.trans htext
    cases hsame
    rw [hload] at hload₂
    cases hload₂
    have hfile := h.file
    rw [Files.setData_data] at hfile
    exact ⟨hs, cs, data, (makeFile_holds h.nonempty).mp hfile, h.lists, h.two, rfl, h.nonempty,
      h.hashable, h.listing⟩
  · rintro ⟨hs, cs, data, hholds, h⟩
    have hfile := (@makeFile_holds obj _ _ h.nonempty).mpr hholds
    let files' := files.setData obj.filename (makeFile obj (files.data obj.filename))
    have htext' : files'.text path = some contents := htext
    have h' : Answerable pageSize obj (files'.data obj.filename) q hs cs data := by
      rw [Files.setData_data, hfile]
      exact h
    obtain ⟨_, _, hrun⟩ := pkgmain_settles hsel hpath' htext' hload h'
    exact ⟨_, hrun⟩

theorem fileCheck_prepares_uniform :
    ∃ r, (∀ fuel, pkgmain fuel 4096 default (commandLine (bytes "-file_check"))
        (uniformFiles (.absent true true)) = .ok r) ∧ r.status = 1 ∧
      ∃ r', Settles (fun fuel => pkgmain fuel 4096 default (commandLine (bytes "-chunk_check")) r.files)
        (.ok r') := by
  have hcheck : argSelect (commandLine (bytes "-file_check")) = .ok (some .fileCheck) := by decide
  have hsel : argSelect (commandLine (bytes "-chunk_check")) = .ok (some (.query .chunkCheck)) := by
    decide
  have htext : (uniformFiles (.absent true true)).text (bytes "p.bpkg")
      = some (Package.uniform 1 two_le_intMax).write := rfl
  obtain ⟨r, hrun, hstatus, _, hiff⟩ := fileCheck_prepares hcheck rfl hsel rfl htext
    (Package.uniform_load default 1 two_le_intMax) rfl
  exact ⟨r, hrun, hstatus, hiff.mpr ⟨_, _, List.replicate 8 0, .created (by decide) rfl,
    uniformFiles_answerable .chunkCheck⟩⟩

end Pkgmain

end Btide
