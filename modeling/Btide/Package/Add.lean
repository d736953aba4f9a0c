import Btide.Chk.RoundTrip
import Btide.Tree.Allocated
import Btide.Tree.HashChunk

/-!
# `Package.Add` — adding a package (`add_package` in `package.c`)

`ADDPACKAGE` reports one failure, a package file that cannot be opened. Every later one stops the
program: the loader exits, a path overflows its buffer, `hashChunk` returns NULL and the builder reads
through it, a single chunk makes the root's missing parent be read. `addPackage_adds_or_reports_iff`
lists what a package file and its data file must be like for the command to do what it is for: append
one entry to the list or leave the list as it is.
-/

namespace Btide

open LevelOrder

def MAX_BUFFER : Nat := 256

/-- `'/'`. -/
def slash : UInt8 := 47

/-! ## The environment -/

/-- The files, as the calls of `add_package` find them: what the loader reads under a path, and the data
    file under a path. The two are independent: that a file just created can also be read as a package is
    one of the changes that other programs may make between two commands. -/
structure Files where
  text : Str → Option Str
  data : Str → DataFile

/-- What the command reads and changes: the tree nodes, the files and the list of managed packages. -/
structure Managed where
  mem : Mem
  files : Files
  list : List BpkgObj

/-- The data file after `make_file`, which is called if the file cannot be opened for reading. A negative
    size makes `ftruncate` fail. -/
def makeFile (obj : BpkgObj) : DataFile → DataFile
  | .absent true resize =>
    .present true true (if resize ∧ 0 ≤ obj.size.toInt then List.replicate obj.size.toInt.toNat 0 else [])
  | .absent false resize => .absent false resize
  | .unreadable => .unreadable
  | .present stat map contents => .present stat map contents

/-- Only what is found as a data file is set. -/
def Files.setData (files : Files) (name : Str) (file : DataFile) : Files :=
  { files with data := fun n => if n = name then file else files.data n }

/-! ## `add_package` -/

def ensureTrailingSlash (str : Str) : Str := str ++ [slash]

/-- Remove the second of two slashes at the end. -/
def removeDoubleSlash (dir : Str) : Run Str :=
  let len := dir.length
  if dir[len - 1]? = some slash then
    if len < 2 then .error .outOfBounds
    else if dir[len - 2]? = some slash then .ok dir.dropLast
    else .ok dir
  else .ok dir

/-- The contents of `dir`. -/
def directoryOf (path : Str) : Run Str := do
  let dir ← storeStr MAX_BUFFER path
  let dir ← storeStr MAX_BUFFER (ensureTrailingSlash dir)
  removeDoubleSlash dir

/-- Append to the linked list. -/
def appendPackage : List BpkgObj → BpkgObj → List BpkgObj
  | [], obj => [obj]
  | current :: rest, obj => current :: appendPackage rest obj

/-- The call of `hashChunk`; its messages come before a NULL that is not checked. -/
def calculateHash (pageSize : Nat) (file : DataFile) (obj : BpkgObj) : Run (Option (List Str)) := do
  match ← hashChunk pageSize file obj with
  | .ok hashes => .ok (some hashes)
  | .error _ => .ok none

/-- The second half, for the object that the loader returned. -/
def addLoaded (fuel pageSize : Nat) (dir : Str) (obj : BpkgObj) (s : Managed) : Run Managed := do
  let pathtodata ← storeStr MAX_BUFFER (dir ++ obj.filename)
  let filename ← storeStr (MAX_FILENAME + 1) pathtodata
  let obj := { obj with filename := filename }
  let file := makeFile obj (s.files.data filename)
  let (mem, obj) ← buildTree fuel s.mem obj (calculateHash pageSize file obj)
  .ok { mem := mem, files := s.files.setData filename file, list := appendPackage s.list obj }

/-- `add_package`: the new state and, if it gave up, the message it printed. -/
def addPackage (fuel pageSize : Nat) (junk : Junk) (path file : Str) (s : Managed) :
    Run (Managed × Option Str) := do
  let dir ← directoryOf path
  let filepath ← storeStr MAX_BUFFER (dir ++ file)
  match s.files.text filepath with
  | none => .ok (s, some (bytes "Cannot open file\n"))
  | some contents => do
    let obj ← bpkgLoad junk (some contents)
    let s ← addLoaded fuel pageSize dir obj s
    .ok (s, none)

/-! ## What the command is for -/

/-- `path` with one slash at its end. -/
def directory (path : Str) : Str := if path.getLast? = some slash then path else path ++ [slash]

/-- The command returns, with one new entry at the end of the list, or with a message and the list as it
    was; the earlier entries and their trees are unchanged. -/
def AddsOrReports (pageSize : Nat) (junk : Junk) (path file : Str) (s : Managed) : Prop :=
  ∃ s' message, Settles (fun fuel => addPackage fuel pageSize junk path file s) (.ok (s', message)) ∧
    (∀ b, b < s.mem.nodes.next → s'.mem.nodes.cells b = s.mem.nodes.cells b) ∧
    match message with
    | some _ => s'.list = s.list
    | none => ∃ contents obj root, s.files.text (directory path ++ file) = some contents ∧
        bpkgLoad junk (some contents) = .ok obj ∧
        s'.list = s.list ++ [{ obj with
          filename := directory path ++ obj.filename
          tree := some root }]

/-- The data file has contents that can be mapped, or can be created with a positive size. -/
inductive DataFile.Holds (size : Int32) (contents : Str) : DataFile → Prop
  | present : contents ≠ [] → Holds size contents (.present true true contents)
  | created : 0 < size.toInt → contents = List.replicate size.toInt.toNat 0 →
      Holds size contents (.absent true true)

/-- A package file that the command can add: the loader accepts it and reaches its chunk lines, there are
    at least two chunks, the path of the data file fits, and every chunk's range of the data file can be
    hashed. -/
def Addable (pageSize : Nat) (junk : Junk) (path : Str) (s : Managed) (contents : Str) : Prop :=
  ∃ obj cs data, bpkgLoad junk (some contents) = .ok obj ∧ obj.chunks = some cs ∧ 2 ≤ cs.length ∧
    (directory path ++ obj.filename).length < MAX_BUFFER ∧
    (s.files.data (directory path ++ obj.filename)).Holds obj.size data ∧
    ∀ c ∈ cs, c.Hashable (mapping pageSize data).length

/-- The paths fit their buffers. -/
structure PathsFit (path file : Str) : Prop where
  nonempty : path ≠ []
  directory : path.length + 1 < MAX_BUFFER
  filepath : (Btide.directory path ++ file).length < MAX_BUFFER

/-! ## Paths -/

theorem removeDoubleSlash_ok {path : Str} (h : path ≠ []) :
    removeDoubleSlash (path ++ [slash]) = .ok (directory path) := by
  have hlen : 0 < path.length := List.length_pos_of_ne_nil h
  have hlast : (path ++ [slash])[path.length]? = some slash := by simp
  have hbefore : (path ++ [slash])[path.length - 1]? = path.getLast? := by
    rw [List.getElem?_append_left (by omega), List.getLast?_eq_getElem?]
  unfold removeDoubleSlash
  simp only [List.length_append, List.length_singleton, Nat.add_sub_cancel, hlast,
    if_true]
  rw [if_neg (by omega), show path.length + 1 - 2 = path.length - 1 by omega, hbefore, directory]
  split
  · rw [List.dropLast_concat]
  · rfl

theorem directoryOf_eq_ok {path dir : Str} :
    directoryOf path = .ok dir ↔ path ≠ [] ∧ path.length + 1 < MAX_BUFFER ∧ dir = directory path := by
  constructor
  · intro h
    obtain ⟨d, hd, h⟩ := Run.bind_eq_ok.mp h
    obtain ⟨hdpath, _⟩ := storeStr_eq_ok hd
    obtain ⟨e, he, h⟩ := Run.bind_eq_ok.mp h
    obtain ⟨hslash, hlen⟩ := storeStr_eq_ok he
    rw [hdpath, ensureTrailingSlash] at hslash hlen
    rw [hslash] at h
    have hne : path ≠ [] := by
      intro hnil
      rw [hnil] at h
      cases h
    rw [removeDoubleSlash_ok hne] at h
    cases h
    exact ⟨hne, by simpa using hlen, rfl⟩
  · rintro ⟨hne, hlen, rfl⟩
    have hlen' : (ensureTrailingSlash path).length < MAX_BUFFER := by
      simpa [ensureTrailingSlash] using hlen
    unfold directoryOf
    rw [storeStr_ok (by omega), Run.ok_bind, storeStr_ok hlen', Run.ok_bind]
    exact removeDoubleSlash_ok hne

theorem appendPackage_eq (list : List BpkgObj) (obj : BpkgObj) :
    appendPackage list obj = list ++ [obj] := by
  induction list with
  | nil => rfl
  | cons current rest ih => rw [appendPackage, ih, List.cons_append]

theorem calculateHash_eq_some {pageSize : Nat} {file : DataFile} {obj : BpkgObj} {hashes : List Str} :
    calculateHash pageSize file obj = .ok (some hashes) ↔
      hashChunk pageSize file obj = .ok (.ok hashes) := by
  unfold calculateHash
  constructor
  · intro h
    obtain ⟨r, hr, h⟩ := Run.bind_eq_ok.mp h
    cases r with
    | ok hs =>
        cases h
        exact hr
    | error message => cases h
  · intro h
    rw [h]
    rfl

theorem makeFile_holds {obj : BpkgObj} {file : DataFile} {contents : Str} (hne : contents ≠ []) :
    makeFile obj file = .present true true contents ↔ file.Holds obj.size contents := by
  constructor
  · intro h
    cases file with
    | absent create resize =>
        cases create with
        | false => cases h
        | true =>
            simp only [makeFile, DataFile.present.injEq, true_and] at h
            split at h
            · next hsize =>
                obtain ⟨rfl, hnonneg⟩ := hsize
                refine .created ?_ h.symm
                by_contra hzero
                have hz : obj.size.toInt.toNat = 0 := by omega
                rw [hz] at h
                exact hne h.symm
            · exact absurd h.symm hne
    | unreadable => cases h
    | present stat map contents' =>
        cases h
        exact .present hne
  · intro h
    cases h with
    | present _ => rfl
    | created hpos heq =>
        simp only [makeFile]
        rw [if_pos ⟨trivial, by omega⟩, heq]

theorem DataFile.Holds.ne_nil {file : DataFile} {size : Int32} {contents : Str}
    (h : file.Holds size contents) : contents ≠ [] := by
  cases h with
  | present hne => exact hne
  | created hpos heq =>
      intro hnil
      rw [hnil] at heq
      have hlen := congrArg List.length heq
      rw [List.length_replicate, List.length_nil] at hlen
      omega

/-! ## The loaded object -/

section Loaded

variable {junk : Junk} {contents : Str} {obj : BpkgObj} {cs : List ChunkInfo}

/-- Once the chunks are assigned, the object's counters are the lengths of its arrays. -/
theorem loaded_lists (hload : bpkgLoad junk (some contents) = .ok obj) (hcs : obj.chunks = some cs)
    (htwo : 2 ≤ obj.nchunks.toInt) :
    ∃ hs, obj.Lists hs cs ∧ cs.length = hs.length + 1 := by
  rw [bpkgLoad_eq] at hload
  obtain ⟨hlen, hcounts, hs, hhs, hhlen⟩ := (loadLines_counted hload).lists cs hcs
  exact ⟨hs, ⟨hhs, hcs, by omega, by omega⟩, by omega⟩

theorem loaded_nchunks (hload : bpkgLoad junk (some contents) = .ok obj) (hcs : obj.chunks = some cs) :
    cs.length = obj.nchunks.toInt.toNat := by
  rw [bpkgLoad_eq] at hload
  exact ((loadLines_counted hload).lists cs hcs).1

end Loaded

section Add

variable {pageSize : Nat} {junk : Junk} {path file contents : Str} {s : Managed} {obj : BpkgObj}

/-- The hashes that `hashChunk` computes from the contents of the data file. -/
def fileHashes (pageSize : Nat) (data : Str) (cs : List ChunkInfo) : List Str :=
  cs.map fun c => Fips180.sha256Hex (chunkBytes (mapping pageSize data) c)

/-- The object that the list receives. -/
def BpkgObj.added (obj : BpkgObj) (dir : Str) (root : Addr) : BpkgObj :=
  { obj with
    filename := dir ++ obj.filename
    tree := some root }

/-- **The second half returns** for an object whose chunks can be hashed: it builds the object's tree and
    appends the object. -/
theorem addLoaded_built {dir data : Str} {cs : List ChunkInfo}
    (hload : bpkgLoad junk (some contents) = .ok obj) (hcs : obj.chunks = some cs)
    (htwo : 2 ≤ cs.length) (hpath : (dir ++ obj.filename).length < MAX_BUFFER)
    (hdata : (s.files.data (dir ++ obj.filename)).Holds obj.size data)
    (hhash : ∀ c ∈ cs, c.Hashable (mapping pageSize data).length) :
    ∃ hs mem node, obj.Lists hs cs ∧
      Built (Nat.log 2 cs.length) (computed (Nat.log 2 cs.length) (fileHashes pageSize data cs))
        (expected hs cs) s.mem mem s.mem.nodes.next node ∧
      Allocates (Nat.log 2 cs.length) node s.mem mem ∧
      Settles (fun fuel => addLoaded fuel pageSize dir obj s)
        (.ok { mem := mem
               files := s.files.setData (dir ++ obj.filename) (.present true true data)
               list := s.list ++ [obj.added dir s.mem.nodes.next] }) := by
  have hn := loaded_nchunks hload hcs
  obtain ⟨hs, hlists, hlen⟩ := loaded_lists hload hcs (by omega)
  have hne : data ≠ [] := hdata.ne_nil
  let obj' : BpkgObj := { obj with filename := dir ++ obj.filename }
  have hfile : makeFile obj' (s.files.data (dir ++ obj.filename)) = .present true true data :=
    (makeFile_holds hne).mpr hdata
  have hchunk := @hashChunk_ok pageSize data obj' cs hcs hlists.nchunks hne hhash
  have hcalc := calculateHash_eq_some.mpr hchunk
  have hlists' : obj'.Lists hs cs := ⟨hlists.hashes, hcs, hlists.nhashes, hlists.nchunks⟩
  -- the height of the tree
  have hlog : 1 ≤ Nat.log 2 cs.length := Nat.log_pos (by omega) htwo
  have hle : 2 ^ Nat.log 2 cs.length ≤ cs.length := Nat.pow_log_le_self 2 (by omega)
  have hpow := Nat.pow_succ 2 (Nat.log 2 cs.length)
  have hhashes : 2 ^ Nat.log 2 cs.length ≤ (fileHashes pageSize data cs).length := by
    rw [fileHashes, List.length_map]
    exact hle
  have henough : 2 ^ (Nat.log 2 cs.length + 1) - 1 ≤ (listed hs cs).length := by
    rw [listed, List.length_append, List.length_map]
    omega
  obtain ⟨mem, node, hbuilt, hall, hrun⟩ := buildTree_allocates s.mem hlists' rfl hlog hhashes henough
  refine ⟨hs, mem, node, hlists, hbuilt, hall, ?_⟩
  have hfilename : storeStr (MAX_FILENAME + 1) (dir ++ obj.filename) = .ok (dir ++ obj.filename) :=
    storeStr_ok (Nat.lt_succ_of_lt hpath)
  have hsteps : ∀ fuel, addLoaded fuel pageSize dir obj s
      = (buildTree fuel s.mem obj' (.ok (some (fileHashes pageSize data cs))) >>= fun r =>
        .ok ⟨r.1, s.files.setData (dir ++ obj.filename) (.present true true data),
          appendPackage s.list r.2⟩) := by
    intro fuel
    unfold addLoaded
    rw [storeStr_ok hpath, Run.ok_bind, hfilename, Run.ok_bind]
    show (buildTree fuel s.mem obj' (calculateHash pageSize (makeFile obj' _) obj') >>= _) = _
    rw [hfile, hcalc]
    rfl
  simp only [hsteps, appendPackage_eq]
  exact hrun.map _

/-- The earlier entries and their trees are unchanged. -/
theorem addLoaded_settles {dir data : Str} {cs : List ChunkInfo}
    (hload : bpkgLoad junk (some contents) = .ok obj) (hcs : obj.chunks = some cs)
    (htwo : 2 ≤ cs.length) (hpath : (dir ++ obj.filename).length < MAX_BUFFER)
    (hdata : (s.files.data (dir ++ obj.filename)).Holds obj.size data)
    (hhash : ∀ c ∈ cs, c.Hashable (mapping pageSize data).length) :
    ∃ s', Settles (fun fuel => addLoaded fuel pageSize dir obj s) (.ok s') ∧
      (∀ b, b < s.mem.nodes.next → s'.mem.nodes.cells b = s.mem.nodes.cells b) ∧
      s'.list = s.list ++ [{ obj with
        filename := dir ++ obj.filename
        tree := some s.mem.nodes.next }] := by
  obtain ⟨_, _, _, _, hbuilt, _, hrun⟩ := addLoaded_built hload hcs htwo hpath hdata hhash
  exact ⟨_, hrun, hbuilt.frame, rfl⟩

/-- **It returns only for such an object.** -/
theorem addLoaded_returns {fuel : Nat} {dir : Str} {s' : Managed}
    (hload : bpkgLoad junk (some contents) = .ok obj)
    (h : addLoaded fuel pageSize dir obj s = .ok s') :
    ∃ cs data, obj.chunks = some cs ∧ 2 ≤ cs.length ∧ (dir ++ obj.filename).length < MAX_BUFFER ∧
      (s.files.data (dir ++ obj.filename)).Holds obj.size data ∧
      ∀ c ∈ cs, c.Hashable (mapping pageSize data).length := by
  obtain ⟨p, hp, h⟩ := Run.bind_eq_ok.mp h
  obtain ⟨rfl, hpath⟩ := storeStr_eq_ok hp
  obtain ⟨q, hq, h⟩ := Run.bind_eq_ok.mp h
  obtain ⟨rfl, _⟩ := storeStr_eq_ok hq
  obtain ⟨r, hbuild, _⟩ := Run.bind_eq_ok.mp h
  obtain ⟨hpos, hashes, hcalc, hone⟩ := buildTree_returns hbuild
  have hpos : 0 < obj.nchunks.toInt := hpos
  obtain ⟨hlen, data, hfile, hne, heach⟩ := hashChunk_eq_ok (calculateHash_eq_some.mp hcalc)
  have hlen : hashes.length = obj.nchunks.toInt.toNat := hlen
  have hone : obj.nchunks.toInt ≠ 1 := hone (by omega)
  obtain ⟨cs, _, hcs, _⟩ := heach 0 (by show 0 < obj.nchunks.toInt.toNat; omega)
  have hcs : obj.chunks = some cs := hcs
  have hn := loaded_nchunks hload hcs
  refine ⟨cs, data, hcs, by omega, hpath, (makeFile_holds hne).mp hfile, fun c hc => ?_⟩
  obtain ⟨i, hi, rfl⟩ := List.getElem_of_mem hc
  obtain ⟨cs', c', hcs', hget, hhash⟩ := heach i (by show i < obj.nchunks.toInt.toNat; omega)
  have hcs' : obj.chunks = some cs' := hcs'
  rw [hcs] at hcs'
  cases hcs'
  rw [List.getElem?_eq_getElem hi] at hget
  cases hget
  exact hhash

/-- Once the paths fit, only the package file matters. -/
theorem addPackage_steps (hfit : PathsFit path file) (fuel : Nat) :
    addPackage fuel pageSize junk path file s
      = match s.files.text (directory path ++ file) with
        | none => .ok (s, some (bytes "Cannot open file\n"))
        | some contents => bpkgLoad junk (some contents) >>= fun obj =>
            addLoaded fuel pageSize (directory path) obj s >>= fun s => .ok (s, none) := by
  have hdir := directoryOf_eq_ok.mpr ⟨hfit.nonempty, hfit.directory, rfl⟩
  unfold addPackage
  rw [hdir, Run.ok_bind, storeStr_ok hfit.filepath, Run.ok_bind]

/-- A package file that can be added is added. -/
theorem addPackage_loads (hfit : PathsFit path file)
    (htext : s.files.text (directory path ++ file) = some contents)
    (hadd : Addable pageSize junk path s contents) :
    ∃ s' obj root, Settles (fun fuel => addPackage fuel pageSize junk path file s) (.ok (s', none)) ∧
      (∀ b, b < s.mem.nodes.next → s'.mem.nodes.cells b = s.mem.nodes.cells b) ∧
      bpkgLoad junk (some contents) = .ok obj ∧
      s'.list = s.list ++ [{ obj with
        filename := directory path ++ obj.filename
        tree := some root }] := by
  obtain ⟨obj, cs, data, hload, hcs, htwo, hpath, hdata, hhash⟩ := hadd
  obtain ⟨s', hrun, hframe, hlist⟩ := addLoaded_settles hload hcs htwo hpath hdata hhash
  refine ⟨s', obj, _, ?_, hframe, hload, hlist⟩
  simp only [addPackage_steps hfit, htext, hload, Run.ok_bind]
  exact hrun.map _

/-- **`ADDPACKAGE` does what it is for if and only if** its paths fit their buffers and the package file
    cannot be opened or can be added. -/
theorem addPackage_adds_or_reports_iff (pageSize : Nat) (junk : Junk) (path file : Str) (s : Managed) :
    AddsOrReports pageSize junk path file s ↔ PathsFit path file ∧
      ∀ contents, s.files.text (directory path ++ file) = some contents →
        Addable pageSize junk path s contents := by
  constructor
  · rintro ⟨s', message, ⟨n, hn⟩, _⟩
    have h : addPackage n pageSize junk path file s = .ok (s', message) := hn n (Nat.le_refl n)
    obtain ⟨dir, hdir, h⟩ := Run.bind_eq_ok.mp h
    obtain ⟨hne, hlen, rfl⟩ := directoryOf_eq_ok.mp hdir
    obtain ⟨filepath, hpath, h⟩ := Run.bind_eq_ok.mp h
    obtain ⟨rfl, hfile⟩ := storeStr_eq_ok hpath
    refine ⟨⟨hne, hlen, hfile⟩, fun contents hcontents => ?_⟩
    simp only [hcontents] at h
    obtain ⟨obj, hload, h⟩ := Run.bind_eq_ok.mp h
    obtain ⟨s'', hadd, _⟩ := Run.bind_eq_ok.mp h
    obtain ⟨cs, data, hrest⟩ := addLoaded_returns hload hadd
    exact ⟨obj, cs, data, hload, hrest⟩
  · rintro ⟨hfit, hadd⟩
    cases htext : s.files.text (directory path ++ file) with
    | none =>
        refine ⟨s, some (bytes "Cannot open file\n"), ?_, fun _ _ => rfl, rfl⟩
        simp only [addPackage_steps hfit, htext]
        exact Settles.const _
    | some contents =>
        obtain ⟨s', obj, root, hrun, hframe, hload, hlist⟩ :=
          addPackage_loads hfit htext (hadd contents htext)
        exact ⟨s', none, hrun, hframe, contents, obj, root, htext, hload, hlist⟩

end Add

/-- Two chunks that cover a data file which is still to be created. -/
example : Addable 4096 default (bytes "packages")
    { mem := Mem.empty
      files := { text := fun _ => none, data := fun _ => .absent true true }
      list := [] } (Package.uniform 1 (by decide)).write := by
  refine ⟨_, _, List.replicate 8 0, Package.uniform_load default 1 (by decide), rfl, by decide,
    by decide, .created (by decide) rfl, ?_⟩
  intro c hc
  rw [List.eq_of_mem_replicate hc]
  have hlen : 8 ≤ (mapping 4096 (List.replicate 8 0)).length  :=
    length_le_mapping 4096 (List.replicate 8 0)
  exact Or.inr ⟨by decide, Int.ofNat_le.mpr hlen, by decide⟩

/-- A package file whose identifier is not hexadecimal. -/
def badIdent : Str := bytes "ident:xyz\n"

theorem badIdent_load (junk : Junk) : bpkgLoad junk (some badIdent) = .error unableToLoad := by
  have hline : ∀ line ∈ [badIdent], Whole (bufferSize - 2 + 1) line := by
    intro line hline
    rw [List.mem_singleton.mp hline]
    exact ⟨bytes "ident:xyz", by decide, by decide, by decide⟩
  have hlines := linesOf_whole hline
  rw [List.flatten_cons, List.flatten_nil, List.append_nil] at hlines
  have hscan : sscanf badIdent identFormat = .ok [.str (bytes "xyz")] := by decide
  rw [bpkgLoad_eq, hlines]
  show (inPlace readIdent junk.obj badIdent [] >>= fun r => _) = _
  unfold inPlace readIdent
  rw [assignStr_scanned hscan]
  rfl

/-- Adding a package file with a bad identifier ends the program. -/
theorem addPackage_exits : ¬ AddsOrReports 4096 default (bytes "packages") (bytes "bad.bpkg")
    { mem := Mem.empty
      files := { text := fun _ => some badIdent, data := fun _ => .absent true true }
      list := [] } := by
  rintro ⟨s', message, ⟨n, hn⟩, _⟩
  have h := hn n (Nat.le_refl n)
  have hdir : directoryOf (bytes "packages") = .ok (bytes "packages/") := by decide
  have hpath : storeStr MAX_BUFFER (bytes "packages/" ++ bytes "bad.bpkg")
      = .ok (bytes "packages/" ++ bytes "bad.bpkg") := by decide
  simp only [addPackage, hdir, Run.ok_bind, hpath, badIdent_load, Run.error_bind] at h
  cases h

end Btide
