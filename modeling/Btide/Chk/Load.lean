import Btide.Base.Loop
import Btide.Base.Stdio
import Btide.Chk.Obj

/-!
# `Chk.Load` — loading a package file (`bpkg_load` in `chk/pkgchk.c`)

The loader reads the file line by line and decides by a line counter what to do with a line. Two of the
lines start loops that read further lines into the same buffer: at the end of the file `fgets` leaves
the buffer as it is, and the loop converts its last line again.

No result of `sscanf` is checked, so an object may keep what `malloc` put into its fields; this initial
contents is the parameter `Junk` of the model. An array pointer that is never assigned is `none`.

`bpkgLoad_eq` unrolls the counter: the loader is the sequence of its seven steps (`loadLines`).
-/

namespace Btide

/-! ## Fields and formats -/

def MAX_IDENT_SIZE : Nat := 1036
def MAX_FILENAME : Nat := 256
def MAX_HASH : Nat := 64

/-- `sizeof(buffer)`. -/
def bufferSize : Nat := 1036

/-- What `malloc` leaves in a new object and in the elements of its arrays. -/
structure Junk where
  identifier : Str
  filename : Str
  size : Int32
  nhashes : Int32
  nchunks : Int32
  hash : Nat → Str
  chunk : Nat → ChunkInfo

instance : Inhabited Junk := ⟨⟨[], [], 0, 0, 0, fun _ => [], fun _ => ⟨[], 0, 0⟩⟩⟩

/-- A new object. -/
def Junk.obj (junk : Junk) : BpkgObj where
  identifier := junk.identifier
  filename := junk.filename
  size := junk.size
  nhashes := junk.nhashes
  hashes := none
  nchunks := junk.nchunks
  chunks := none
  tree := none

/-- `"ident: %s\n"`. -/
def identFormat : List Directive := lits "ident:" ++ [.space, .str none, .space]

/-- `"filename: %s\n"`. -/
def filenameFormat : List Directive := lits "filename:" ++ [.space, .str none, .space]

/-- `"size: %d\n"`. -/
def sizeFormat : List Directive := lits "size:" ++ [.space, .int, .space]

/-- `"nhashes: %d"`. -/
def nhashesFormat : List Directive := lits "nhashes:" ++ [.space, .int]

/-- `"%64s"`. -/
def hashFormat : List Directive := [.str (some 64)]

/-- `"nchunks:%d"`. -/
def nchunksFormat : List Directive := lits "nchunks:" ++ [.int]

/-- The members of `[, \t]`. -/
def isSeparator (c : UInt8) : Bool := c = 44 ∨ c = 32 ∨ c = 9

/-- The members of `[^,]`. -/
def notComma (c : UInt8) : Bool := c ≠ 44

/-- `"%*[, \t]%65[^,], %d, %d"`. -/
def chunkFormat : List Directive :=
  [.set true none isSeparator, .set false (some 65) notComma, .lit 44, .space, .int, .lit 44, .space,
    .int]

/-- The part of it that converts the hash. -/
def chunkHashFormat : List Directive := chunkFormat.take 2

def isxdigit (c : UInt8) : Bool :=
  (48 ≤ c ∧ c ≤ 57) ∨ (65 ≤ c ∧ c ≤ 70) ∨ (97 ≤ c ∧ c ≤ 102)

def isNotHexadecimal (str : Str) : Int := if str.all isxdigit then 0 else 1

/-- The loader gives up. -/
def unableToLoad : Abort := .exit (bytes "Unable to load pkg and tree\n") 1

/-! ## The steps of the loader -/

def readIdent (obj : BpkgObj) (buffer : Str) : Run BpkgObj := do
  let w ← assignStr identFormat (MAX_IDENT_SIZE + 1) obj.identifier buffer
  if isNotHexadecimal w ≠ 0 then .error unableToLoad else .ok { obj with identifier := w }

def readFilename (obj : BpkgObj) (buffer : Str) : Run BpkgObj := do
  let w ← assignStr filenameFormat (MAX_FILENAME + 1) obj.filename buffer
  .ok { obj with filename := w }

def readSize (obj : BpkgObj) (buffer : Str) : Run BpkgObj := do
  let n ← assignInt sizeFormat obj.size buffer
  .ok { obj with size := n }

def readNhashes (obj : BpkgObj) (buffer : Str) : Run BpkgObj := do
  let n ← assignInt nhashesFormat obj.nhashes buffer
  .ok { obj with nhashes := n }

/-- `hashes[i]`, given its initial contents. -/
def readHash (initial : Str) (buffer : Str) : Run Str :=
  assignStr hashFormat (MAX_HASH + 1) initial buffer

def readNchunks (obj : BpkgObj) (buffer : Str) : Run BpkgObj := do
  let n ← assignInt nchunksFormat obj.nchunks buffer
  let expected ← cInt (obj.nhashes.toInt + 1)
  if n.toInt ≠ expected then .error unableToLoad else .ok { obj with nchunks := n }

/-- `chunks[i]`, given its initial contents. -/
def readChunk (initial : ChunkInfo) (buffer : Str) : Run ChunkInfo := do
  -- the hash is stored before the numbers are converted
  let w ← assignStr chunkHashFormat (MAX_HASH + 1) initial.hashvalue buffer
  match ← sscanf buffer chunkFormat with
  | [.str _, .int offset] => .ok { initial with hashvalue := w, offset := offset }
  | [.str _, .int offset, .int size] => .ok { hashvalue := w, offset := offset, size := size }
  | _ => .ok { initial with hashvalue := w }

/-- A loop `for (i = 0; i < n; i++)` that reads a line into the buffer and from the buffer an element of
    an array; `i` counts up and `n` down. -/
def eachLine {α : Type} (read : Nat → Str → Run α) : Nat → Nat → Str → List Str →
    Run (List α × List Str)
  | 0, _, _, file => .ok ([], file)
  | n + 1, i, buffer, [] => do
    let x ← read i buffer
    let (xs, file) ← eachLine read n (i + 1) buffer []
    .ok (x :: xs, file)
  | n + 1, i, _, line :: file => do
    let x ← read i line
    let (xs, file) ← eachLine read n (i + 1) line file
    .ok (x :: xs, file)

def readHashes (junk : Junk) (obj : BpkgObj) (buffer : Str) (file : List Str) :
    Run (BpkgObj × List Str) := do
  let (hs, file) ← eachLine (fun i => readHash (junk.hash i)) obj.nhashes.toInt.toNat 0 buffer file
  .ok ({ obj with hashes := some hs }, file)

def readChunks (junk : Junk) (obj : BpkgObj) (buffer : Str) (file : List Str) :
    Run (BpkgObj × List Str) := do
  let (cs, file) ← eachLine (fun i => readChunk (junk.chunk i)) obj.nchunks.toInt.toNat 0 buffer file
  .ok ({ obj with chunks := some cs }, file)

/-- A step that reads no further line. -/
def inPlace (read : BpkgObj → Str → Run BpkgObj) (obj : BpkgObj) (buffer : Str) (file : List Str) :
    Run (BpkgObj × List Str) := do
  let obj ← read obj buffer
  .ok (obj, file)

/-! ## The loader -/

/-- What the loop does with a line, by the counter. -/
def loadLine (junk : Junk) (counter : Int) :
    BpkgObj → Str → List Str → Run (BpkgObj × List Str) :=
  if counter = 0 then inPlace readIdent
  else if counter = 1 then inPlace readFilename
  else if counter = 2 then inPlace readSize
  else if counter = 3 then inPlace readNhashes
  else if counter = 4 then readHashes junk
  else if counter = 5 then inPlace readNchunks
  else if counter = 6 then readChunks junk
  else inPlace fun obj _ => .ok obj

structure Loading where
  obj : BpkgObj
  counter : Int
  file : List Str

def loadBody (junk : Junk) (s : Loading) : Run (Flow Loading) :=
  match s.file with
  | [] => .ok (.stop s)
  | buffer :: file => do
    let (obj, file) ← loadLine junk s.counter s.obj buffer file
    let counter ← cInt (s.counter + 1)
    .ok (.next { obj := obj, counter := counter, file := file })

/-- `while (fgets(buffer, sizeof(buffer), file)) …`. -/
def loadLoop (junk : Junk) (fuel : Nat) (s : Loading) : Run BpkgObj := do
  let s ← whileLoop (fun s => !s.file.isEmpty) (loadBody junk) fuel s
  .ok s.obj

/-- `bpkg_load`. The file is given by its contents, `none` if it cannot be opened. Every iteration of
    the loop reads a line, so there are at most as many as lines. -/
def bpkgLoad (junk : Junk) (path : Option Str) : Run BpkgObj :=
  match path with
  | none => .error unableToLoad
  | some contents => do
    let file := linesOf bufferSize contents
    loadLoop junk file.length { obj := junk.obj, counter := 0, file := file }

/-! ## The loader line by line -/

/-- Do `step` with the next line and go on with `k`; at the end of the file return the object. -/
def onLine (step : BpkgObj → Str → List Str → Run (BpkgObj × List Str))
    (k : BpkgObj → List Str → Run BpkgObj) (obj : BpkgObj) : List Str → Run BpkgObj
  | [] => .ok obj
  | line :: file => do
    let (obj, file) ← step obj line file
    k obj file

/-- The lines after the seven steps only advance the counter. -/
def ignoreRest (obj : BpkgObj) (file : List Str) : Run BpkgObj :=
  if 7 + (file.length : Int) ≤ INT_MAX then .ok obj else .error .intOverflow

def loadLines (junk : Junk) : List Str → Run BpkgObj :=
  onLine (inPlace readIdent) (onLine (inPlace readFilename) (onLine (inPlace readSize)
    (onLine (inPlace readNhashes) (onLine (readHashes junk) (onLine (inPlace readNchunks)
      (onLine (readChunks junk) ignoreRest)))))) junk.obj

/-- A loop over lines has read as many as there are, and a line for each element if enough are there. -/
theorem eachLine_cases {α : Type} {read : Nat → Str → Run α} {n i : Nat} {buffer : Str}
    {file file' : List Str} {xs : List α} (h : eachLine read n i buffer file = .ok (xs, file')) :
    xs.length = n ∧ file' = file.drop n := by
  induction n generalizing i buffer file file' xs with
  | zero =>
      cases h
      exact ⟨rfl, rfl⟩
  | succ n ih =>
      cases file with
      | nil =>
          obtain ⟨x, _, h⟩ := Run.bind_eq_ok.mp h
          obtain ⟨⟨ys, file''⟩, hrec, h⟩ := Run.bind_eq_ok.mp h
          obtain ⟨hlen, hdrop⟩ := ih hrec
          cases h
          exact ⟨by rw [List.length_cons, hlen], by simpa using hdrop⟩
      | cons line file =>
          obtain ⟨x, _, h⟩ := Run.bind_eq_ok.mp h
          obtain ⟨⟨ys, file''⟩, hrec, h⟩ := Run.bind_eq_ok.mp h
          obtain ⟨hlen, hdrop⟩ := ih hrec
          cases h
          exact ⟨by rw [List.length_cons, hlen], hdrop⟩

theorem inPlace_eq_ok {read : BpkgObj → Str → Run BpkgObj} {obj obj' : BpkgObj} {buffer : Str}
    {file file' : List Str} :
    inPlace read obj buffer file = .ok (obj', file') ↔ read obj buffer = .ok obj' ∧ file' = file := by
  unfold inPlace
  rw [Run.bind_eq_ok]
  constructor
  · rintro ⟨o, ho, h⟩
    cases h
    exact ⟨ho, rfl⟩
  · rintro ⟨ho, rfl⟩
    exact ⟨obj', ho, rfl⟩

/-- No step puts a line back. -/
theorem loadLine_length_le {junk : Junk} {counter : Int} {obj obj' : BpkgObj} {buffer : Str}
    {file file' : List Str} (h : loadLine junk counter obj buffer file = .ok (obj', file')) :
    file'.length ≤ file.length := by
  have hplace : ∀ read, inPlace read obj buffer file = .ok (obj', file') →
      file'.length ≤ file.length := by
    intro read hr
    rw [(inPlace_eq_ok.mp hr).2]
  unfold loadLine at h
  split_ifs at h
  all_goals first
    | exact hplace _ h
    | obtain ⟨⟨xs, rest⟩, heach, h⟩ := Run.bind_eq_ok.mp h
      cases h
      rw [(eachLine_cases heach).2, List.length_drop]
      exact Nat.sub_le _ _

section Loop

variable {junk : Junk} {obj : BpkgObj} {counter : Int} {file : List Str} {fuel : Nat}

theorem loadLoop_nil : loadLoop junk fuel ⟨obj, counter, []⟩ = .ok obj := by
  unfold loadLoop
  rw [whileLoop_exit rfl, Run.ok_bind]

/-- One iteration. -/
theorem loadLoop_cons {line : Str} (hnext : cInt (counter + 1) = .ok (counter + 1)) :
    loadLoop junk (fuel + 1) ⟨obj, counter, line :: file⟩
      = (loadLine junk counter obj line file >>= fun r =>
          loadLoop junk fuel ⟨r.1, counter + 1, r.2⟩) := by
  have hbody : loadBody junk ⟨obj, counter, line :: file⟩
      = (loadLine junk counter obj line file >>= fun r =>
          .ok (.next ⟨r.1, counter + 1, r.2⟩)) := by
    show (loadLine junk counter obj line file >>= fun r => cInt (counter + 1) >>= fun c => _) = _
    simp only [hnext, Run.ok_bind]
  unfold loadLoop
  cases hline : loadLine junk counter obj line file with
  | error e =>
      rw [hline, Run.error_bind] at hbody
      rw [whileLoop_error rfl hbody, Run.error_bind, Run.error_bind]
  | ok r =>
      rw [hline, Run.ok_bind] at hbody
      rw [whileLoop_next rfl hbody, Run.ok_bind]

theorem loadLoop_onLine {k : BpkgObj → List Str → Run BpkgObj}
    (hlo : 0 ≤ counter) (hhi : counter < INT_MAX) (hfuel : file.length ≤ fuel)
    (hk : ∀ obj file fuel, file.length ≤ fuel →
      loadLoop junk fuel ⟨obj, counter + 1, file⟩ = k obj file) :
    loadLoop junk fuel ⟨obj, counter, file⟩ = onLine (loadLine junk counter) k obj file := by
  cases file with
  | nil => exact loadLoop_nil
  | cons line file =>
      rw [List.length_cons] at hfuel
      obtain ⟨n, rfl⟩ := Nat.exists_eq_add_of_le' hfuel
      have hnext : cInt (counter + 1) = .ok (counter + 1) :=
        cInt_ok (by unfold INT_MIN; omega) (by omega)
      rw [← Nat.add_assoc, loadLoop_cons hnext]
      show _ = (loadLine junk counter obj line file >>= fun r => k r.1 r.2)
      cases hline : loadLine junk counter obj line file with
      | error e => rfl
      | ok r =>
          rw [Run.ok_bind, Run.ok_bind]
          apply hk
          have := loadLine_length_le hline
          omega

/-- After the seven steps only the counter can stop the loop. -/
theorem loadLoop_rest (hlo : 7 ≤ counter) (hhi : counter ≤ INT_MAX) (hfuel : file.length ≤ fuel) :
    loadLoop junk fuel ⟨obj, counter, file⟩
      = if counter + (file.length : Int) ≤ INT_MAX then .ok obj else .error .intOverflow := by
  induction file generalizing counter fuel with
  | nil => rw [loadLoop_nil, if_pos (by simpa using hhi)]
  | cons line file ih =>
      rw [List.length_cons] at hfuel
      obtain ⟨n, rfl⟩ := Nat.exists_eq_add_of_le' hfuel
      have hline : loadLine junk counter obj line file = .ok (obj, file) := by
        unfold loadLine
        rw [if_neg (by omega), if_neg (by omega), if_neg (by omega), if_neg (by omega),
          if_neg (by omega), if_neg (by omega), if_neg (by omega)]
        rfl
      have hcast : ((line :: file).length : Int) = file.length + 1 := by simp
      rw [hcast]
      by_cases hmax : counter = INT_MAX
      · -- `counter + 1` overflows
        have hover : cInt (counter + 1) = .error .intOverflow := by
          unfold cInt
          rw [if_neg (by omega)]
        have hbody : loadBody junk ⟨obj, counter, line :: file⟩ = .error .intOverflow := by
          show (loadLine junk counter obj line file >>= fun r => cInt (counter + 1) >>= fun c => _) = _
          rw [hline, Run.ok_bind, hover, Run.error_bind]
        unfold loadLoop
        rw [← Nat.add_assoc, whileLoop_error rfl hbody, if_neg (by omega)]
        rfl
      · have hnext : cInt (counter + 1) = .ok (counter + 1) :=
          cInt_ok (by unfold INT_MIN; omega) (by omega)
        rw [← Nat.add_assoc, loadLoop_cons hnext, hline, Run.ok_bind,
          ih (by omega) (by omega) (by omega)]
        congr 2
        omega

end Loop

/-- **The counter and the lines stay in step.** -/
theorem bpkgLoad_eq (junk : Junk) (contents : Str) :
    bpkgLoad junk (some contents) = loadLines junk (linesOf bufferSize contents) := by
  show loadLoop junk (linesOf bufferSize contents).length ⟨junk.obj, 0, linesOf bufferSize contents⟩ = _
  have hmax : (7 : Int) ≤ INT_MAX := by decide
  apply loadLoop_onLine (by omega) (by omega) (Nat.le_refl _)
  intro obj file fuel hfuel
  apply loadLoop_onLine (by omega) (by omega) hfuel
  intro obj file fuel hfuel
  apply loadLoop_onLine (by omega) (by omega) hfuel
  intro obj file fuel hfuel
  apply loadLoop_onLine (by omega) (by omega) hfuel
  intro obj file fuel hfuel
  apply loadLoop_onLine (by omega) (by omega) hfuel
  intro obj file fuel hfuel
  apply loadLoop_onLine (by omega) (by omega) hfuel
  intro obj file fuel hfuel
  apply loadLoop_onLine (by omega) (by omega) hfuel
  intro obj file fuel hfuel
  exact loadLoop_rest (by omega) hmax hfuel

end Btide
