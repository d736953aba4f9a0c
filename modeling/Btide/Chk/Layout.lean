import Btide.Chk.Load

/-!
# `Chk.Layout` — the lines of a package file

A `Layout` is a file cut into the lines that the loader's steps should read: seven lines, each in its
place, the hash lines and the chunk lines. `Layout.Reads` says that these lines give every field and every
array element of an object, each from its own line.

Each step of the loader has one lemma here that says what it does with any line. From them follows that
an object returned for a file with a layout is the one its lines give (`Layout.loaded`), and that the
loader does return it when its checks pass (`Layout.load`).
-/

namespace Btide

/-! ## Layouts -/

structure Layout where
  ident : Str
  filename : Str
  size : Str
  nhashes : Str
  hashesLabel : Str
  hashes : List Str
  nchunks : Str
  chunksLabel : Str
  chunks : List Str
  rest : List Str

/-- The lines the loader looks at. -/
def Layout.needed (f : Layout) : List Str :=
  f.ident :: f.filename :: f.size :: f.nhashes :: f.hashesLabel ::
    (f.hashes ++ f.nchunks :: f.chunksLabel :: f.chunks)

def Layout.lines (f : Layout) : List Str := f.needed ++ f.rest

theorem Layout.lines_eq (f : Layout) : f.lines
    = f.ident :: f.filename :: f.size :: f.nhashes :: f.hashesLabel ::
      (f.hashes ++ f.nchunks :: f.chunksLabel :: (f.chunks ++ f.rest)) := by
  simp [Layout.lines, Layout.needed]

/-- A hash, an offset and a size are read from the line. -/
def ReadsChunk (line : Str) (c : ChunkInfo) : Prop :=
  sscanf line chunkFormat = .ok [.str c.hashvalue, .int c.offset, .int c.size]

/-- The object's fields and array elements are read from the lines. -/
structure Layout.Reads (f : Layout) (obj : BpkgObj) : Prop where
  ident : sscanf f.ident identFormat = .ok [.str obj.identifier]
  filename : sscanf f.filename filenameFormat = .ok [.str obj.filename]
  size : sscanf f.size sizeFormat = .ok [.int obj.size]
  nhashes : sscanf f.nhashes nhashesFormat = .ok [.int obj.nhashes]
  hashesLabel : bytes "hashes:" <+: f.hashesLabel
  hashesCount : f.hashes.length = obj.nhashes.toInt.toNat
  hashes : ∃ hs, obj.hashes = some hs ∧
    List.Forall₂ (fun line h => sscanf line hashFormat = .ok [.str h]) f.hashes hs
  nchunks : sscanf f.nchunks nchunksFormat = .ok [.int obj.nchunks]
  chunksLabel : bytes "chunks:" <+: f.chunksLabel
  chunksCount : f.chunks.length = obj.nchunks.toInt.toNat
  chunks : ∃ cs, obj.chunks = some cs ∧ List.Forall₂ ReadsChunk f.chunks cs
  /-- No line is cut by the buffer, except that the end of the last one need not be read. -/
  whole : ∀ line ∈ f.needed.dropLast, line.getLast? = some newline

/-- The file's lines are those of the object. -/
def Holds (file : List Str) (obj : BpkgObj) : Prop := ∃ f : Layout, f.lines = file ∧ f.Reads obj

/-! ## One lemma for each step -/

section Steps

variable {junk : Junk} {obj obj' : BpkgObj} {buffer : Str} {file file' : List Str}

theorem readIdent_cases (h : readIdent obj buffer = .ok obj') :
    ∃ w, obj' = { obj with identifier := w } ∧ isNotHexadecimal w = 0 ∧
      ∀ w', sscanf buffer identFormat = .ok [.str w'] → w = w' := by
  obtain ⟨w, hw, h⟩ := Run.bind_eq_ok.mp h
  split at h
  · cases h
  · next hhex =>
      cases h
      refine ⟨w, rfl, not_not.mp hhex, fun w' hw' => ?_⟩
      rcases assignStr_eq_ok hw with ⟨hscan, _⟩ | ⟨hnone, _⟩
      · rw [hscan] at hw'
        cases hw'
        rfl
      · exact absurd hw' (hnone w')

theorem readFilename_cases (h : readFilename obj buffer = .ok obj') :
    ∃ w, obj' = { obj with filename := w } ∧
      ∀ w', sscanf buffer filenameFormat = .ok [.str w'] → w = w' ∧ w'.length ≤ MAX_FILENAME := by
  obtain ⟨w, hw, h⟩ := Run.bind_eq_ok.mp h
  cases h
  refine ⟨w, rfl, fun w' hw' => ?_⟩
  rcases assignStr_eq_ok hw with ⟨hscan, hfit⟩ | ⟨hnone, _⟩
  · rw [hscan] at hw'
    cases hw'
    exact ⟨rfl, Nat.le_of_lt_succ hfit⟩
  · exact absurd hw' (hnone w')

theorem readSize_cases (h : readSize obj buffer = .ok obj') :
    ∃ n, obj' = { obj with size := n } ∧ (∃ vs, sscanf buffer sizeFormat = .ok vs) ∧
      ∀ n', sscanf buffer sizeFormat = .ok [.int n'] → n = n' := by
  obtain ⟨n, hn, h⟩ := Run.bind_eq_ok.mp h
  cases h
  obtain ⟨vs, hvs, _⟩ := Run.bind_eq_ok.mp hn
  refine ⟨n, rfl, ⟨vs, hvs⟩, fun n' hn' => ?_⟩
  rw [assignInt_scanned hn'] at hn
  cases hn
  rfl

theorem readNhashes_cases (h : readNhashes obj buffer = .ok obj') :
    ∃ n, obj' = { obj with nhashes := n } ∧
      (sscanf buffer nhashesFormat = .ok [.int n] ∨
        (∀ n', sscanf buffer nhashesFormat ≠ .ok [.int n']) ∧ n = obj.nhashes) := by
  obtain ⟨n, hn, h⟩ := Run.bind_eq_ok.mp h
  cases h
  exact ⟨n, rfl, assignInt_eq_ok hn⟩

theorem readNchunks_cases (h : readNchunks obj buffer = .ok obj') :
    ∃ n, obj' = { obj with nchunks := n } ∧ n.toInt = obj.nhashes.toInt + 1 ∧
      (sscanf buffer nchunksFormat = .ok [.int n] ∨
        (∀ n', sscanf buffer nchunksFormat ≠ .ok [.int n']) ∧ n = obj.nchunks) := by
  obtain ⟨n, hn, h⟩ := Run.bind_eq_ok.mp h
  obtain ⟨e, he, h⟩ := Run.bind_eq_ok.mp h
  obtain ⟨rfl, _⟩ := cInt_eq_ok.mp he
  split at h
  · cases h
  · next heq =>
      cases h
      exact ⟨n, rfl, not_not.mp heq, assignInt_eq_ok hn⟩

/-- An assigned number is the one on the line, if there is one. -/
theorem eq_of_assigned {format : List Directive} {n n' old : Int32}
    (h : sscanf buffer format = .ok [.int n] ∨
      (∀ n', sscanf buffer format ≠ .ok [.int n']) ∧ n = old)
    (hscan : sscanf buffer format = .ok [.int n']) : n = n' := by
  cases h with
  | inl h =>
      rw [hscan] at h
      cases h
      rfl
  | inr h => exact absurd hscan (h.1 n')

/-- Elements that are read from their lines have the values the lines give. -/
theorem eachLine_values {α : Type} {read : Nat → Str → Run α} {R : Str → α → Prop}
    (hread : ∀ i line x y, R line x → read i line = .ok y → y = x) {lines : List Str} {xs ys : List α}
    (hlines : List.Forall₂ R lines xs) {rest : List Str} {i : Nat}
    (h : eachLine read lines.length i buffer (lines ++ rest) = .ok (ys, file')) :
    ys = xs ∧ file' = rest := by
  induction hlines generalizing i buffer file' ys with
  | nil =>
      cases h
      exact ⟨rfl, rfl⟩
  | cons hx _ ih =>
      obtain ⟨y, hy, h⟩ := Run.bind_eq_ok.mp h
      obtain ⟨⟨zs, file''⟩, hrec, h⟩ := Run.bind_eq_ok.mp h
      obtain ⟨hzs, hrest⟩ := ih hrec
      cases h
      exact ⟨by rw [hread i _ _ _ hx hy, hzs], hrest⟩

/-- If every line gives its element the loop reads them all. -/
theorem eachLine_ok {α : Type} {read : Nat → Str → Run α} {R : Str → α → Prop} {lines : List Str}
    {xs : List α} (hlines : List.Forall₂ R lines xs)
    (hread : ∀ i line x, R line x → x ∈ xs → read i line = .ok x) (rest : List Str) (i : Nat)
    (buffer : Str) : eachLine read lines.length i buffer (lines ++ rest) = .ok (xs, rest) := by
  induction hlines generalizing i buffer with
  | nil => rfl
  | @cons line x lines xs hx _ ih =>
      have hrec := ih (fun i line y hy hmem => hread i line y hy (List.mem_cons_of_mem x hmem))
      show (read i line >>= fun x => eachLine read lines.length (i + 1) line (lines ++ rest) >>= _) = _
      rw [hread i line x hx List.mem_cons_self, Run.ok_bind, hrec]
      rfl

theorem readHash_scanned {initial w : Str} (h : sscanf buffer hashFormat = .ok [.str w]) :
    readHash initial buffer = storeStr (MAX_HASH + 1) w := assignStr_scanned h

/-- The hash on a chunk line. -/
def hashItem (line : Str) : Str :=
  item (some 65) notComma (line.drop (item none isSeparator line).length)

/-- What the directives for the hash do, whatever comes after them. -/
theorem scan_hashItem (ds : List Directive) (line : Str) :
    scan (.set true none isSeparator :: .set false (some 65) notComma :: ds) line
      = if item none isSeparator line = [] ∨ hashItem line = [] then .ok []
        else scan ds ((line.drop (item none isSeparator line).length).drop (hashItem line).length)
          >>= fun vs => .ok (.str (hashItem line) :: vs) := by
  have hfold : item (some 65) notComma (line.drop (item none isSeparator line).length)
      = hashItem line := rfl
  simp only [scan, if_true, Bool.false_eq_true, if_false, hfold]
  by_cases hsep : item none isSeparator line = []
  · rw [if_pos hsep, if_pos (Or.inl hsep)]
  · rw [if_neg hsep]
    by_cases hw : hashItem line = []
    · rw [if_pos (Or.inr hw), if_pos hw]
      rfl
    · have hne : ¬ (item none isSeparator line = [] ∨ hashItem line = []) := by simp [hsep, hw]
      rw [if_neg hne, if_neg hw]
      simp

/-- The scan of a chunk line: its hash, and then the numbers. -/
theorem scan_chunkFormat (line : Str) :
    (scan chunkHashFormat line = .ok [] ∧ scan chunkFormat line = .ok []) ∨
      (scan chunkHashFormat line = .ok [.str (hashItem line)] ∧
        ∃ rest, scan chunkFormat line
          = (scan (chunkFormat.drop 2) rest >>= fun vs => .ok (.str (hashItem line) :: vs))) := by
  have hhash := scan_hashItem [] line
  have hall := scan_hashItem (chunkFormat.drop 2) line
  by_cases h : item none isSeparator line = [] ∨ hashItem line = []
  · rw [if_pos h] at hhash hall
    exact Or.inl ⟨hhash, hall⟩
  · rw [if_neg h] at hhash hall
    exact Or.inr ⟨hhash, _, hall⟩

theorem readChunk_scanned {initial c : ChunkInfo} (h : ReadsChunk buffer c) :
    readChunk initial buffer = (storeStr (MAX_HASH + 1) c.hashvalue >>= fun _ => .ok c) := by
  have hhash : sscanf buffer chunkHashFormat = .ok [.str c.hashvalue] := by
    rcases scan_chunkFormat (cString buffer) with ⟨_, hnone⟩ | ⟨hw, rest, hall⟩
    · rw [ReadsChunk, sscanf, hnone] at h
      cases h
    · rw [ReadsChunk, sscanf, hall] at h
      obtain ⟨vs, _, h⟩ := Run.bind_eq_ok.mp h
      have hhead := (List.cons.inj (Except.ok.inj h)).1
      rw [sscanf, hw, hhead]
  unfold readChunk
  rw [assignStr_scanned hhash, h]
  unfold storeStr
  split <;> rfl

theorem readHash_value {initial w w' : Str} (h : sscanf buffer hashFormat = .ok [.str w])
    (hread : readHash initial buffer = .ok w') : w' = w := by
  rw [readHash_scanned h] at hread
  unfold storeStr at hread
  split at hread
  · cases hread
    rfl
  · cases hread

theorem readChunk_value {initial c c' : ChunkInfo} (h : ReadsChunk buffer c)
    (hread : readChunk initial buffer = .ok c') : c' = c := by
  rw [readChunk_scanned h] at hread
  obtain ⟨_, _, hread⟩ := Run.bind_eq_ok.mp hread
  cases hread
  rfl

theorem readIdent_scanned {w : Str} (h : sscanf buffer identFormat = .ok [.str w])
    (hlen : w.length ≤ MAX_IDENT_SIZE) (hhex : isNotHexadecimal w = 0) :
    readIdent obj buffer = .ok { obj with identifier := w } := by
  unfold readIdent
  rw [assignStr_scanned h, storeStr_ok (Nat.lt_succ_of_le hlen), Run.ok_bind,
    if_neg (not_not.mpr hhex)]

theorem readFilename_scanned {w : Str} (h : sscanf buffer filenameFormat = .ok [.str w])
    (hlen : w.length ≤ MAX_FILENAME) :
    readFilename obj buffer = .ok { obj with filename := w } := by
  unfold readFilename
  rw [assignStr_scanned h, storeStr_ok (Nat.lt_succ_of_le hlen), Run.ok_bind]

theorem readSize_scanned {n : Int32} (h : sscanf buffer sizeFormat = .ok [.int n]) :
    readSize obj buffer = .ok { obj with size := n } := by
  unfold readSize
  rw [assignInt_scanned h, Run.ok_bind]

theorem readNhashes_scanned {n : Int32} (h : sscanf buffer nhashesFormat = .ok [.int n]) :
    readNhashes obj buffer = .ok { obj with nhashes := n } := by
  unfold readNhashes
  rw [assignInt_scanned h, Run.ok_bind]

theorem readNchunks_scanned {n : Int32} (h : sscanf buffer nchunksFormat = .ok [.int n])
    (hcounts : n.toInt = obj.nhashes.toInt + 1) :
    readNchunks obj buffer = .ok { obj with nchunks := n } := by
  have hexp : cInt (obj.nhashes.toInt + 1) = .ok n.toInt := by
    rw [← hcounts]
    exact cInt_ok (intMin_le_toInt _) (toInt_le_intMax _)
  unfold readNchunks
  rw [assignInt_scanned h, Run.ok_bind, hexp, Run.ok_bind, if_neg (not_not.mpr rfl)]

theorem inPlace_ok {read : BpkgObj → Str → Run BpkgObj} (h : read obj buffer = .ok obj') :
    inPlace read obj buffer file = .ok (obj', file) := inPlace_eq_ok.mpr ⟨h, rfl⟩

theorem readHashes_cases (h : readHashes junk obj buffer file = .ok (obj', file')) :
    ∃ hs, obj' = { obj with hashes := some hs } ∧ hs.length = obj.nhashes.toInt.toNat ∧
      file' = file.drop obj.nhashes.toInt.toNat := by
  obtain ⟨⟨hs, rest⟩, heach, h⟩ := Run.bind_eq_ok.mp h
  obtain ⟨hlen, hdrop⟩ := eachLine_cases heach
  cases h
  exact ⟨hs, rfl, hlen, hdrop⟩

theorem readChunks_cases (h : readChunks junk obj buffer file = .ok (obj', file')) :
    ∃ cs, obj' = { obj with chunks := some cs } ∧ cs.length = obj.nchunks.toInt.toNat ∧
      file' = file.drop obj.nchunks.toInt.toNat := by
  obtain ⟨⟨cs, rest⟩, heach, h⟩ := Run.bind_eq_ok.mp h
  obtain ⟨hlen, hdrop⟩ := eachLine_cases heach
  cases h
  exact ⟨cs, rfl, hlen, hdrop⟩

end Steps

/-! ## The sequence of the steps -/

section Sequence

variable {step : BpkgObj → Str → List Str → Run (BpkgObj × List Str)}
  {k : BpkgObj → List Str → Run BpkgObj} {obj r : BpkgObj} {file : List Str}

/-- A loader that returns an object is at the end of the file or has done its next step. -/
theorem onLine_eq_ok (h : onLine step k obj file = .ok r) :
    (file = [] ∧ r = obj) ∨
      ∃ line rest obj' rest', file = line :: rest ∧ step obj line rest = .ok (obj', rest') ∧
        k obj' rest' = .ok r := by
  cases file with
  | nil =>
      cases h
      exact Or.inl ⟨rfl, rfl⟩
  | cons line rest =>
      obtain ⟨⟨obj', rest'⟩, hstep, hk⟩ := Run.bind_eq_ok.mp h
      exact Or.inr ⟨line, rest, obj', rest', rfl, hstep, hk⟩

theorem onLine_place_cases {read : BpkgObj → Str → Run BpkgObj}
    (h : onLine (inPlace read) k obj file = .ok r) :
    (file = [] ∧ r = obj) ∨
      ∃ line rest obj', file = line :: rest ∧ read obj line = .ok obj' ∧ k obj' rest = .ok r := by
  rcases onLine_eq_ok h with hend | ⟨line, rest, obj', rest', hfile, hstep, hk⟩
  · exact Or.inl hend
  · obtain ⟨hread, rfl⟩ := inPlace_eq_ok.mp hstep
    exact Or.inr ⟨line, rest', obj', hfile, hread, hk⟩

theorem onLine_cons {line : Str} {rest rest' : List Str} {obj' : BpkgObj}
    (h : step obj line rest = .ok (obj', rest')) :
    onLine step k obj (line :: rest) = k obj' rest' := by
  show (step obj line rest >>= fun r => k r.1 r.2) = _
  rw [h, Run.ok_bind]

/-- The next step is done, if there is a line for it. -/
theorem onLine_cons_eq_ok {line : Str} {rest : List Str}
    (h : onLine step k obj (line :: rest) = .ok r) :
    ∃ obj' rest', step obj line rest = .ok (obj', rest') ∧ k obj' rest' = .ok r := by
  obtain ⟨⟨obj', rest'⟩, hstep, hk⟩ := Run.bind_eq_ok.mp h
  exact ⟨obj', rest', hstep, hk⟩

theorem onLine_place_eq_ok {read : BpkgObj → Str → Run BpkgObj} {line : Str} {rest : List Str}
    (h : onLine (inPlace read) k obj (line :: rest) = .ok r) :
    ∃ obj', read obj line = .ok obj' ∧ k obj' rest = .ok r := by
  obtain ⟨obj', rest', hstep, hk⟩ := onLine_cons_eq_ok h
  obtain ⟨hread, rfl⟩ := inPlace_eq_ok.mp hstep
  exact ⟨obj', hread, hk⟩

end Sequence

/-- **An object returned for a file with a layout is the one its lines give.** -/
theorem Layout.loaded {f : Layout} {pkg obj : BpkgObj} {junk : Junk} (hreads : f.Reads pkg)
    (h : loadLines junk f.lines = .ok obj) : obj = { pkg with tree := none } := by
  obtain ⟨hs, hhs, hhashes⟩ := hreads.hashes
  obtain ⟨cs, hcs, hchunks⟩ := hreads.chunks
  rw [f.lines_eq] at h
  -- `rfl` puts the object after each step into the next one
  obtain ⟨_, h0, h⟩ := onLine_place_eq_ok h
  obtain ⟨ident, rfl, _, hident⟩ := readIdent_cases h0
  obtain ⟨_, h1, h⟩ := onLine_place_eq_ok h
  obtain ⟨filename, rfl, hfilename⟩ := readFilename_cases h1
  obtain ⟨_, h2, h⟩ := onLine_place_eq_ok h
  obtain ⟨size, rfl, _, hsize⟩ := readSize_cases h2
  obtain ⟨_, h3, h⟩ := onLine_place_eq_ok h
  obtain ⟨nhashes, rfl, hnhashes⟩ := readNhashes_cases h3
  obtain rfl := eq_of_assigned hnhashes hreads.nhashes
  obtain ⟨_, _, h4, h⟩ := onLine_cons_eq_ok h
  obtain ⟨⟨hs', rest⟩, heach, h4⟩ := Run.bind_eq_ok.mp h4
  have hcount : pkg.nhashes.toInt.toNat = f.hashes.length := hreads.hashesCount.symm
  simp only [hcount] at heach
  have hhash : ∀ i line h h', sscanf line hashFormat = .ok [.str h] →
      readHash (junk.hash i) line = .ok h' → h' = h := fun _ _ _ _ => readHash_value
  obtain ⟨rfl, rfl⟩ := eachLine_values hhash hhashes heach
  cases h4
  obtain ⟨_, h5, h⟩ := onLine_place_eq_ok h
  obtain ⟨nchunks, rfl, _, hnchunks⟩ := readNchunks_cases h5
  obtain rfl := eq_of_assigned hnchunks hreads.nchunks
  obtain ⟨_, _, h6, h⟩ := onLine_cons_eq_ok h
  obtain ⟨⟨cs', rest⟩, heach, h6⟩ := Run.bind_eq_ok.mp h6
  have hcount : pkg.nchunks.toInt.toNat = f.chunks.length := hreads.chunksCount.symm
  simp only [hcount] at heach
  have hchunk : ∀ i line c c', ReadsChunk line c →
      readChunk (junk.chunk i) line = .ok c' → c' = c := fun _ _ _ _ => readChunk_value
  obtain ⟨rfl, rfl⟩ := eachLine_values hchunk hchunks heach
  cases h6
  unfold ignoreRest at h
  split at h
  · cases h
    rw [hident _ hreads.ident, (hfilename _ hreads.filename).1, hsize _ hreads.size, ← hhs, ← hcs]
    rfl
  · cases h

/-- What the loader checks, and what its arrays have room for. -/
structure BpkgObj.Loadable (pkg : BpkgObj) : Prop where
  identifier : pkg.identifier.length ≤ MAX_IDENT_SIZE
  hex : isNotHexadecimal pkg.identifier = 0
  filename : pkg.filename.length ≤ MAX_FILENAME
  hashes : ∀ hs, pkg.hashes = some hs → ∀ h ∈ hs, h.length ≤ MAX_HASH
  chunks : ∀ cs, pkg.chunks = some cs → ∀ c ∈ cs, c.hashvalue.length ≤ MAX_HASH
  counts : pkg.nchunks.toInt = pkg.nhashes.toInt + 1

/-- **A file with a layout is loaded when the checks pass.** -/
theorem Layout.load {f : Layout} {pkg : BpkgObj} (junk : Junk) (hreads : f.Reads pkg)
    (hpkg : pkg.Loadable) (hrest : 7 + (f.rest.length : Int) ≤ INT_MAX) :
    loadLines junk f.lines = .ok { pkg with tree := none } := by
  obtain ⟨hs, hhs, hhashes⟩ := hreads.hashes
  obtain ⟨cs, hcs, hchunks⟩ := hreads.chunks
  have hreadHash : ∀ i line h, sscanf line hashFormat = .ok [.str h] → h ∈ hs →
      readHash (junk.hash i) line = .ok h := by
    intro i line h hscan hmem
    rw [readHash_scanned hscan, storeStr_ok (Nat.lt_succ_of_le (hpkg.hashes hs hhs h hmem))]
  have hreadChunk : ∀ i line c, ReadsChunk line c → c ∈ cs →
      readChunk (junk.chunk i) line = .ok c := by
    intro i line c hscan hmem
    rw [readChunk_scanned hscan, storeStr_ok (Nat.lt_succ_of_le (hpkg.chunks cs hcs c hmem)),
      Run.ok_bind]
  have h4 : ∀ (obj : BpkgObj) file, obj.nhashes = pkg.nhashes →
      readHashes junk obj f.hashesLabel (f.hashes ++ file)
        = .ok ({ obj with hashes := some hs }, file) := by
    intro obj file hn
    unfold readHashes
    rw [hn, ← hreads.hashesCount, eachLine_ok hhashes hreadHash, Run.ok_bind]
  have h6 : ∀ (obj : BpkgObj) file, obj.nchunks = pkg.nchunks →
      readChunks junk obj f.chunksLabel (f.chunks ++ file)
        = .ok ({ obj with chunks := some cs }, file) := by
    intro obj file hn
    unfold readChunks
    rw [hn, ← hreads.chunksCount, eachLine_ok hchunks hreadChunk, Run.ok_bind]
  rw [f.lines_eq]
  -- step after step, each on its own line
  apply (onLine_cons (inPlace_ok (readIdent_scanned hreads.ident hpkg.identifier hpkg.hex))).trans
  apply (onLine_cons (inPlace_ok (readFilename_scanned hreads.filename hpkg.filename))).trans
  apply (onLine_cons (inPlace_ok (readSize_scanned hreads.size))).trans
  apply (onLine_cons (inPlace_ok (readNhashes_scanned hreads.nhashes))).trans
  refine (onLine_cons (h4 _ _ ?_)).trans ?_
  · rfl
  refine (onLine_cons (inPlace_ok (readNchunks_scanned hreads.nchunks ?_))).trans ?_
  · exact hpkg.counts
  refine (onLine_cons (h6 _ _ ?_)).trans ?_
  · rfl
  rw [ignoreRest, if_pos hrest, ← hhs, ← hcs]
  rfl

theorem Layout.bpkgLoad {f : Layout} {pkg : BpkgObj} {contents : Str} (junk : Junk)
    (hlines : linesOf bufferSize contents = f.lines) (hreads : f.Reads pkg) (hpkg : pkg.Loadable)
    (hrest : 7 + (f.rest.length : Int) ≤ INT_MAX) :
    Btide.bpkgLoad junk (some contents) = .ok { pkg with tree := none } := by
  rw [bpkgLoad_eq, hlines]
  exact Layout.load junk hreads hpkg hrest

/-! ## The counts of an object -/

/-- The number that a line gives; `old` if there is no such line or it gives none. -/
def countOn (format : List Directive) (line : Option Str) (old : Int32) : Int32 :=
  match line with
  | none => old
  | some line =>
    match sscanf line format with
    | .ok [.int n] => n
    | _ => old

def nhashesOf (junk : Junk) (file : List Str) : Int32 := countOn nhashesFormat file[3]? junk.nhashes

/-- The line with the number of chunks comes after the hash lines. -/
def nchunksOf (junk : Junk) (file : List Str) : Int32 :=
  countOn nchunksFormat file[5 + (nhashesOf junk file).toInt.toNat]? junk.nchunks

theorem countOn_scanned {format : List Directive} {line : Str} {n : Int32} (old : Int32)
    (h : sscanf line format = .ok [.int n]) : countOn format (some line) old = n := by
  simp only [countOn, h]

theorem countOn_none {format : List Directive} {line : Str} (old : Int32)
    (h : ∀ n, sscanf line format ≠ .ok [.int n]) : countOn format (some line) old = old := by
  unfold countOn
  split
  · rfl
  · next line' he =>
      cases he
      split
      · next n hn => exact absurd hn (h n)
      · rfl

/-- What a step that assigns a number leaves in its field. -/
theorem countOn_assigned {format : List Directive} {line : Str} {n old : Int32}
    (h : sscanf line format = .ok [.int n] ∨ (∀ n', sscanf line format ≠ .ok [.int n']) ∧ n = old) :
    countOn format (some line) old = n := by
  rcases h with hscan | ⟨hnone, rfl⟩
  · exact countOn_scanned old hscan
  · exact countOn_none n hnone

/-- **A loaded object's counts** are those of its lines or, where these give none, of the memory; once the
    line with the number of chunks is reached they fit together, and the arrays have their sizes. -/
structure Counted (junk : Junk) (file : List Str) (obj : BpkgObj) : Prop where
  nhashes : obj.nhashes = nhashesOf junk file
  nchunks : obj.nchunks = nchunksOf junk file
  lists : ∀ cs, obj.chunks = some cs → cs.length = obj.nchunks.toInt.toNat ∧
    obj.nchunks.toInt = obj.nhashes.toInt + 1 ∧
    ∃ hs, obj.hashes = some hs ∧ hs.length = obj.nhashes.toInt.toNat

theorem nchunksOf_short {junk : Junk} {file : List Str}
    (h : file.length ≤ 5 + (nhashesOf junk file).toInt.toNat) :
    nchunksOf junk file = junk.nchunks := by
  unfold nchunksOf
  rw [List.getElem?_eq_none h]
  rfl

/-- The lines behind the first five and `n` hash lines. -/
theorem behind_hashes (l₀ l₁ l₂ l₃ l₄ : Str) {l₅ : Str} {more rest : List Str} {n : Nat}
    (h : more.drop n = l₅ :: rest) :
    (l₀ :: l₁ :: l₂ :: l₃ :: l₄ :: more)[5 + n]? = some l₅ ∧
      (l₀ :: l₁ :: l₂ :: l₃ :: l₄ :: more).drop (6 + n) = rest := by
  constructor
  · rw [Nat.add_comm]
    show more[n]? = some l₅
    rw [← Nat.add_zero n, ← List.getElem?_drop, h]
    rfl
  · rw [Nat.add_comm]
    show more.drop (n + 1) = rest
    rw [← List.drop_drop, h]
    rfl

theorem loadLines_counted {junk : Junk} {file : List Str} {obj : BpkgObj}
    (h : loadLines junk file = .ok obj) : Counted junk file obj := by
  -- the file may end before each step; up to its own line a count is what the memory holds
  rcases onLine_place_cases h with ⟨rfl, rfl⟩ | ⟨l₀, file₀, _, rfl, h₀, hk₀⟩
  · exact ⟨rfl, (nchunksOf_short (Nat.le_add_right_of_le (by simp))).symm, fun _ h => by cases h⟩
  obtain ⟨ident, rfl, _⟩ := readIdent_cases h₀
  rcases onLine_place_cases hk₀ with ⟨rfl, rfl⟩ | ⟨l₁, file₁, _, rfl, h₁, hk₁⟩
  · exact ⟨rfl, (nchunksOf_short (Nat.le_add_right_of_le (by simp))).symm, fun _ h => by cases h⟩
  obtain ⟨filename, rfl, _⟩ := readFilename_cases h₁
  rcases onLine_place_cases hk₁ with ⟨rfl, rfl⟩ | ⟨l₂, file₂, _, rfl, h₂, hk₂⟩
  · exact ⟨rfl, (nchunksOf_short (Nat.le_add_right_of_le (by simp))).symm, fun _ h => by cases h⟩
  obtain ⟨size, rfl, _⟩ := readSize_cases h₂
  rcases onLine_place_cases hk₂ with ⟨rfl, rfl⟩ | ⟨l₃, file₃, _, rfl, h₃, hk₃⟩
  · exact ⟨rfl, (nchunksOf_short (Nat.le_add_right_of_le (by simp))).symm, fun _ h => by cases h⟩
  obtain ⟨a, rfl, ha⟩ := readNhashes_cases h₃
  have hcount : ∀ file', nhashesOf junk (l₀ :: l₁ :: l₂ :: l₃ :: file') = a :=
    fun _ => countOn_assigned ha
  rcases onLine_eq_ok hk₃ with ⟨rfl, rfl⟩ | ⟨l₄, more, _, _, rfl, h₄, hk₄⟩
  · refine ⟨(hcount _).symm, (nchunksOf_short ?_).symm, fun _ h => by cases h⟩
    exact Nat.le_add_right_of_le (by simp)
  obtain ⟨hs, rfl, hhs, rfl⟩ := readHashes_cases h₄
  rcases onLine_place_cases hk₄ with ⟨hnil, rfl⟩ | ⟨l₅, file₅, _, hmore, h₅, hk₅⟩
  · have hlen : more.length ≤ a.toInt.toNat := by simpa using hnil
    refine ⟨(hcount _).symm, (nchunksOf_short ?_).symm, fun _ h => by cases h⟩
    rw [hcount]
    simp only [List.length_cons]
    omega
  obtain ⟨b, rfl, hcounts, hb⟩ := readNchunks_cases h₅
  have hnchunks : nchunksOf junk (l₀ :: l₁ :: l₂ :: l₃ :: l₄ :: more) = b := by
    unfold nchunksOf
    rw [hcount, (behind_hashes l₀ l₁ l₂ l₃ l₄ hmore).1]
    exact countOn_assigned hb
  rcases onLine_eq_ok hk₅ with ⟨rfl, rfl⟩ | ⟨l₆, file₆, _, _, rfl, h₆, hk₆⟩
  · exact ⟨(hcount _).symm, hnchunks.symm, fun _ h => by cases h⟩
  obtain ⟨cs, rfl, hcs, rfl⟩ := readChunks_cases h₆
  unfold ignoreRest at hk₆
  split at hk₆
  · cases hk₆
    refine ⟨(hcount _).symm, hnchunks.symm, fun cs' hcs' => ?_⟩
    cases hcs'
    exact ⟨hcs, hcounts, hs, rfl, hhs⟩
  · cases hk₆

end Btide
