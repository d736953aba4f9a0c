import Btide.Chk.Listing
import Btide.Chk.RoundTrip
import Btide.Chk.WellFormed

/-!
# `Chk.FieldSizes` — do the loaded strings fit their arrays?

Every string of a package is converted straight into an array of fixed size. The widths of the formats do
not protect them all: `%s` for the identifier has no width, but a line is shorter than the array;
`%64s` is right for a hash; `%s` for the file name has no width, and its array is shorter than a line;
`%65[^,]` for the hash of a chunk is one too wide, since the array has 65 bytes with the NUL.

A number that is no `int` is never a good end, since a loader that goes on with whatever `sscanf` has stored
may still write past an array. So the condition is on all lines that the loader gets to: the name on the
second one has at most 256 bytes, the hash on a chunk line has at most 64, and every number is an `int`
(`bpkgLoad_fits_iff`).
-/

namespace Btide

open Run

/-! ## When the strings fit -/

/-- The lines that a loop over `n` elements converts: at the end of the file, the last one again. -/
def linesRead : Nat → Str → List Str → List Str
  | 0, _, _ => []
  | n + 1, buffer, [] => buffer :: linesRead n buffer []
  | n + 1, _, line :: file => line :: linesRead n line file

/-- The conversion has a meaning: the numbers that it finds are of type `int`. -/
def Converts (format : List Directive) (line : Str) : Prop := ∃ vs, sscanf line format = .ok vs

/-- The hash and the numbers on the line of a chunk fit. -/
structure ChunkFits (line : Str) : Prop where
  hash : (wordOn chunkHashFormat [] line).length ≤ MAX_HASH
  numbers : Converts chunkFormat line

/-- The loop over `n` chunks, which starts with the line `label` in the buffer. No more lines are left than
    the counter can count. -/
structure ChunksFit (n : Nat) (label : Str) (rest : List Str) : Prop where
  chunks : ∀ line ∈ linesRead n label rest, ChunkFits line
  counter : 7 + ((rest.drop n).length : Int) ≤ INT_MAX

/-- Every string that the loader gets to behind the first line fits its array, and every number is an
    `int`. The chunks are only read if their number is that of the hashes plus one. -/
structure LinesFit (junk : Junk) (file : List Str) : Prop where
  filename : ∀ line, file[1]? = some line → (wordOn filenameFormat [] line).length ≤ MAX_FILENAME
  size : ∀ line, file[2]? = some line → Converts sizeFormat line
  nhashes : ∀ line, file[3]? = some line → Converts nhashesFormat line
  nchunks : ∀ line, file[5 + (nhashesOf junk file).toInt.toNat]? = some line →
    Converts nchunksFormat line ∧ (nhashesOf junk file).toInt < INT_MAX
  chunks : (nchunksOf junk file).toInt = (nhashesOf junk file).toInt + 1 → ∀ label rest,
    file.drop (6 + (nhashesOf junk file).toInt.toNat) = label :: rest →
      ChunksFit (nchunksOf junk file).toInt.toNat label rest

/-- All strings and numbers that the loader gets to fit. It does not get behind an identifier that is not
    hexadecimal. -/
def FieldsFit (junk : Junk) (file : List Str) : Prop :=
  ∀ ident, file[0]? = some ident → isNotHexadecimal (wordOn identFormat junk.identifier ident) = 0 →
    LinesFit junk file

/-! ## The loop over the chunks -/

section Loops

variable {junk : Junk} {obj : BpkgObj} {line : Str} {file : List Str}

/-- A loop returns if it can read each of its lines. -/
theorem eachLine_returns_iff {α : Type} {read : Nat → Str → Run α} {P : Str → Prop}
    (h : ∀ i line, (∃ x, read i line = .ok x) ↔ P line) {n i : Nat} {buffer : Str} {file : List Str} :
    (∃ r, eachLine read n i buffer file = .ok r) ↔ ∀ line ∈ linesRead n buffer file, P line := by
  induction n generalizing i buffer file with
  | zero => exact iff_of_true ⟨_, rfl⟩ fun line hl => absurd hl List.not_mem_nil
  | succ n ih =>
      obtain ⟨line, rest, hstep, hlines⟩ : ∃ line rest,
          eachLine read (n + 1) i buffer file = (read i line >>= fun x =>
            eachLine read n (i + 1) line rest >>= fun r => .ok (x :: r.1, r.2)) ∧
          linesRead (n + 1) buffer file = line :: linesRead n line rest := by
        cases file with
        | nil => exact ⟨buffer, [], rfl, rfl⟩
        | cons line rest => exact ⟨line, rest, rfl, rfl⟩
      rw [hstep, hlines, List.forall_mem_cons, ← h i line, ← @ih (i + 1) line rest]
      constructor
      · rintro ⟨r, hr⟩
        obtain ⟨x, hx, hr⟩ := bind_eq_ok.mp hr
        obtain ⟨r', hr', _⟩ := bind_eq_ok.mp hr
        exact ⟨⟨x, hx⟩, r', hr'⟩
      · rintro ⟨⟨x, hx⟩, r, hr⟩
        rw [hx, ok_bind, hr]
        exact ⟨_, rfl⟩

/-- The chunks and the lines behind them. -/
theorem onLine_readChunks_orderly :
    (onLine (readChunks junk) ignoreRest obj file).Orderly ↔
      ∀ label rest, file = label :: rest → ChunksFit obj.nchunks.toInt.toNat label rest := by
  cases file with
  | nil =>
      refine iff_of_true (Orderly.ok obj) ?_
      rintro label rest ⟨⟩
  | cons label rest =>
      have hread : ∀ i line, (∃ c, readChunk (junk.chunk i) line = .ok c) ↔ ChunkFits line := by
        intro i line
        rw [readChunk_ok_iff]
        exact ⟨fun h => ⟨h.1, h.2⟩, fun h => ⟨h.hash, h.numbers⟩⟩
      have hloop := @eachLine_returns_iff _ _ ChunkFits hread obj.nchunks.toInt.toNat 0 label rest
      have hnoExit : (eachLine (fun i => readChunk (junk.chunk i)) obj.nchunks.toInt.toNat 0 label
          rest).NoExit := eachLine_noExit (fun i => readChunk_noExit (junk.chunk i)) _ _ _ _
      rw [← hnoExit.orderly_iff] at hloop
      have hcounter : ∀ obj' rest', readChunks junk obj label rest = .ok (obj', rest') →
          ((ignoreRest obj' rest').Orderly ↔
            7 + ((rest.drop obj.nchunks.toInt.toNat).length : Int) ≤ INT_MAX) := by
        intro obj' rest' h
        obtain ⟨cs, _, _, rfl⟩ := readChunks_cases h
        rw [(ignoreRest_noExit _ _).orderly_iff]
        unfold ignoreRest
        split
        · next hle => exact iff_of_true ⟨_, rfl⟩ hle
        · next hle =>
            refine iff_of_false ?_ hle
            rintro ⟨_, ⟨⟩⟩
      show (readChunks junk obj label rest >>= fun r => ignoreRest r.1 r.2).Orderly ↔ _
      rw [orderly_bind]
      constructor
      · rintro ⟨hchunks, hrest⟩ label' rest' heq
        cases heq
        obtain ⟨hloop', _⟩ := orderly_bind.mp hchunks
        have hall := hloop.mp hloop'
        obtain ⟨r, hr⟩ := hnoExit.orderly_iff.mp hloop'
        have hok : readChunks junk obj label rest = .ok ({ obj with chunks := some r.1 }, r.2) := by
          unfold readChunks
          rw [hr, ok_bind]
        exact ⟨hall, (hcounter _ _ hok).mp (hrest _ hok)⟩
      · intro h
        obtain ⟨hchunks, hle⟩ := h label rest rfl
        refine ⟨orderly_bind.mpr ⟨hloop.mpr hchunks, fun r _ => Orderly.ok _⟩, ?_⟩
        rintro ⟨obj', rest'⟩ hok
        exact (hcounter obj' rest' hok).mpr hle

end Loops

/-! ## The loader -/

section Fit

variable {junk : Junk} {obj : BpkgObj} {line : Str} {file rest : List Str}
  {k : BpkgObj → List Str → Run BpkgObj} {read : BpkgObj → Str → Run BpkgObj}

/-- A step that reads no further line. -/
theorem onLine_place_orderly : (onLine (inPlace read) k obj (line :: rest)).Orderly ↔
    (read obj line).Orderly ∧ ∀ obj', read obj line = .ok obj' → (k obj' rest).Orderly := by
  have hstep : onLine (inPlace read) k obj (line :: rest)
      = read obj line >>= fun obj' => k obj' rest := by
    show (inPlace read obj line rest >>= fun r => k r.1 r.2) = _
    unfold inPlace
    cases read obj line with
    | error e => rfl
    | ok obj' => rfl
  rw [hstep, orderly_bind]

/-- A step that returns just under the condition `P`, with the object `next`. -/
theorem onLine_place_orderly_iff {P : Prop} {next : BpkgObj} (hexit : (read obj line).NoExit)
    (hread : ∀ obj', read obj line = .ok obj' ↔ P ∧ obj' = next) :
    (onLine (inPlace read) k obj (line :: rest)).Orderly ↔ P ∧ (k next rest).Orderly := by
  rw [onLine_place_orderly, hexit.orderly_iff]
  constructor
  · rintro ⟨⟨obj', hok⟩, hnext⟩
    obtain ⟨hp, rfl⟩ := (hread obj').mp hok
    exact ⟨hp, hnext _ hok⟩
  · rintro ⟨hp, hnext⟩
    refine ⟨⟨next, (hread next).mpr ⟨hp, rfl⟩⟩, fun obj' hok => ?_⟩
    obtain ⟨_, rfl⟩ := (hread obj').mp hok
    exact hnext

/-- The first check gives up, or the loader goes on. -/
theorem onLine_readIdent_orderly (hlen : line.length ≤ MAX_IDENT_SIZE) :
    (onLine (inPlace readIdent) k obj (line :: rest)).Orderly ↔
      (isNotHexadecimal (wordOn identFormat obj.identifier line) = 0 →
        (k { obj with identifier := wordOn identFormat obj.identifier line } rest).Orderly) := by
  have horderly : (readIdent obj line).Orderly := by
    rw [readIdent_line hlen]
    split
    · exact Orderly.exit _ _
    · exact Orderly.ok _
  rw [onLine_place_orderly]
  constructor
  · rintro ⟨_, hnext⟩ hhex
    exact hnext _ ((readIdent_eq_ok hlen).mpr ⟨hhex, rfl⟩)
  · intro hnext
    refine ⟨horderly, fun obj' hok => ?_⟩
    obtain ⟨hhex, rfl⟩ := (readIdent_eq_ok hlen).mp hok
    exact hnext hhex

/-- The second check. -/
theorem onLine_readNchunks_orderly :
    (onLine (inPlace readNchunks) k obj (line :: rest)).Orderly ↔
      (Converts nchunksFormat line ∧ obj.nhashes.toInt < INT_MAX) ∧
        ((countOn nchunksFormat (some line) obj.nchunks).toInt = obj.nhashes.toInt + 1 →
          (k { obj with nchunks := countOn nchunksFormat (some line) obj.nchunks } rest).Orderly) := by
  have hlo := intMin_le_toInt obj.nhashes
  have horderly : (readNchunks obj line).Orderly ↔
      Converts nchunksFormat line ∧ obj.nhashes.toInt < INT_MAX := by
    unfold readNchunks
    rw [orderly_bind, (assignInt_noExit _ _ _).orderly_iff]
    constructor
    · rintro ⟨⟨n, hn⟩, hnext⟩
      refine ⟨(assignInt_eq_ok_iff.mp hn).1, ?_⟩
      by_contra hmax
      have hover : cInt (obj.nhashes.toInt + 1) = .error .intOverflow := if_neg (by omega)
      have hbad := hnext n hn
      rw [hover] at hbad
      obtain ⟨_, _, he⟩ := hbad _ rfl
      cases he
    · rintro ⟨hconv, hmax⟩
      refine ⟨⟨_, assignInt_eq_ok_iff.mpr ⟨hconv, rfl⟩⟩, fun n _ => ?_⟩
      rw [cInt_ok (by omega) (by omega), ok_bind]
      split
      · exact Orderly.exit _ _
      · exact Orderly.ok _
  rw [onLine_place_orderly, horderly]
  apply and_congr_right
  rintro ⟨hconv, _⟩
  constructor
  · intro hnext hcounts
    exact hnext _ (readNchunks_eq_ok.mpr ⟨hconv, hcounts, rfl⟩)
  · intro hnext obj' hok
    obtain ⟨_, hcounts, rfl⟩ := readNchunks_eq_ok.mp hok
    exact hnext hcounts

/-- From the line behind the hashes on. -/
theorem afterHashes_orderly :
    (onLine (inPlace readNchunks) (onLine (readChunks junk) ignoreRest) obj file).Orderly ↔
      ∀ line rest, file = line :: rest →
        (Converts nchunksFormat line ∧ obj.nhashes.toInt < INT_MAX) ∧
          ((countOn nchunksFormat (some line) obj.nchunks).toInt = obj.nhashes.toInt + 1 →
            ∀ label rest', rest = label :: rest' →
              ChunksFit (countOn nchunksFormat (some line) obj.nchunks).toInt.toNat label rest') := by
  cases file with
  | nil =>
      refine iff_of_true (Orderly.ok obj) ?_
      rintro line rest ⟨⟩
  | cons line rest =>
      rw [onLine_readNchunks_orderly]
      simp only [onLine_readChunks_orderly]
      constructor
      · rintro h line rest ⟨⟩
        exact h
      · intro h
        exact h line rest rfl

/-- A file that ends before the hashes. -/
theorem linesFit_short (hlen : file.length ≤ 5) : LinesFit junk file ↔
    (∀ line, file[1]? = some line → (wordOn filenameFormat [] line).length ≤ MAX_FILENAME) ∧
      (∀ line, file[2]? = some line → Converts sizeFormat line) ∧
      ∀ line, file[3]? = some line → Converts nhashesFormat line := by
  constructor
  · intro h
    exact ⟨h.filename, h.size, h.nhashes⟩
  · rintro ⟨hfilename, hsize, hnhashes⟩
    refine ⟨hfilename, hsize, hnhashes, fun line hline => ?_, fun _ label rest hlabel => ?_⟩
    · rw [List.getElem?_eq_none (by omega)] at hline
      cases hline
    · rw [List.drop_eq_nil_of_le (by omega)] at hlabel
      cases hlabel

/-- A file that goes on behind the label of the hashes, with `more` lines. -/
theorem linesFit_hashes {l₀ l₁ l₂ l₃ l₄ : Str} {more : List Str} :
    LinesFit junk (l₀ :: l₁ :: l₂ :: l₃ :: l₄ :: more) ↔
      (wordOn filenameFormat [] l₁).length ≤ MAX_FILENAME ∧ Converts sizeFormat l₂ ∧
        Converts nhashesFormat l₃ ∧
        ∀ line rest, more.drop (countOn nhashesFormat (some l₃) junk.nhashes).toInt.toNat = line :: rest →
          (Converts nchunksFormat line ∧
              (countOn nhashesFormat (some l₃) junk.nhashes).toInt < INT_MAX) ∧
            ((countOn nchunksFormat (some line) junk.nchunks).toInt
                = (countOn nhashesFormat (some l₃) junk.nhashes).toInt + 1 →
              ∀ label rest', rest = label :: rest' →
                ChunksFit (countOn nchunksFormat (some line) junk.nchunks).toInt.toNat label rest') := by
  have hnhashes : nhashesOf junk (l₀ :: l₁ :: l₂ :: l₃ :: l₄ :: more)
      = countOn nhashesFormat (some l₃) junk.nhashes := rfl
  generalize countOn nhashesFormat (some l₃) junk.nhashes = n at hnhashes ⊢
  -- the lines behind the hashes
  have hline : (l₀ :: l₁ :: l₂ :: l₃ :: l₄ :: more)[5 + n.toInt.toNat]?
      = (more.drop n.toInt.toNat).head? := by
    rw [List.head?_drop, Nat.add_comm]
    rfl
  have hlabel : (l₀ :: l₁ :: l₂ :: l₃ :: l₄ :: more).drop (6 + n.toInt.toNat)
      = (more.drop n.toInt.toNat).tail := by
    rw [List.tail_drop, Nat.add_comm]
    rfl
  have hnchunks : nchunksOf junk (l₀ :: l₁ :: l₂ :: l₃ :: l₄ :: more)
      = countOn nchunksFormat (more.drop n.toInt.toNat).head? junk.nchunks := by
    unfold nchunksOf
    rw [hnhashes, hline]
  constructor
  · intro h
    refine ⟨h.filename l₁ rfl, h.size l₂ rfl, h.nhashes l₃ rfl, fun line rest hmore => ?_⟩
    have hcounts := h.nchunks line
    have hchunks := h.chunks
    rw [hnchunks, hnhashes, hlabel, hmore] at hchunks
    rw [hnhashes, hline, hmore] at hcounts
    exact ⟨hcounts rfl, hchunks⟩
  · rintro ⟨hfilename, hsize, hconverts, hmore⟩
    refine ⟨?_, ?_, ?_, ?_, ?_⟩
    · rintro line ⟨⟩
      exact hfilename
    · rintro line ⟨⟩
      exact hsize
    · rintro line ⟨⟩
      exact hconverts
    · intro line
      rw [hnhashes, hline]
      intro hhead
      obtain ⟨rest, hrest⟩ := List.head?_eq_some_iff.mp hhead
      exact (hmore line rest hrest).1
    · rw [hnchunks, hnhashes, hlabel]
      intro hcounts label rest' htail
      cases hrest : more.drop n.toInt.toNat with
      | nil =>
          rw [hrest] at htail
          cases htail
      | cons line rest =>
          rw [hrest] at hcounts htail
          exact (hmore line rest hrest).2 hcounts label rest' htail

/-- Behind the identifier. -/
theorem afterIdent_orderly {l₀ : Str} (hnhashes : obj.nhashes = junk.nhashes)
    (hnchunks : obj.nchunks = junk.nchunks) :
    (onLine (inPlace readFilename) (onLine (inPlace readSize) (onLine (inPlace readNhashes)
      (onLine (readHashes junk) (onLine (inPlace readNchunks) (onLine (readChunks junk) ignoreRest)))))
        obj file).Orderly ↔ LinesFit junk (l₀ :: file) := by
  -- the file may end before each step
  rcases file with _ | ⟨l₁, file⟩
  · rw [linesFit_short (by simp)]
    simp [onLine, Orderly.ok]
  rw [onLine_place_orderly_iff (readFilename_noExit _ _) fun _ => readFilename_eq_ok]
  rcases file with _ | ⟨l₂, file⟩
  · rw [linesFit_short (by simp)]
    simp [onLine, Orderly.ok]
  rw [onLine_place_orderly_iff (readSize_noExit _ _) fun _ => readSize_eq_ok]
  rcases file with _ | ⟨l₃, file⟩
  · rw [linesFit_short (by simp)]
    simp [onLine, Orderly.ok, Converts]
  rw [onLine_place_orderly_iff (readNhashes_noExit _ _) fun _ => readNhashes_eq_ok]
  rcases file with _ | ⟨l₄, more⟩
  · rw [linesFit_short (by simp)]
    simp [onLine, Orderly.ok, Converts]
  obtain ⟨hs, hhashes⟩ := readHashes_total junk
    { obj with
      filename := wordOn filenameFormat obj.filename l₁
      size := countOn sizeFormat (some l₂) obj.size
      nhashes := countOn nhashesFormat (some l₃) obj.nhashes } l₄ more
  rw [onLine_cons hhashes, afterHashes_orderly, linesFit_hashes, ← hnhashes, ← hnchunks]
  exact Iff.rfl

/-- **The loader is orderly** if all that it gets to fits. -/
theorem loadLines_orderly_iff (hlen : ∀ line ∈ file, line.length ≤ MAX_IDENT_SIZE) :
    (loadLines junk file).Orderly ↔ FieldsFit junk file := by
  rcases file with _ | ⟨l₀, file⟩
  · refine iff_of_true (Orderly.ok junk.obj) ?_
    rintro ident ⟨⟩
  · have hident : FieldsFit junk (l₀ :: file) ↔
        (isNotHexadecimal (wordOn identFormat junk.identifier l₀) = 0 → LinesFit junk (l₀ :: file)) := by
      constructor
      · intro h
        exact h l₀ rfl
      · rintro h ident ⟨⟩
        exact h
    unfold loadLines
    rw [onLine_readIdent_orderly (hlen l₀ List.mem_cons_self), hident]
    apply imp_congr_right
    intro _
    exact afterIdent_orderly rfl rfl

end Fit

/-- **When the loader keeps within its arrays.** For every file and every earlier contents of the memory, the
    loader returns an object or gives up, with no string stored past the end of its field and no number
    that is no `int`, if and only if all strings and numbers on the lines that it gets to fit. -/
theorem bpkgLoad_fits_iff (junk : Junk) (contents : Str) :
    (bpkgLoad junk (some contents)).Orderly ↔ FieldsFit junk (linesOf bufferSize contents) := by
  rw [bpkgLoad_eq]
  apply loadLines_orderly_iff
  intro line hline
  exact (length_of_mem_linesOf hline).trans (by decide)

/-- A file name that is too long is stored. -/
theorem overflow_of_filename {junk : Junk} {ident line : Str} {rest : List Str}
    (hlen : ident.length ≤ MAX_IDENT_SIZE)
    (hident : isNotHexadecimal (wordOn identFormat junk.identifier ident) = 0)
    (hlong : ¬ (wordOn filenameFormat [] line).length ≤ MAX_FILENAME) :
    loadLines junk (ident :: line :: rest) = .error .bufferOverflow := by
  have h₀ : readIdent junk.obj ident = .ok _ := (readIdent_eq_ok hlen).mpr ⟨hident, rfl⟩
  have h₁ : readFilename { junk.obj with identifier := wordOn identFormat junk.identifier ident } line
      = .error .bufferOverflow := by
    rw [readFilename_line, if_neg hlong]
  apply (onLine_cons (inPlace_ok h₀)).trans
  exact onLine_cons_error (inPlace_error h₁)

/-- **A file name of 257 bytes is stored with its NUL in an array of 257 bytes.** -/
theorem bpkgLoad_overflows :
    ∃ contents, contents
        = [writeLine (bytes "ident:ab"), writeLine (bytes "filename:" ++ List.replicate 257 97)].flatten ∧
      ∀ junk, bpkgLoad junk (some contents) = .error .bufferOverflow := by
  refine ⟨_, rfl, fun junk => ?_⟩
  have hname : ∀ c ∈ List.replicate 257 (97 : UInt8), isSpace c = false ∧ c ≠ 0 := by
    intro c hc
    rw [List.eq_of_mem_replicate hc]
    decide
  have hident : ∀ c ∈ bytes "ident:ab", Clean c := forall_mem_of_all (by decide)
  have hfilename : ∀ c ∈ bytes "filename:" ++ List.replicate 257 97, Clean c :=
    append_clean (forall_mem_of_all (by decide)) fun c hc => clean_word (hname c hc).1 (hname c hc).2
  have hscan : sscanf (writeLine (bytes "ident:ab")) identFormat = .ok [.str (bytes "ab")] := by
    rw [sscanf_writeLine hident]
    exact scan_word "ident:" (by decide) (forall_mem_of_all (by decide))
  have hscan' : sscanf (writeLine (bytes "filename:" ++ List.replicate 257 97)) filenameFormat
      = .ok [.str (List.replicate 257 97)] := by
    rw [sscanf_writeLine hfilename]
    exact scan_word "filename:" (List.cons_ne_nil _ _) fun c hc => (hname c hc).1
  rw [bpkgLoad_eq, linesOf_whole]
  · apply overflow_of_filename
    · exact Nat.le_of_lt_succ (by decide)
    · rw [wordOn_scanned _ hscan]
      decide
    · rw [wordOn_scanned _ hscan', List.length_replicate]
      decide
  · intro line hline
    simp only [List.mem_cons, List.not_mem_nil, or_false] at hline
    rcases hline with rfl | rfl
    · exact writeLine_whole hident (by decide)
    · apply writeLine_whole hfilename
      rw [List.length_append, List.length_replicate]
      decide

end Btide
