import Btide.Chk.Lines

/-!
# `Chk.WellFormed` — which files the loader accepts

A loader that checks its input returns an object only for a file whose lines give every field of it, and
gives up on every other file (`ChecksFormat`). `bpkg_load` ignores what `sscanf` and the inner calls of
`fgets` return, so it meets this exactly for the well-formed files and for those that one of its two
checks catches (`checksFormat_iff`): a converted identifier with a byte that is not a hexadecimal digit,
or two converted counts that do not fit together (`Rejects`).

For any other malformed file there is a memory in which it is not rejected: `Junk.sparing` holds the
counts that pass the check.
-/

namespace Btide

def WellFormed (contents : Str) : Prop := ∃ obj, Holds (linesOf bufferSize contents) obj

/-- The loader returns only what the lines of the file give, and gives up on every other file. -/
structure ChecksFormat (contents : Str) : Prop where
  returned : ∀ junk obj, bpkgLoad junk (some contents) = .ok obj →
    Holds (linesOf bufferSize contents) obj
  rejected : ¬ WellFormed contents → ∀ junk, bpkgLoad junk (some contents) = .error unableToLoad

/-- The files that the loader gives up on whatever the memory holds. -/
inductive Rejects (file : List Str) : Prop
  | ident {line : Str} {rest : List Str} {w : Str} (lines : file = line :: rest)
      (scanned : sscanf line identFormat = .ok [.str w]) (hex : isNotHexadecimal w ≠ 0)
  | counts {ident filename size nhashes label nchunks : Str} {more rest : List Str} {a b : Int32}
      (lines : file = ident :: filename :: size :: nhashes :: label :: more)
      (filenameFits : ∀ w, sscanf filename filenameFormat = .ok [.str w] → w.length ≤ MAX_FILENAME)
      (sizeFits : ∃ vs, sscanf size sizeFormat = .ok vs)
      (scannedHashes : sscanf nhashes nhashesFormat = .ok [.int a])
      (reached : more.drop a.toInt.toNat = nchunks :: rest)
      (scannedChunks : sscanf nchunks nchunksFormat = .ok [.int b])
      (noOverflow : a.toInt ≠ INT_MAX) (differ : b.toInt ≠ a.toInt + 1)

/-! ## The two checks -/

section Steps

variable {obj : BpkgObj} {buffer : Str}

/-- An identifier always fits, so reading it ends in one of two ways. -/
theorem readIdent_total (obj : BpkgObj) (hlen : buffer.length ≤ MAX_IDENT_SIZE) :
    (∃ w, readIdent obj buffer = .ok { obj with identifier := w }) ∨
      readIdent obj buffer = .error unableToLoad := by
  rw [readIdent_line hlen]
  split
  · exact Or.inr rfl
  · exact Or.inl ⟨_, rfl⟩

theorem readFilename_total (obj : BpkgObj)
    (hfits : ∀ w, sscanf buffer filenameFormat = .ok [.str w] → w.length ≤ MAX_FILENAME) :
    ∃ w, readFilename obj buffer = .ok { obj with filename := w } :=
  ⟨_, readFilename_eq_ok.mpr ⟨wordOn_fits_iff.mpr hfits, rfl⟩⟩

theorem readSize_total (obj : BpkgObj) (hfits : ∃ vs, sscanf buffer sizeFormat = .ok vs) :
    ∃ n, readSize obj buffer = .ok { obj with size := n } := ⟨_, readSize_eq_ok.mpr ⟨hfits, rfl⟩⟩

theorem readNchunks_unequal {n : Int32} (h : sscanf buffer nchunksFormat = .ok [.int n])
    (hmax : obj.nhashes.toInt ≠ INT_MAX) (hne : n.toInt ≠ obj.nhashes.toInt + 1) :
    readNchunks obj buffer = .error unableToLoad := by
  have hlo := intMin_le_toInt obj.nhashes
  have hhi := toInt_le_intMax obj.nhashes
  have hexp : cInt (obj.nhashes.toInt + 1) = .ok (obj.nhashes.toInt + 1) :=
    cInt_ok (by omega) (by omega)
  unfold readNchunks
  rw [assignInt_scanned h, Run.ok_bind, hexp, Run.ok_bind, if_pos hne]

end Steps

/-- **The checks catch these files in every memory.** -/
theorem Rejects.load {file : List Str} (h : Rejects file)
    (hlines : ∀ line ∈ file, line.length ≤ MAX_IDENT_SIZE) (junk : Junk) :
    loadLines junk file = .error unableToLoad := by
  cases h with
  | @ident line rest w lines scanned hex =>
      have hlen : w.length ≤ MAX_IDENT_SIZE :=
        (length_of_sscanf_str scanned).trans (hlines line (by rw [lines]; exact List.mem_cons_self))
      rw [lines]
      apply onLine_cons_error
      apply inPlace_error
      unfold readIdent
      rw [assignStr_scanned scanned, storeStr_ok (Nat.lt_succ_of_le hlen), Run.ok_bind, if_pos hex]
  | @counts ident filename size nhashes label nchunks more rest a b lines filenameFits sizeFits
      scannedHashes reached scannedChunks noOverflow differ =>
      have hlen := hlines ident (by rw [lines]; exact List.mem_cons_self)
      rw [lines]
      rcases readIdent_total junk.obj hlen with ⟨w, hident⟩ | hident
      · obtain ⟨w', hfilename⟩ := readFilename_total { junk.obj with identifier := w } filenameFits
        obtain ⟨n, hsize⟩ := readSize_total { junk.obj with identifier := w, filename := w' } sizeFits
        apply (onLine_cons (inPlace_ok hident)).trans
        apply (onLine_cons (inPlace_ok hfilename)).trans
        apply (onLine_cons (inPlace_ok hsize)).trans
        apply (onLine_cons (inPlace_ok (readNhashes_scanned scannedHashes))).trans
        obtain ⟨hs, hhashes⟩ := readHashes_total junk
          { junk.obj with identifier := w, filename := w', size := n, nhashes := a } label more
        apply (onLine_cons hhashes).trans
        show onLine _ _ _ (more.drop a.toInt.toNat) = _
        rw [reached]
        apply onLine_cons_error
        apply inPlace_error
        exact readNchunks_unequal scannedChunks noOverflow differ
      · apply onLine_cons_error
        exact inPlace_error hident

/-! ## Every other malformed file gets through -/

/-- The count on the fourth line; `INT_MAX` if that gives none. -/
def scannedNhashes (file : List Str) : Int32 := countOn nhashesFormat file[3]? 2147483647

/-- A memory that passes the checks wherever the file gives nothing. -/
def Junk.sparing (file : List Str) : Junk where
  identifier := []
  filename := []
  size := 0
  nhashes := scannedNhashes file
  nchunks := scannedNhashes file + 1
  hash := fun _ => []
  chunk := fun _ => ⟨[], 0, 0⟩

section Exits

variable {step : BpkgObj → Str → List Str → Run (BpkgObj × List Str)}
  {k : BpkgObj → List Str → Run BpkgObj} {read : BpkgObj → Str → Run BpkgObj} {obj : BpkgObj}
  {file : List Str}

/-- The loader gives up in the next step or after it. -/
theorem onLine_exit (h : onLine step k obj file = .error unableToLoad) :
    ∃ line rest, file = line :: rest ∧ (step obj line rest = .error unableToLoad ∨
      ∃ obj' rest', step obj line rest = .ok (obj', rest') ∧ k obj' rest' = .error unableToLoad) := by
  cases file with
  | nil => cases h
  | cons line rest =>
      refine ⟨line, rest, rfl, ?_⟩
      cases hstep : step obj line rest with
      | error e =>
          rw [onLine_cons_error hstep] at h
          cases h
          exact Or.inl rfl
      | ok r =>
          rw [onLine_cons hstep] at h
          exact Or.inr ⟨r.1, r.2, rfl, h⟩

/-- The same, for a step that reads no further line. -/
theorem onLine_place_exit (h : onLine (inPlace read) k obj file = .error unableToLoad) :
    ∃ line rest, file = line :: rest ∧ (read obj line = .error unableToLoad ∨
      ∃ obj', read obj line = .ok obj' ∧ k obj' rest = .error unableToLoad) := by
  rcases onLine_exit h with ⟨line, rest, rfl, herr | ⟨obj', rest', hok, hk⟩⟩
  · refine ⟨line, rest, rfl, Or.inl ?_⟩
    cases hread : read obj line with
    | error e =>
        rw [inPlace_error hread] at herr
        cases herr
        rfl
    | ok obj' =>
        rw [inPlace_ok hread] at herr
        cases herr
  · obtain ⟨hread, rfl⟩ := inPlace_eq_ok.mp hok
    exact ⟨line, rest', rfl, Or.inr ⟨obj', hread, hk⟩⟩

end Exits

theorem ignoreRest_noExit (obj : BpkgObj) (file : List Str) : (ignoreRest obj file).NoExit := by
  intro message status h
  unfold ignoreRest at h
  split at h <;> cases h

/-- Nothing after the second check calls `exit`. -/
theorem readChunks_noExit (junk : Junk) (obj : BpkgObj) (file : List Str) :
    (onLine (readChunks junk) ignoreRest obj file).NoExit := by
  cases file with
  | nil => exact Run.NoExit.ok _
  | cons line rest =>
      have hchunks : (readChunks junk obj line rest).NoExit :=
        (eachLine_noExit (fun i => readChunk_noExit (junk.chunk i)) _ _ _ _).bind
          fun _ _ => Run.NoExit.ok _
      exact hchunks.bind fun r _ => ignoreRest_noExit r.1 r.2

theorem readIdent_exit {obj : BpkgObj} {buffer : Str} (hhex : isNotHexadecimal obj.identifier = 0)
    (h : readIdent obj buffer = .error unableToLoad) :
    ∃ w, sscanf buffer identFormat = .ok [.str w] ∧ isNotHexadecimal w ≠ 0 := by
  unfold readIdent at h
  cases hw : assignStr identFormat (MAX_IDENT_SIZE + 1) obj.identifier buffer with
  | error e =>
      rw [hw] at h
      cases h
      exact absurd hw (assignStr_noExit _ _ _ _ _ _)
  | ok w =>
      rw [hw, Run.ok_bind] at h
      split at h
      · next hne =>
          rcases assignStr_eq_ok hw with ⟨hscan, _⟩ | ⟨_, rfl⟩
          · exact ⟨w, hscan, hne⟩
          · exact absurd hhex hne
      · cases h

/-- The second check fails on a converted count, unless the memory holds a wrong one. -/
theorem readNchunks_exit {obj : BpkgObj} {buffer : Str}
    (hsparing : obj.nhashes.toInt ≠ INT_MAX → obj.nchunks.toInt = obj.nhashes.toInt + 1)
    (h : readNchunks obj buffer = .error unableToLoad) :
    obj.nhashes.toInt ≠ INT_MAX ∧ ∃ b, sscanf buffer nchunksFormat = .ok [.int b] ∧
      b.toInt ≠ obj.nhashes.toInt + 1 := by
  unfold readNchunks at h
  cases hn : assignInt nchunksFormat obj.nchunks buffer with
  | error e =>
      rw [hn] at h
      cases h
      exact absurd hn (assignInt_noExit _ _ _ _ _)
  | ok n =>
      rw [hn, Run.ok_bind] at h
      cases hexp : cInt (obj.nhashes.toInt + 1) with
      | error e =>
          rw [hexp] at h
          cases h
          unfold cInt at hexp
          split at hexp <;> cases hexp
      | ok e =>
          rw [hexp, Run.ok_bind] at h
          obtain ⟨rfl, _, hhi⟩ := cInt_eq_ok.mp hexp
          have hmax : obj.nhashes.toInt ≠ INT_MAX := by omega
          split at h
          · next hne =>
              rcases assignInt_eq_ok hn with hscan | ⟨_, rfl⟩
              · exact ⟨hmax, n, hscan, hne⟩
              · exact absurd (hsparing hmax) hne
          · cases h

theorem toInt_succ {n : Int32} (h : n.toInt ≠ INT_MAX) : (n + 1).toInt = n.toInt + 1 := by
  have hlo := intMin_le_toInt n
  have hhi := toInt_le_intMax n
  unfold INT_MAX INT_MIN at *
  have hone : (1 : Int32).toInt = 1 := rfl
  rw [Int32.toInt_add, hone]
  exact Int.bmod_eq_of_le (by omega) (by omega)

/-- **Only the rejected files are rejected in a sparing memory.** -/
theorem rejects_of_sparing {file : List Str}
    (h : loadLines (Junk.sparing file) file = .error unableToLoad) : Rejects file := by
  rcases onLine_place_exit h with ⟨ident, rest, rfl, herr | ⟨obj₁, h₁, h⟩⟩
  · obtain ⟨w, hscan, hhex⟩ := readIdent_exit rfl herr
    exact .ident rfl hscan hhex
  obtain ⟨w, rfl, _⟩ := readIdent_cases h₁
  rcases onLine_place_exit h with ⟨filename, rest, rfl, herr | ⟨obj₂, h₂, h⟩⟩
  · exact absurd herr (readFilename_noExit _ _ _ _)
  obtain ⟨w', rfl, hfilename⟩ := readFilename_cases h₂
  rcases onLine_place_exit h with ⟨size, rest, rfl, herr | ⟨obj₃, h₃, h⟩⟩
  · exact absurd herr (readSize_noExit _ _ _ _)
  obtain ⟨n, rfl, hsize, _⟩ := readSize_cases h₃
  rcases onLine_place_exit h with ⟨nhashes, rest, rfl, herr | ⟨obj₄, h₄, h⟩⟩
  · exact absurd herr (readNhashes_noExit _ _ _ _)
  obtain ⟨a, rfl, ha⟩ := readNhashes_cases h₄
  -- converted or not, the count is that of the sparing memory
  have hsame : countOn nhashesFormat (some nhashes) 2147483647 = a := by
    rcases ha with hscan | ⟨_, hold⟩
    · exact countOn_scanned _ hscan
    · exact hold.symm
  rcases onLine_exit h with ⟨label, more, rfl, herr | ⟨obj₅, rest₅, h₅, h⟩⟩
  · obtain ⟨hs, hhs⟩ := readHashes_total (Junk.sparing (ident :: filename :: size :: nhashes ::
      label :: more)) _ label more
    rw [hhs] at herr
    cases herr
  obtain ⟨hs, rfl, _, hrest₅⟩ := readHashes_cases h₅
  rcases onLine_place_exit h with ⟨nchunks, rest₆, rfl, herr | ⟨obj₆, h₆, h⟩⟩
  · have hsparing : a.toInt ≠ INT_MAX →
        (countOn nhashesFormat (some nhashes) 2147483647 + 1).toInt = a.toInt + 1 := by
      intro hmax
      rw [hsame, toInt_succ hmax]
    obtain ⟨hmax, b, hscan, hne⟩ := readNchunks_exit hsparing herr
    refine .counts rfl (fun w hw => (hfilename w hw).2) hsize ?_ hrest₅.symm hscan hmax hne
    rcases ha with hscan | ⟨hno, _⟩
    · exact hscan
    · rw [countOn_none _ hno] at hsame
      exact absurd (hsame ▸ rfl) hmax
  · exact absurd h (readChunks_noExit _ _ _ _ _)

/-! ## The files on which the loader does what its format asks for -/

theorem Layout.Reads.withTree {f : Layout} {pkg : BpkgObj} (h : f.Reads pkg) (tree : Ptr) :
    f.Reads { pkg with tree := tree } :=
  ⟨h.ident, h.filename, h.size, h.nhashes, h.hashesLabel, h.hashesCount, h.hashes, h.nchunks,
    h.chunksLabel, h.chunksCount, h.chunks, h.whole⟩

/-- **The loader checks the format of exactly the well-formed files and the rejected ones.** -/
theorem checksFormat_iff (contents : Str) :
    ChecksFormat contents ↔ WellFormed contents ∨ Rejects (linesOf bufferSize contents) := by
  have hlines : ∀ line ∈ linesOf bufferSize contents, line.length ≤ MAX_IDENT_SIZE := by
    intro line hline
    exact (length_of_mem_linesOf hline).trans (by decide)
  constructor
  · intro h
    by_contra hno
    obtain ⟨hwell, hrej⟩ := not_or.mp hno
    have hload := h.rejected hwell (Junk.sparing (linesOf bufferSize contents))
    rw [bpkgLoad_eq] at hload
    exact hrej (rejects_of_sparing hload)
  · rintro (⟨pkg, f, hf, hreads⟩ | hrej)
    · refine ⟨fun junk obj hload => ?_, fun hno => absurd ⟨pkg, f, hf, hreads⟩ hno⟩
      rw [bpkgLoad_eq, ← hf] at hload
      refine ⟨f, hf, ?_⟩
      rw [Layout.loaded hreads hload]
      exact hreads.withTree none
    · refine ⟨fun junk obj hload => ?_, fun _ junk => ?_⟩
      · rw [bpkgLoad_eq, hrej.load hlines junk] at hload
        cases hload
      · rw [bpkgLoad_eq]
        exact hrej.load hlines junk

/-- For an empty file the loader returns an object without reading any field of it. -/
theorem checksFormat_empty_fails : ¬ ChecksFormat [] := by
  intro h
  have hload : bpkgLoad (Junk.sparing []) (some []) = .ok (Junk.sparing []).obj := by
    rw [bpkgLoad_eq, linesOf]
    rfl
  obtain ⟨f, hf, _⟩ := h.returned _ _ hload
  have hne : f.lines ≠ [] := by simp [Layout.lines, Layout.needed]
  rw [linesOf] at hf
  exact hne hf

end Btide
