import Btide.Chk.Layout

/-!
# `Chk.Lines` — what each step of the loader does with any line

`wordOn` and `countOn` give the string and the number on a line, or what the field held before. With them
every step is described on all lines: when it returns, what it then leaves in the object, and when it
comes to a string that does not fit its array or to a number that is no `int`.
-/

namespace Btide

/-! ## The string on a line -/

/-- The string that a line gives; `old` if it gives none. -/
def wordOn (format : List Directive) (old line : Str) : Str :=
  match sscanf line format with
  | .ok [.str w] => w
  | _ => old

section Word

variable {format : List Directive} {line old w : Str} {capacity : Nat}

theorem wordOn_scanned (old : Str) (h : sscanf line format = .ok [.str w]) :
    wordOn format old line = w := by
  unfold wordOn
  rw [h]

theorem wordOn_none (old : Str) (h : ∀ w, sscanf line format ≠ .ok [.str w]) :
    wordOn format old line = old := by
  unfold wordOn
  split
  · next w hw => exact absurd hw (h w)
  · rfl

theorem wordOn_length_le (format : List Directive) (line : Str) :
    (wordOn format [] line).length ≤ line.length := by
  unfold wordOn
  split
  · next w hw => exact length_of_sscanf_str hw
  · exact Nat.zero_le _

theorem wordOn_fits_iff {n : Nat} : (wordOn format [] line).length ≤ n ↔
    ∀ w, sscanf line format = .ok [.str w] → w.length ≤ n := by
  constructor
  · intro h w hw
    rwa [wordOn_scanned [] hw] at h
  · intro h
    unfold wordOn
    split
    · next w hw => exact h w hw
    · exact Nat.zero_le n

theorem sscanf_ne_overflow (line : Str) (format : List Directive) :
    sscanf line format ≠ .error .bufferOverflow := by
  intro h
  cases scan_error h

/-- What an assignment of a string stores, if it fits. -/
theorem assignStr_fits (hint : .int ∉ format) (h : (wordOn format [] line).length ≤ capacity) :
    assignStr format (capacity + 1) old line = .ok (wordOn format old line) := by
  obtain ⟨vs, hvs⟩ := scan_total hint (cString line)
  have hscan : sscanf line format = .ok vs := hvs
  unfold assignStr
  rw [hscan, Run.ok_bind]
  split
  · next w =>
      rw [wordOn_scanned [] hscan] at h
      rw [wordOn_scanned old hscan]
      exact storeStr_ok (Nat.lt_succ_of_le h)
  · next hother =>
      rw [wordOn_none old]
      intro w hw
      rw [hscan] at hw
      exact hother w (Except.ok.inj hw)

theorem assignStr_overflows (h : ¬ (wordOn format [] line).length ≤ capacity) :
    assignStr format (capacity + 1) old line = .error .bufferOverflow := by
  by_cases hw : ∃ w, sscanf line format = .ok [.str w]
  · obtain ⟨w, hw⟩ := hw
    rw [wordOn_scanned [] hw] at h
    rw [assignStr_scanned hw]
    exact if_neg fun hlt => h (Nat.le_of_lt_succ hlt)
  · rw [wordOn_none [] (not_exists.mp hw)] at h
    exact absurd (Nat.zero_le _) h

end Word

/-! ## The steps -/

section Steps

variable {junk : Junk} {obj obj' : BpkgObj} {line : Str} {file file' : List Str}

/-- A line is shorter than the array of the identifier. -/
theorem readIdent_line (hlen : line.length ≤ MAX_IDENT_SIZE) :
    readIdent obj line
      = if isNotHexadecimal (wordOn identFormat obj.identifier line) ≠ 0 then .error unableToLoad
        else .ok { obj with identifier := wordOn identFormat obj.identifier line } := by
  have hfit := (wordOn_length_le identFormat line).trans hlen
  unfold readIdent
  rw [assignStr_fits (by simp [identFormat, lits]) hfit, Run.ok_bind]

theorem readIdent_eq_ok (hlen : line.length ≤ MAX_IDENT_SIZE) :
    readIdent obj line = .ok obj' ↔
      isNotHexadecimal (wordOn identFormat obj.identifier line) = 0 ∧
        obj' = { obj with identifier := wordOn identFormat obj.identifier line } := by
  rw [readIdent_line hlen]
  split
  · next h => simp [h]
  · next h => simp [not_not.mp h, eq_comm]

theorem readFilename_line : readFilename obj line
    = if (wordOn filenameFormat [] line).length ≤ MAX_FILENAME then
        .ok { obj with filename := wordOn filenameFormat obj.filename line }
      else .error .bufferOverflow := by
  unfold readFilename
  by_cases h : (wordOn filenameFormat [] line).length ≤ MAX_FILENAME
  · rw [if_pos h, assignStr_fits (by simp [filenameFormat, lits]) h, Run.ok_bind]
  · rw [if_neg h, assignStr_overflows h, Run.error_bind]

theorem readFilename_eq_ok : readFilename obj line = .ok obj' ↔
    (wordOn filenameFormat [] line).length ≤ MAX_FILENAME ∧
      obj' = { obj with filename := wordOn filenameFormat obj.filename line } := by
  rw [readFilename_line]
  split
  · next h => simp [h, eq_comm]
  · next h => simp [h]

theorem assignInt_line {format : List Directive} {vs : List Value} (old : Int32)
    (h : sscanf line format = .ok vs) :
    assignInt format old line = .ok (countOn format (some line) old) := by
  by_cases hn : ∃ n, sscanf line format = .ok [.int n]
  · obtain ⟨n, hn⟩ := hn
    rw [assignInt_scanned hn, countOn_scanned old hn]
  · have hnone := not_exists.mp hn
    unfold assignInt
    rw [countOn_none old hnone, h, Run.ok_bind]
    split
    · exact absurd h (hnone _)
    · rfl

theorem assignInt_eq_ok_iff {format : List Directive} {old n : Int32} :
    assignInt format old line = .ok n ↔
      (∃ vs, sscanf line format = .ok vs) ∧ n = countOn format (some line) old := by
  constructor
  · intro h
    obtain ⟨vs, hvs, _⟩ := Run.bind_eq_ok.mp h
    rw [assignInt_line old hvs] at h
    exact ⟨⟨vs, hvs⟩, (Except.ok.inj h).symm⟩
  · rintro ⟨⟨vs, hvs⟩, rfl⟩
    exact assignInt_line old hvs

theorem assignInt_ne_overflow (format : List Directive) (old : Int32) (line : Str) :
    assignInt format old line ≠ .error .bufferOverflow := by
  intro h
  rcases Run.bind_eq_error.mp h with h | ⟨vs, _, h⟩
  · exact sscanf_ne_overflow line format h
  · split at h <;> cases h

/-- A step that assigns one number. -/
theorem assignField_eq_ok {format : List Directive} {old : Int32} {set : Int32 → BpkgObj} :
    (assignInt format old line >>= fun n => (.ok (set n) : Run BpkgObj)) = .ok obj' ↔
      (∃ vs, sscanf line format = .ok vs) ∧ obj' = set (countOn format (some line) old) := by
  simp only [Run.bind_eq_ok, assignInt_eq_ok_iff, Except.ok.injEq]
  constructor
  · rintro ⟨n, ⟨hvs, rfl⟩, rfl⟩
    exact ⟨hvs, rfl⟩
  · rintro ⟨hvs, rfl⟩
    exact ⟨_, ⟨hvs, rfl⟩, rfl⟩

theorem readSize_eq_ok : readSize obj line = .ok obj' ↔
    (∃ vs, sscanf line sizeFormat = .ok vs) ∧
      obj' = { obj with size := countOn sizeFormat (some line) obj.size } := assignField_eq_ok

theorem readNhashes_eq_ok : readNhashes obj line = .ok obj' ↔
    (∃ vs, sscanf line nhashesFormat = .ok vs) ∧
      obj' = { obj with nhashes := countOn nhashesFormat (some line) obj.nhashes } :=
  assignField_eq_ok

theorem readNchunks_eq_ok : readNchunks obj line = .ok obj' ↔
    (∃ vs, sscanf line nchunksFormat = .ok vs) ∧
      (countOn nchunksFormat (some line) obj.nchunks).toInt = obj.nhashes.toInt + 1 ∧
      obj' = { obj with nchunks := countOn nchunksFormat (some line) obj.nchunks } := by
  constructor
  · intro h
    obtain ⟨n, hn, h⟩ := Run.bind_eq_ok.mp h
    obtain ⟨hvs, rfl⟩ := assignInt_eq_ok_iff.mp hn
    obtain ⟨e, he, h⟩ := Run.bind_eq_ok.mp h
    obtain ⟨rfl, _⟩ := cInt_eq_ok.mp he
    split at h
    · cases h
    · next heq => exact ⟨hvs, not_not.mp heq, (Except.ok.inj h).symm⟩
  · rintro ⟨⟨vs, hvs⟩, hcounts, rfl⟩
    have hexp : cInt (obj.nhashes.toInt + 1)
        = .ok (countOn nchunksFormat (some line) obj.nchunks).toInt := by
      rw [← hcounts]
      exact cInt_ok (intMin_le_toInt _) (toInt_le_intMax _)
    unfold readNchunks
    rw [assignInt_line _ hvs, Run.ok_bind, hexp, Run.ok_bind, if_neg (not_not.mpr rfl)]

/-- `%64s` stores at most 64 bytes. -/
theorem hashOn_length_le (line : Str) : (wordOn hashFormat [] line).length ≤ MAX_HASH := by
  unfold wordOn
  split
  · next w hw =>
      simp only [sscanf, hashFormat, scan] at hw
      split at hw
      · cases hw
      · cases hw
        exact item_length_le_width 64 _ _
  · exact Nat.zero_le _

theorem readHash_total (initial line : Str) : ∃ h, readHash initial line = .ok h :=
  ⟨_, assignStr_fits (by simp [hashFormat]) (hashOn_length_le line)⟩

theorem readChunk_ok_iff {initial : ChunkInfo} :
    (∃ c, readChunk initial line = .ok c) ↔
      (wordOn chunkHashFormat [] line).length ≤ MAX_HASH ∧ ∃ vs, sscanf line chunkFormat = .ok vs := by
  constructor
  · rintro ⟨c, h⟩
    obtain ⟨w, hw, h⟩ := Run.bind_eq_ok.mp h
    obtain ⟨vs, hvs, _⟩ := Run.bind_eq_ok.mp h
    refine ⟨?_, vs, hvs⟩
    by_contra hlong
    rw [assignStr_overflows hlong] at hw
    cases hw
  · rintro ⟨hfit, vs, hvs⟩
    unfold readChunk
    rw [assignStr_fits (by simp [chunkHashFormat, chunkFormat]) hfit, Run.ok_bind, hvs, Run.ok_bind]
    split <;> exact ⟨_, rfl⟩

end Steps

/-! ## The loop over the hashes -/

theorem eachLine_total {α : Type} {read : Nat → Str → Run α} (h : ∀ i line, ∃ x, read i line = .ok x)
    (n i : Nat) (buffer : Str) (file : List Str) :
    ∃ xs, eachLine read n i buffer file = .ok (xs, file.drop n) := by
  induction n generalizing i buffer file with
  | zero => exact ⟨[], rfl⟩
  | succ n ih =>
      cases file with
      | nil =>
          obtain ⟨x, hx⟩ := h i buffer
          obtain ⟨xs, hxs⟩ := ih (i + 1) buffer []
          refine ⟨x :: xs, ?_⟩
          show (read i buffer >>= fun x => eachLine read n (i + 1) buffer [] >>= _) = _
          rw [hx, Run.ok_bind, hxs]
          simp
      | cons line file =>
          obtain ⟨x, hx⟩ := h i line
          obtain ⟨xs, hxs⟩ := ih (i + 1) line file
          refine ⟨x :: xs, ?_⟩
          show (read i line >>= fun x => eachLine read n (i + 1) line file >>= _) = _
          rw [hx, Run.ok_bind, hxs]
          rfl

theorem readHashes_total (junk : Junk) (obj : BpkgObj) (line : Str) (file : List Str) :
    ∃ hs, readHashes junk obj line file
      = .ok ({ obj with hashes := some hs }, file.drop obj.nhashes.toInt.toNat) := by
  obtain ⟨hs, hhs⟩ := eachLine_total (fun i => readHash_total (junk.hash i)) obj.nhashes.toInt.toNat 0
    line file
  refine ⟨hs, ?_⟩
  unfold readHashes
  rw [hhs, Run.ok_bind]

/-! ## Steps that never give up -/

theorem readFilename_noExit (obj : BpkgObj) (buffer : Str) : (readFilename obj buffer).NoExit :=
  (assignStr_noExit _ _ _ _).bind fun _ _ => Run.NoExit.ok _

theorem readSize_noExit (obj : BpkgObj) (buffer : Str) : (readSize obj buffer).NoExit :=
  (assignInt_noExit _ _ _).bind fun _ _ => Run.NoExit.ok _

theorem readNhashes_noExit (obj : BpkgObj) (buffer : Str) : (readNhashes obj buffer).NoExit :=
  (assignInt_noExit _ _ _).bind fun _ _ => Run.NoExit.ok _

theorem readChunk_noExit (initial : ChunkInfo) (buffer : Str) : (readChunk initial buffer).NoExit := by
  refine (assignStr_noExit _ _ _ _).bind fun w _ => ?_
  refine (scan_noExit _ _).bind fun vs _ => ?_
  split <;> exact Run.NoExit.ok _

theorem eachLine_noExit {α : Type} {read : Nat → Str → Run α} (h : ∀ i line, (read i line).NoExit)
    (n i : Nat) (buffer : Str) (file : List Str) : (eachLine read n i buffer file).NoExit := by
  induction n generalizing i buffer file with
  | zero => exact Run.NoExit.ok _
  | succ n ih =>
      cases file with
      | nil => exact (h i buffer).bind fun _ _ => (ih _ _ _).bind fun _ _ => Run.NoExit.ok _
      | cons line file => exact (h i line).bind fun _ _ => (ih _ _ _).bind fun _ _ => Run.NoExit.ok _

/-! ## A loader that stops -/

theorem onLine_cons_error {step : BpkgObj → Str → List Str → Run (BpkgObj × List Str)}
    {k : BpkgObj → List Str → Run BpkgObj} {obj : BpkgObj} {line : Str} {rest : List Str} {e : Abort}
    (h : step obj line rest = .error e) : onLine step k obj (line :: rest) = .error e := by
  show (step obj line rest >>= fun r => k r.1 r.2) = _
  rw [h, Run.error_bind]

theorem inPlace_error {read : BpkgObj → Str → Run BpkgObj} {obj : BpkgObj} {buffer : Str}
    {file : List Str} {e : Abort} (h : read obj buffer = .error e) :
    inPlace read obj buffer file = .error e := by
  unfold inPlace
  rw [h, Run.error_bind]

end Btide
