import Btide.Chk.Layout

/-!
# `Chk.RoundTrip` — loading undoes writing

A `Package` is a value that the file format can hold; `Package.write` is its text. Each written line ends
in its only newline and fits in the loader's buffer, so `fgets` delivers the lines as they were written
(`linesOf_write`); each format reads back its line, so the text has a layout that gives the package
(`writeLayout_reads`). `bpkgLoad_write` puts the two together.
-/

namespace Btide

/-- A byte that can stand inside a line: no newline and no NUL. -/
def Clean (c : UInt8) : Prop := c ≠ newline ∧ c ≠ 0

instance (c : UInt8) : Decidable (Clean c) := inferInstanceAs (Decidable (_ ∧ _))

/-- A 64-digit hexadecimal string. -/
structure IsHash (h : Str) : Prop where
  length : h.length = 64
  hex : ∀ c ∈ h, isxdigit c = true

/-- A package that a file can hold. -/
structure Package where
  identifier : Str
  filename : Str
  size : Int32
  hashes : List Str
  chunks : List ChunkInfo
  identifier_ne : identifier ≠ []
  identifier_length : identifier.length ≤ 1024
  identifier_hex : ∀ c ∈ identifier, isxdigit c = true
  filename_ne : filename ≠ []
  filename_length : filename.length ≤ 256
  filename_word : ∀ c ∈ filename, isSpace c = false ∧ c ≠ 0
  size_nonneg : 0 ≤ size.toInt
  hashes_hex : ∀ h ∈ hashes, IsHash h
  chunks_hex : ∀ c ∈ chunks, IsHash c.hashvalue
  chunks_nonneg : ∀ c ∈ chunks, 0 ≤ c.offset.toInt ∧ 0 ≤ c.size.toInt
  counts : chunks.length = hashes.length + 1
  /-- `nchunks` is an `int`. -/
  counts_fit : (chunks.length : Int) ≤ INT_MAX

namespace Package

def nhashes (pkg : Package) : Int32 := Int32.ofNat pkg.hashes.length

def nchunks (pkg : Package) : Int32 := Int32.ofNat pkg.chunks.length

/-- The object with the package's fields, its tree not assigned. -/
def obj (pkg : Package) : BpkgObj where
  identifier := pkg.identifier
  filename := pkg.filename
  size := pkg.size
  nhashes := pkg.nhashes
  hashes := some pkg.hashes
  nchunks := pkg.nchunks
  chunks := some pkg.chunks
  tree := none

end Package

/-! ## The text of a package -/

def writeLine (w : Str) : Str := w ++ [newline]

def writeHash (h : Str) : Str := writeLine (9 :: h)

def writeChunk (c : ChunkInfo) : Str :=
  writeLine (9 :: (c.hashvalue ++ (44 :: (decimal c.offset.toInt.toNat ++
    (44 :: decimal c.size.toInt.toNat)))))

/-- The lines of a package's text. -/
def Package.writeLayout (pkg : Package) : Layout where
  ident := writeLine (bytes "ident:" ++ pkg.identifier)
  filename := writeLine (bytes "filename:" ++ pkg.filename)
  size := writeLine (bytes "size:" ++ decimal pkg.size.toInt.toNat)
  nhashes := writeLine (bytes "nhashes:" ++ decimal pkg.hashes.length)
  hashesLabel := writeLine (bytes "hashes:")
  hashes := pkg.hashes.map writeHash
  nchunks := writeLine (bytes "nchunks:" ++ decimal pkg.chunks.length)
  chunksLabel := writeLine (bytes "chunks:")
  chunks := pkg.chunks.map writeChunk
  rest := []

def Package.write (pkg : Package) : Str := pkg.writeLayout.lines.flatten

/-! ## The bytes of a line -/

theorem isxdigit_iff {c : UInt8} : isxdigit c = true ↔
    (48 ≤ c.toNat ∧ c.toNat ≤ 57) ∨ (65 ≤ c.toNat ∧ c.toNat ≤ 70) ∨ (97 ≤ c.toNat ∧ c.toNat ≤ 102) := by
  simp [isxdigit, UInt8.le_iff_toNat_le]

theorem clean_of_toNat {c : UInt8} (h : 14 ≤ c.toNat) : Clean c := by
  constructor
  · rintro rfl
    revert h
    decide
  · rintro rfl
    revert h
    decide

theorem not_isSpace_of_toNat {c : UInt8} (h : 33 ≤ c.toNat) : isSpace c = false := by
  rw [Bool.eq_false_iff]
  intro hs
  rw [isSpace_iff] at hs
  omega

theorem isxdigit_ge {c : UInt8} (h : isxdigit c = true) : 48 ≤ c.toNat := by
  rw [isxdigit_iff] at h
  omega

theorem isDigit_ge {c : UInt8} (h : isDigit c = true) : 48 ≤ c.toNat := (isDigit_iff.mp h).1

theorem notComma_of_toNat {c : UInt8} (h : 45 ≤ c.toNat) : notComma c = true := by
  have hne : c ≠ 44 := by
    rintro rfl
    revert h
    decide
  simpa [notComma] using hne

theorem clean_word {c : UInt8} (hspace : isSpace c = false) (hzero : c ≠ 0) : Clean c := by
  refine ⟨?_, hzero⟩
  rintro rfl
  cases hspace

/-- A line of clean bytes is delivered whole, and `sscanf` sees all of it. -/
theorem writeLine_whole {w : Str} (hclean : ∀ c ∈ w, Clean c) (hlen : w.length < 1035) :
    Whole (bufferSize - 2 + 1) (writeLine w) :=
  ⟨w, rfl, fun h => (hclean newline h).1 rfl, hlen⟩

theorem sscanf_writeLine {w : Str} (hclean : ∀ c ∈ w, Clean c) (format : List Directive) :
    sscanf (writeLine w) format = scan format (w ++ [newline]) := by
  have hzero : (0 : UInt8) ∉ writeLine w := by
    intro h
    rcases List.mem_append.mp h with h | h
    · exact (hclean 0 h).2 rfl
    · revert h
      decide
  unfold sscanf
  rw [cString_eq hzero, writeLine]

theorem decimal_clean (n : Nat) : ∀ c ∈ decimal n, Clean c := by
  intro c hc
  have := isDigit_ge (mem_decimal hc)
  exact clean_of_toNat (by omega)

theorem hash_clean {h : Str} (hh : ∀ c ∈ h, isxdigit c = true) : ∀ c ∈ h, Clean c := by
  intro c hc
  have := isxdigit_ge (hh c hc)
  exact clean_of_toNat (by omega)

theorem append_clean {u v : Str} (hu : ∀ c ∈ u, Clean c) (hv : ∀ c ∈ v, Clean c) :
    ∀ c ∈ u ++ v, Clean c := by
  intro c hc
  rcases List.mem_append.mp hc with hc | hc
  · exact hu c hc
  · exact hv c hc

theorem cons_clean {d : UInt8} {v : Str} (hd : Clean d) (hv : ∀ c ∈ v, Clean c) :
    ∀ c ∈ d :: v, Clean c := by
  intro c hc
  cases hc with
  | head => exact hd
  | tail _ hc => exact hv c hc

/-! ## Each format reads its line -/

theorem newline_stops {p : UInt8 → Bool} (h : p newline = false) : Stops p [newline] := Stops.cons h []

/-- A labelled word. -/
theorem scan_word (label : String) {w : Str} (hne : w ≠ []) (hw : ∀ c ∈ w, isSpace c = false) :
    scan (lits label ++ [.space, .str none, .space]) (bytes label ++ w ++ [newline])
      = .ok [.str w] := by
  have hstart : Stops isSpace (w ++ [newline]) := by
    cases w with
    | nil => exact absurd rfl hne
    | cons c w => exact Stops.cons (hw c List.mem_cons_self) _
  have hstop : Stops (fun c => !isSpace c) [newline] := newline_stops rfl
  rw [List.append_assoc, scan_lits, scan_space hstart, scan_str hne hw hstop]
  rfl

/-- A labelled number. -/
theorem scan_number (label : String) {n : Int32} {m : Nat} (hn : n.toInt = m) {ds : List Directive}
    (hds : scan ds [newline] = .ok []) :
    scan (lits label ++ .int :: ds) (bytes label ++ decimal m ++ [newline]) = .ok [.int n] := by
  rw [List.append_assoc, scan_lits, scan_int hn (newline_stops rfl), hds]
  rfl

theorem scan_spaced_number (label : String) {n : Int32} {m : Nat} (hn : n.toInt = m)
    {ds : List Directive} (hds : scan ds [newline] = .ok []) :
    scan (lits label ++ .space :: .int :: ds) (bytes label ++ decimal m ++ [newline])
      = .ok [.int n] := by
  rw [List.append_assoc, scan_lits, scan_space (decimal_stops m _),
    scan_int hn (newline_stops rfl), hds]
  rfl

theorem scan_hash {h : Str} (hh : IsHash h) : scan hashFormat (9 :: h ++ [newline]) = .ok [.str h] := by
  have hspace : ∀ c ∈ h, isSpace c = false := by
    intro c hc
    have := isxdigit_ge (hh.hex c hc)
    exact not_isSpace_of_toNat (by omega)
  rw [List.cons_append, hashFormat, scan_str_skip rfl, scan_str_width hh.length hspace]
  rfl

theorem scan_chunk {c : ChunkInfo} (hh : IsHash c.hashvalue) {offset size : Nat}
    (hoffset : c.offset.toInt = offset) (hsize : c.size.toInt = size) :
    scan chunkFormat (9 :: (c.hashvalue ++ (44 :: (decimal offset ++ (44 :: decimal size))))
      ++ [newline]) = .ok [.str c.hashvalue, .int c.offset, .int c.size] := by
  have hne : c.hashvalue ≠ [] := by
    intro h
    have := hh.length
    rw [h] at this
    cases this
  have hcomma : ∀ d ∈ c.hashvalue, notComma d = true := by
    intro d hd
    have := isxdigit_ge (hh.hex d hd)
    exact notComma_of_toNat (by omega)
  -- the separators end at the first digit of the hash
  have hsep : ∀ rest, Stops isSeparator (c.hashvalue ++ rest) := by
    intro rest
    obtain ⟨d, ds, hd⟩ := List.exists_cons_of_ne_nil hne
    have hge := isxdigit_ge (hh.hex d (by rw [hd]; exact List.mem_cons_self))
    rw [hd]
    apply Stops.cons
    rw [Bool.eq_false_iff]
    intro hs
    have hs' : d = 44 ∨ d = 32 ∨ d = 9 := by simpa [isSeparator] using hs
    rcases hs' with rfl | rfl | rfl <;> revert hge <;> decide
  have htab : ∀ d ∈ ([9] : Str), isSeparator d = true := forall_mem_of_all (by decide)
  have hassoc : 9 :: (c.hashvalue ++ (44 :: (decimal offset ++ (44 :: decimal size)))) ++ [newline]
      = [9] ++ (c.hashvalue ++ (44 :: (decimal offset ++ (44 :: (decimal size ++ [newline]))))) := by
    simp
  rw [hassoc, chunkFormat, scan_set_any (by simp) htab (hsep _),
    scan_set hne (by rw [hh.length]; omega) hcomma (Stops.cons rfl _), scan_lit,
    scan_space (decimal_stops offset _), scan_int hoffset (Stops.cons rfl _), scan_lit,
    scan_space (decimal_stops size _), scan_int hsize (newline_stops rfl)]
  rfl

/-! ## The layout of the text -/

namespace Package

variable (pkg : Package)

theorem nchunks_toInt : pkg.nchunks.toInt = pkg.chunks.length := by
  have hmax := pkg.counts_fit
  unfold INT_MAX at hmax
  exact Int32.toInt_ofNat_of_lt (by omega)

theorem nhashes_toInt : pkg.nhashes.toInt = pkg.hashes.length := by
  have hmax := pkg.counts_fit
  have hcounts := pkg.counts
  unfold INT_MAX at hmax
  exact Int32.toInt_ofNat_of_lt (by omega)

theorem decimal_fits {n : Nat} (h : (n : Int) ≤ INT_MAX) : (decimal n).length ≤ 10 := by
  unfold INT_MAX at h
  exact decimal_length_le (by omega) (by omega)

theorem decimal_toNat_fits {n : Int32} (h : 0 ≤ n.toInt) : (decimal n.toInt.toNat).length ≤ 10 := by
  apply decimal_fits
  rw [Int.toNat_of_nonneg h]
  exact toInt_le_intMax n

/-- Every written line is clean and fits in the buffer. -/
theorem mem_write {line : Str} (h : line ∈ pkg.writeLayout.lines) :
    ∃ w, line = writeLine w ∧ (∀ c ∈ w, Clean c) ∧ w.length < 1035 := by
  have htab : Clean 9 := by decide
  have hcomma : Clean 44 := by decide
  have hlines : pkg.writeLayout.lines = pkg.writeLayout.ident :: pkg.writeLayout.filename ::
      pkg.writeLayout.size :: pkg.writeLayout.nhashes :: pkg.writeLayout.hashesLabel ::
      (pkg.hashes.map writeHash ++ pkg.writeLayout.nchunks :: pkg.writeLayout.chunksLabel ::
        pkg.chunks.map writeChunk) := by
    simp [Layout.lines, Layout.needed, writeLayout]
  have hnchunks := decimal_fits pkg.counts_fit
  have hnhashes : (decimal pkg.hashes.length).length ≤ 10 := by
    have hcounts := pkg.counts
    have hmax := pkg.counts_fit
    exact decimal_fits (by omega)
  rw [hlines] at h
  simp only [List.mem_cons, List.mem_append, List.mem_map] at h
  rcases h with rfl | rfl | rfl | rfl | rfl | ⟨hash, hmem, rfl⟩ | rfl | rfl | ⟨c, hmem, rfl⟩
  · refine ⟨_, rfl, append_clean (forall_mem_of_all (by decide)) (hash_clean pkg.identifier_hex), ?_⟩
    have := pkg.identifier_length
    rw [List.length_append]
    exact Nat.lt_of_le_of_lt (Nat.add_le_add_left this _) (by decide)
  · refine ⟨_, rfl, append_clean (forall_mem_of_all (by decide)) fun c hc => ?_, ?_⟩
    · obtain ⟨hspace, hzero⟩ := pkg.filename_word c hc
      exact clean_word hspace hzero
    · have := pkg.filename_length
      rw [List.length_append]
      exact Nat.lt_of_le_of_lt (Nat.add_le_add_left this _) (by decide)
  · refine ⟨_, rfl, append_clean (forall_mem_of_all (by decide)) (decimal_clean _), ?_⟩
    have := decimal_toNat_fits pkg.size_nonneg
    rw [List.length_append]
    exact Nat.lt_of_le_of_lt (Nat.add_le_add_left this _) (by decide)
  · refine ⟨_, rfl, append_clean (forall_mem_of_all (by decide)) (decimal_clean _), ?_⟩
    rw [List.length_append]
    exact Nat.lt_of_le_of_lt (Nat.add_le_add_left hnhashes _) (by decide)
  · exact ⟨_, rfl, forall_mem_of_all (by decide), by decide⟩
  · have hh := pkg.hashes_hex hash hmem
    refine ⟨_, rfl, cons_clean htab (hash_clean hh.hex), ?_⟩
    rw [List.length_cons, hh.length]
    omega
  · refine ⟨_, rfl, append_clean (forall_mem_of_all (by decide)) (decimal_clean _), ?_⟩
    rw [List.length_append]
    exact Nat.lt_of_le_of_lt (Nat.add_le_add_left hnchunks _) (by decide)
  · exact ⟨_, rfl, forall_mem_of_all (by decide), by decide⟩
  · have hh := pkg.chunks_hex c hmem
    obtain ⟨hoffset, hsize⟩ := pkg.chunks_nonneg c hmem
    refine ⟨_, rfl, cons_clean htab (append_clean (hash_clean hh.hex) (cons_clean hcomma
      (append_clean (decimal_clean _) (cons_clean hcomma (decimal_clean _))))), ?_⟩
    have ho := decimal_toNat_fits hoffset
    have hs := decimal_toNat_fits hsize
    simp only [List.length_cons, List.length_append, hh.length]
    omega

/-- **`fgets` delivers the lines that were written.** -/
theorem linesOf_write : linesOf bufferSize pkg.write = pkg.writeLayout.lines := by
  apply linesOf_whole
  intro line hline
  obtain ⟨w, rfl, hclean, hlen⟩ := pkg.mem_write hline
  exact writeLine_whole hclean hlen

/-- A format reads a written line. -/
theorem sscanf_of_mem {w : Str} (h : writeLine w ∈ pkg.writeLayout.lines) (format : List Directive) :
    sscanf (writeLine w) format = scan format (w ++ [newline]) := by
  obtain ⟨v, hv, hclean, _⟩ := pkg.mem_write h
  rw [hv]
  obtain rfl : w = v := List.append_cancel_right hv
  exact sscanf_writeLine hclean format

theorem writeHash_mem {h : Str} (hh : h ∈ pkg.hashes) : writeHash h ∈ pkg.writeLayout.lines := by
  have hmem : writeHash h ∈ pkg.writeLayout.hashes := List.mem_map_of_mem hh
  simp [Layout.lines, Layout.needed, hmem]

theorem writeChunk_mem {c : ChunkInfo} (hc : c ∈ pkg.chunks) :
    writeChunk c ∈ pkg.writeLayout.lines := by
  have hmem : writeChunk c ∈ pkg.writeLayout.chunks := List.mem_map_of_mem hc
  simp [Layout.lines, Layout.needed, hmem]

/-- **The formats read the package back from its lines.** -/
theorem writeLayout_reads : pkg.writeLayout.Reads pkg.obj := by
  have hsize : pkg.size.toInt = (pkg.size.toInt.toNat : Int) := (Int.toNat_of_nonneg pkg.size_nonneg).symm
  -- `%s` stops at white space, and hexadecimal digits are none
  have hxspace : ∀ c ∈ pkg.identifier, isSpace c = false := by
    intro c hc
    have := isxdigit_ge (pkg.identifier_hex c hc)
    exact not_isSpace_of_toNat (by omega)
  constructor
  case ident =>
    rw [writeLayout, pkg.sscanf_of_mem (by simp [Layout.lines, Layout.needed, writeLayout])]
    exact scan_word "ident:" pkg.identifier_ne hxspace
  case filename =>
    rw [writeLayout, pkg.sscanf_of_mem (by simp [Layout.lines, Layout.needed, writeLayout])]
    exact scan_word "filename:" pkg.filename_ne fun c hc => (pkg.filename_word c hc).1
  case size =>
    rw [writeLayout, pkg.sscanf_of_mem (by simp [Layout.lines, Layout.needed, writeLayout])]
    exact scan_spaced_number "size:" hsize rfl
  case nhashes =>
    rw [writeLayout, pkg.sscanf_of_mem (by simp [Layout.lines, Layout.needed, writeLayout])]
    exact scan_spaced_number "nhashes:" pkg.nhashes_toInt rfl
  case hashesLabel => exact List.prefix_append _ _
  case hashesCount =>
    show (pkg.hashes.map writeHash).length = pkg.nhashes.toInt.toNat
    rw [List.length_map, pkg.nhashes_toInt, Int.toNat_natCast]
  case hashes =>
    refine ⟨pkg.hashes, rfl, List.forall₂_map_left_iff.mpr (List.forall₂_same.mpr fun h hh => ?_)⟩
    rw [writeHash, pkg.sscanf_of_mem (pkg.writeHash_mem hh)]
    exact scan_hash (pkg.hashes_hex h hh)
  case nchunks =>
    rw [writeLayout, pkg.sscanf_of_mem (by simp [Layout.lines, Layout.needed, writeLayout])]
    exact scan_number "nchunks:" pkg.nchunks_toInt rfl
  case chunksLabel => exact List.prefix_append _ _
  case chunksCount =>
    show (pkg.chunks.map writeChunk).length = pkg.nchunks.toInt.toNat
    rw [List.length_map, pkg.nchunks_toInt, Int.toNat_natCast]
  case chunks =>
    refine ⟨pkg.chunks, rfl, List.forall₂_map_left_iff.mpr (List.forall₂_same.mpr fun c hc => ?_)⟩
    obtain ⟨hoffset, hsize⟩ := pkg.chunks_nonneg c hc
    rw [ReadsChunk, writeChunk, pkg.sscanf_of_mem (pkg.writeChunk_mem hc)]
    exact scan_chunk (pkg.chunks_hex c hc) (Int.toNat_of_nonneg hoffset).symm
      (Int.toNat_of_nonneg hsize).symm
  case whole =>
    intro line hline
    have hlines : line ∈ pkg.writeLayout.lines := by
      rw [Layout.lines]
      exact List.mem_append_left _ (List.mem_of_mem_dropLast hline)
    obtain ⟨w, rfl, _⟩ := pkg.mem_write hlines
    rw [writeLine, List.getLast?_concat]

theorem obj_loadable : pkg.obj.Loadable where
  identifier := pkg.identifier_length.trans (by decide)
  hex := if_pos (List.all_eq_true.mpr pkg.identifier_hex)
  filename := pkg.filename_length
  hashes := by
    intro hs hhs h hmem
    cases hhs
    exact (pkg.hashes_hex h hmem).length.le
  chunks := by
    intro cs hcs c hmem
    cases hcs
    exact (pkg.chunks_hex c hmem).length.le
  counts := by
    show pkg.nchunks.toInt = pkg.nhashes.toInt + 1
    rw [pkg.nchunks_toInt, pkg.nhashes_toInt, pkg.counts]
    rfl

end Package

/-- A package of any number of hashes. -/
def Package.uniform (m : Nat) (h : ((m + 1 : Nat) : Int) ≤ INT_MAX) : Package where
  identifier := bytes "ab"
  filename := bytes "f"
  size := 8
  hashes := List.replicate m (List.replicate 64 48)
  chunks := List.replicate (m + 1) ⟨List.replicate 64 48, 0, 8⟩
  identifier_ne := by decide
  identifier_length := by decide
  identifier_hex := forall_mem_of_all (by decide)
  filename_ne := by decide
  filename_length := by decide
  filename_word := forall_mem_of_all (by decide)
  size_nonneg := by decide
  hashes_hex := by
    intro h hmem
    rw [List.eq_of_mem_replicate hmem]
    exact ⟨List.length_replicate, forall_mem_of_all (by decide)⟩
  chunks_hex := by
    intro c hmem
    rw [List.eq_of_mem_replicate hmem]
    exact ⟨List.length_replicate, forall_mem_of_all (by decide)⟩
  chunks_nonneg := by
    intro c hmem
    rw [List.eq_of_mem_replicate hmem]
    decide
  counts := by rw [List.length_replicate, List.length_replicate]
  counts_fit := by rwa [List.length_replicate]

theorem Package.uniform_load (junk : Junk) (m : Nat) (h : ((m + 1 : Nat) : Int) ≤ INT_MAX) :
    bpkgLoad junk (some (Package.uniform m h).write) = .ok (Package.uniform m h).obj := by
  apply Layout.bpkgLoad junk (Package.uniform m h).linesOf_write
    (Package.uniform m h).writeLayout_reads (Package.uniform m h).obj_loadable
  show 7 + ((0 : Nat) : Int) ≤ INT_MAX
  decide

/-- **Loading undoes writing.** Whatever the memory holds, the loader returns the package that was
    written. -/
theorem bpkgLoad_write (junk : Junk) (pkg : Package) :
    bpkgLoad junk (some pkg.write) = .ok pkg.obj := by
  apply Layout.bpkgLoad junk pkg.linesOf_write pkg.writeLayout_reads pkg.obj_loadable
  show 7 + ((0 : Nat) : Int) ≤ INT_MAX
  decide

example : (Package.uniform 0 (by decide)).write = bytes ("ident:ab\nfilename:f\nsize:8\nnhashes:0\n"
    ++ "hashes:\nnchunks:1\nchunks:\n\t0000000000000000000000000000000000000000000000000000000000000000"
    ++ ",0,8\n") := by
  decide +kernel

end Btide
