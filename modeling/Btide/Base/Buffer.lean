import Btide.Base.Stdio

/-!
# `Base.Buffer` — character arrays

A local array of `n` characters is a `Buffer n`. It starts with whatever the memory held, and a string
function that is handed an array without a NUL reads past its end.

A `char *` into an array is given by the bytes of the array from there on. `put` is the copy of a text
whose length is known; what the array then holds as a string does not depend on what it held before
(`put_cString`), which is what makes an array that has been written safe to read.

The formats `"name %s"` are at the end, with what they find in a line (`sscanf_word`).
-/

namespace Btide

/-- `char name[n]`. -/
structure Buffer (n : Nat) where
  chars : Str
  length_eq : chars.length = n

/-- The string at a pointer. -/
def readStr (chars : Str) : Run Str :=
  if 0 ∈ chars then .ok (cString chars) else .error .outOfBounds

def strlen (chars : Str) : Run Nat := do
  let s ← readStr chars
  .ok s.length

/-- `strchr(chars, c) - chars`, or `none` for NULL; `c` is not NUL. -/
def strchr : Str → UInt8 → Run (Option Nat)
  | [], _ => .error .outOfBounds
  | d :: chars, c =>
    if d = c then .ok (some 0)
    else if d = 0 then .ok none
    else do
      let i ← strchr chars c
      .ok (i.map (· + 1))

namespace Buffer

variable {n : Nat}

def fill (n : Nat) (c : UInt8) : Buffer n := ⟨List.replicate n c, List.length_replicate⟩

/-- An array that holds the text `w`, and zeros after it. -/
def holding (w : Str) (h : w.length < n) : Buffer n :=
  ⟨w ++ 0 :: List.replicate (n - (w.length + 1)) 0, by
    rw [List.length_append, List.length_cons, List.length_replicate]
    omega⟩

/-- Store the text `w` and a NUL from the start of the array on. -/
def put (b : Buffer n) (w : Str) : Run (Buffer n) :=
  if h : w.length < n then
    .ok ⟨w ++ 0 :: b.chars.drop (w.length + 1), by
      rw [List.length_append, List.length_cons, List.length_drop, b.length_eq]
      omega⟩
  else .error .bufferOverflow

/-- `strcpy(b, src)`. A source without a NUL is read past its end, unless the target overflows first. -/
def strcpy (b : Buffer n) (src : Str) : Run (Buffer n) :=
  if 0 ∈ src then b.put (cString src)
  else if n < src.length then .error .bufferOverflow
  else .error .outOfBounds

/-- `fgets(b, n, file)`, for `n` from 2 on: the array and what is left of the file, unless this is its
    end. -/
def fgets (b : Buffer n) (file : Str) : Run (Option (Buffer n × Str)) :=
  match file with
  | [] => .ok none
  | _ :: _ => do
    let line := firstLine (n - 2 + 1) file
    let b ← b.put line
    .ok (some (b, file.drop line.length))

/-- `sscanf(input, format, b)` for a format with one `%s`: the number of conversions, which is 0 here
    where it is `EOF` as well, and the array. -/
def sscanf (input : Str) (format : List Directive) (b : Buffer n) : Run (Int × Buffer n) := do
  match ← Btide.sscanf input format with
  | [.str w] => do
    let b ← b.put w
    .ok (1, b)
  | _ => .ok (0, b)

end Buffer

/-! ## Strings in arrays -/

theorem zero_notMem_cString (chars : Str) : 0 ∉ cString chars := by
  intro h
  have := List.mem_takeWhile_imp h
  simp at this

/-- A NUL ends a string. -/
theorem cString_zero (w rest : Str) : cString (w ++ 0 :: rest) = cString w := by
  induction w with
  | nil => rfl
  | cons c w ih =>
      unfold cString at ih ⊢
      rw [List.cons_append, List.takeWhile_cons, List.takeWhile_cons, ih]

/-- What a terminated array looks like. -/
theorem eq_cString_append {chars : Str} (h : 0 ∈ chars) : ∃ rest, chars = cString chars ++ 0 :: rest := by
  induction chars with
  | nil => cases h
  | cons c chars ih =>
      by_cases hc : c = 0
      · subst hc
        exact ⟨chars, rfl⟩
      · have hmem : 0 ∈ chars := by
          rcases List.mem_cons.mp h with he | hmem
          · exact absurd he.symm hc
          · exact hmem
        obtain ⟨rest, hrest⟩ := ih hmem
        refine ⟨rest, ?_⟩
        have hcons : cString (c :: chars) = c :: cString chars := by
          unfold cString
          rw [List.takeWhile_cons, if_pos (by simpa using hc)]
        rw [hcons, List.cons_append, ← hrest]

theorem readStr_ok {chars : Str} (h : 0 ∈ chars) : readStr chars = .ok (cString chars) := if_pos h

theorem strlen_ok {chars : Str} (h : 0 ∈ chars) : strlen chars = .ok (cString chars).length := by
  unfold strlen
  rw [readStr_ok h, Run.ok_bind]

/-- `strchr` finds the first occurrence. -/
theorem strchr_found {c : UInt8} {w : Str} (hw : 0 ∉ w) (hc : c ∉ w) (rest : Str) :
    strchr (w ++ c :: rest) c = .ok (some w.length) := by
  induction w with
  | nil => simp [strchr]
  | cons d w ih =>
      rw [List.mem_cons, not_or] at hw hc
      rw [List.cons_append, strchr, if_neg (Ne.symm hc.1), if_neg (Ne.symm hw.1), ih hw.2 hc.2]
      rfl

theorem strchr_missing {c : UInt8} {w : Str} (hw : 0 ∉ w) (hc : c ∉ w) (hz : c ≠ 0) (rest : Str) :
    strchr (w ++ 0 :: rest) c = .ok none := by
  induction w with
  | nil => simp [strchr, hz.symm]
  | cons d w ih =>
      rw [List.mem_cons, not_or] at hw hc
      rw [List.cons_append, strchr, if_neg (Ne.symm hc.1), if_neg (Ne.symm hw.1), ih hw.2 hc.2]
      rfl

/-- What comes before the character that `strchr` has found. -/
theorem strchr_eq_some {c : UInt8} {chars : Str} {i : Nat} (h : strchr chars c = .ok (some i)) :
    ∃ w rest, chars = w ++ c :: rest ∧ w.length = i ∧ 0 ∉ w ∧ c ∉ w := by
  induction chars generalizing i with
  | nil => cases h
  | cons d chars ih =>
      rw [strchr] at h
      split at h
      · next hd =>
          cases h
          exact ⟨[], chars, by rw [hd]; rfl, rfl, List.not_mem_nil, List.not_mem_nil⟩
      · next hd =>
          split at h
          · cases h
          · next hz =>
              obtain ⟨j, hj, h⟩ := Run.bind_eq_ok.mp h
              rcases j with _ | j
              · cases h
              · obtain ⟨w, rest, rfl, rfl, hw, hc⟩ := ih hj
                cases h
                refine ⟨d :: w, rest, rfl, rfl, ?_, ?_⟩
                · rw [List.mem_cons, not_or]
                  exact ⟨Ne.symm hz, hw⟩
                · rw [List.mem_cons, not_or]
                  exact ⟨Ne.symm hd, hc⟩

/-! ## Writing an array -/

namespace Buffer

variable {n : Nat} {b b' : Buffer n} {w src : Str}

theorem holding_cString (h : w.length < n) :
    0 ∈ (holding w h).chars ∧ cString (holding w h).chars = cString w := by
  refine ⟨?_, cString_zero _ _⟩
  show (0 : UInt8) ∈ w ++ 0 :: _
  simp

theorem put_eq_ok : b.put w = .ok b' ↔
    w.length < n ∧ b'.chars = w ++ 0 :: b.chars.drop (w.length + 1) := by
  unfold put
  split
  · next h =>
      obtain ⟨chars, hlen⟩ := b'
      rw [Except.ok.injEq, Buffer.mk.injEq]
      constructor
      · intro he
        exact ⟨h, he.symm⟩
      · rintro ⟨_, he⟩
        exact he.symm
  · next h =>
      constructor
      · intro he
        cases he
      · rintro ⟨hlt, _⟩
        exact absurd hlt h

/-- A text that fits is stored, and ends in a NUL. -/
theorem put_ok (b : Buffer n) (h : w.length < n) :
    ∃ b', b.put w = .ok b' ∧ 0 ∈ b'.chars ∧ cString b'.chars = cString w := by
  refine ⟨⟨w ++ 0 :: b.chars.drop (w.length + 1), ?_⟩, dif_pos h, ?_, cString_zero _ _⟩
  · rw [List.length_append, List.length_cons, List.length_drop, b.length_eq]
    omega
  · simp

theorem put_overflow (b : Buffer n) (h : n ≤ w.length) : b.put w = .error .bufferOverflow :=
  dif_neg (by omega)

/-- An array that has been written holds what was stored, whatever it held before. -/
theorem put_cString (h : b.put w = .ok b') : 0 ∈ b'.chars ∧ cString b'.chars = cString w := by
  obtain ⟨_, he⟩ := put_eq_ok.mp h
  rw [he]
  exact ⟨by simp, cString_zero _ _⟩

theorem put_eq_overflow : b.put w = .error .bufferOverflow ↔ n ≤ w.length := by
  unfold put
  split
  · next h =>
      constructor
      · intro he
        cases he
      · intro hle
        exact absurd h (by omega)
  · next h => exact iff_of_true rfl (by omega)

theorem strcpy_eq_put (b : Buffer n) (h : 0 ∈ src) : b.strcpy src = b.put (cString src) := if_pos h

/-- A copy overflows when the text with its NUL, as far as it is in the source, is too long. -/
theorem strcpy_eq_overflow : b.strcpy src = .error .bufferOverflow ↔
    n < (cString src).length + if 0 ∈ src then 1 else 0 := by
  unfold strcpy
  by_cases h : 0 ∈ src
  · rw [if_pos h, if_pos h, put_eq_overflow]
    omega
  · rw [if_neg h, if_neg h, cString_eq h]
    split
    · next hlt => exact iff_of_true rfl (by omega)
    · next hle =>
        refine iff_of_false ?_ (by omega)
        intro he
        cases he

/-- `fgets` never overflows the array. -/
theorem fgets_ok (b : Buffer n) (hn : 2 ≤ n) {file : Str} (h : file ≠ []) :
    ∃ b', b.fgets file = .ok (some (b', file.drop (firstLine (n - 2 + 1) file).length)) ∧
      0 ∈ b'.chars ∧ cString b'.chars = cString (firstLine (n - 2 + 1) file) := by
  have hfit : (firstLine (n - 2 + 1) file).length < n := by
    have := firstLine_length_le (n - 2 + 1) file
    omega
  obtain ⟨b', hput, hzero, hstr⟩ := b.put_ok hfit
  refine ⟨b', ?_, hzero, hstr⟩
  obtain ⟨c, file, rfl⟩ := List.exists_cons_of_ne_nil h
  show (b.put _ >>= fun b => _) = _
  rw [hput, Run.ok_bind]

end Buffer

/-! ## A command word and its argument -/

/-- The format `"name %s"`. -/
def commandFormat (name : String) : List Directive := lits name ++ [.space, .str none]

/-- The word that follows `name` at the start of a line. -/
def word (name : String) (line : Str) : Option Str :=
  if (bytes name).isPrefixOf line then
    let w := ((line.drop (bytes name).length).dropWhile isSpace).takeWhile fun c => !isSpace c
    if w = [] then none else some w
  else none

section Word

variable {name : String} {line w : Str}

theorem scan_lits_missing {ds : List Directive} {cs : Str} (h : ¬ cs <+: line) :
    scan (cs.map .lit ++ ds) line = .ok [] := by
  induction cs generalizing line with
  | nil => exact absurd (List.nil_prefix) h
  | cons c cs ih =>
      rw [List.map_cons, List.cons_append, scan]
      cases line with
      | nil => rfl
      | cons d line =>
          by_cases hcd : d = c
          · subst hcd
            rw [List.head?_cons, if_pos rfl]
            exact ih fun hp => h (List.prefix_cons_inj d |>.mpr hp)
          · rw [if_neg (by simpa using hcd)]

/-- White space in front of `%s` makes no difference. -/
theorem dropWhile_isSpace_idem (s : Str) : (s.dropWhile isSpace).dropWhile isSpace = s.dropWhile isSpace := by
  induction s with
  | nil => rfl
  | cons c s ih =>
      by_cases hc : isSpace c = true
      · rw [List.dropWhile_cons, if_pos hc, ih]
      · rw [List.dropWhile_cons, if_neg hc, List.dropWhile_cons, if_neg hc]

theorem sscanf_word (name : String) (input : Str) :
    sscanf input (commandFormat name) = .ok ((word name (cString input)).toList.map .str) := by
  unfold sscanf commandFormat word
  generalize cString input = line
  by_cases h : bytes name <+: line
  · obtain ⟨rest, rfl⟩ := h
    rw [if_pos (List.isPrefixOf_iff_prefix.mpr (List.prefix_append _ _)), scan_lits, List.drop_left]
    simp only [scan, dropWhile_isSpace_idem]
    show (if (rest.dropWhile isSpace).takeWhile _ = [] then _ else _) = _
    split
    · rfl
    · rfl
  · rw [if_neg (fun hp => h (List.isPrefixOf_iff_prefix.mp hp))]
    exact scan_lits_missing h

theorem word_ne_nil (h : word name line = some w) : w ≠ [] := by
  simp only [word] at h
  split at h
  · split at h
    · cases h
    · next hne =>
        cases h
        exact hne
  · cases h

theorem word_mem {c : UInt8} (h : word name line = some w) (hc : c ∈ w) :
    isSpace c = false ∧ c ∈ line := by
  simp only [word] at h
  split at h
  · split at h
    · cases h
    · cases h
      refine ⟨by simpa using List.mem_takeWhile_imp hc, ?_⟩
      have hdrop := (List.takeWhile_prefix _).mem hc
      exact List.mem_of_mem_drop ((List.dropWhile_suffix _).mem hdrop)
  · cases h

theorem zero_notMem_word {input : Str} (h : word name (cString input) = some w) : 0 ∉ w :=
  fun hz => zero_notMem_cString input (word_mem h hz).2

namespace Buffer

variable {n : Nat} {b : Buffer n} {input : Str}

theorem sscanf_none (h : word name (cString input) = none) :
    b.sscanf input (commandFormat name) = .ok (0, b) := by
  unfold Buffer.sscanf
  rw [sscanf_word, h]
  rfl

theorem sscanf_some (h : word name (cString input) = some w) :
    b.sscanf input (commandFormat name) = (b.put w >>= fun b => .ok (1, b)) := by
  unfold Buffer.sscanf
  rw [sscanf_word, h]
  rfl

end Buffer

end Word

end Btide
