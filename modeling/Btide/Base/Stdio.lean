import Mathlib.Data.List.TakeWhile
import Mathlib.Data.Nat.Digits.Lemmas
import Btide.Base.Run

/-!
# `Base.Stdio` — `fgets` and `sscanf`

A file open for reading is the list of the strings that successive calls of `fgets` with one buffer size
store (`linesOf`): the pieces of its contents that end after a newline or fill the buffer.

`sscanf` follows its format directive by directive and returns the values of the conversions that
succeeded, in order; at the first directive that does not match it stops. What has been converted is
assigned, everything else keeps its value. A decimal number that does not fit an `int` has no meaning
in C.

The rules at the end say what each directive consumes of a text that continues as expected.
-/

namespace Btide

/-! ## Reading lines -/

def newline : UInt8 := 10

/-- At most `n` bytes, up to the first newline. -/
def firstLine : Nat → Str → Str
  | 0, _ => []
  | _ + 1, [] => []
  | n + 1, c :: cs => if c = newline then [c] else c :: firstLine n cs

/-- The bytes that successive calls of `fgets(buffer, size, file)` store before the NUL: at most
    `size - 1` of them, in a buffer of at least two bytes. -/
def linesOf (size : Nat) : Str → List Str
  | [] => []
  | c :: cs =>
    let line := firstLine (size - 2 + 1) (c :: cs)
    line :: linesOf size ((c :: cs).drop line.length)
termination_by file => file.length
decreasing_by
  have h : 1 ≤ (firstLine (size - 2 + 1) (c :: cs)).length := by
    unfold firstLine
    split <;> simp
  rw [List.length_drop, List.length_cons]
  omega

/-- A line that ends in its only newline and fits in `n` bytes. -/
def Whole (n : Nat) (line : Str) : Prop :=
  ∃ w, line = w ++ [newline] ∧ newline ∉ w ∧ w.length < n

theorem firstLine_whole {n : Nat} {line : Str} (h : Whole n line) (rest : Str) :
    firstLine n (line ++ rest) = line := by
  obtain ⟨w, rfl, hnew, hlen⟩ := h
  induction w generalizing n with
  | nil =>
      obtain ⟨n, rfl⟩ := Nat.exists_eq_add_of_lt hlen
      simp [firstLine]
  | cons c w ih =>
      obtain ⟨n, rfl⟩ := Nat.exists_eq_add_of_lt hlen
      have hc : c ≠ newline := fun he => hnew (by simp [he])
      have hrec := @ih (w.length + 1 + n) (fun hm => hnew (List.mem_cons_of_mem c hm)) (by omega)
      simp only [List.length_cons, List.cons_append, firstLine, if_neg hc, hrec]

/-- The lines of a text made of whole lines are these lines. -/
theorem linesOf_whole {size : Nat} {lines : List Str}
    (h : ∀ line ∈ lines, Whole (size - 2 + 1) line) : linesOf size lines.flatten = lines := by
  induction lines with
  | nil => simp [linesOf]
  | cons line lines ih =>
      have hw := h line List.mem_cons_self
      have hfirst := firstLine_whole hw lines.flatten
      obtain ⟨c, cs, hcs⟩ : ∃ c cs, line ++ lines.flatten = c :: cs := by
        obtain ⟨w, rfl, _⟩ := hw
        cases w with
        | nil => exact ⟨_, _, rfl⟩
        | cons c w => exact ⟨_, _, rfl⟩
      rw [List.flatten_cons, hcs, linesOf, ← hcs, hfirst, List.drop_left,
        ih fun l hl => h l (List.mem_cons_of_mem line hl)]

/-- A piece of the length of the buffer is cut off, newline or not. -/
theorem firstLine_full {w : Str} (hnew : newline ∉ w) (rest : Str) :
    firstLine w.length (w ++ rest) = w := by
  induction w with
  | nil => rfl
  | cons c w ih =>
      have hc : c ≠ newline := fun he => hnew (by simp [he])
      have hrec := ih fun hm => hnew (List.mem_cons_of_mem c hm)
      simp only [List.length_cons, List.cons_append, firstLine, if_neg hc, hrec]

theorem linesOf_full {size : Nat} {w : Str} (hlen : w.length = size - 2 + 1) (hnew : newline ∉ w)
    (rest : Str) : linesOf size (w ++ rest) = w :: linesOf size rest := by
  have hfirst := firstLine_full hnew rest
  obtain ⟨c, cs, hcs⟩ : ∃ c cs, w ++ rest = c :: cs := by
    cases w with
    | nil => cases hlen
    | cons c w => exact ⟨_, _, rfl⟩
  rw [hcs, linesOf, ← hcs, ← hlen, hfirst, List.drop_left]

theorem firstLine_length_le (n : Nat) (file : Str) : (firstLine n file).length ≤ n := by
  induction n generalizing file with
  | zero => exact Nat.le_refl 0
  | succ n ih =>
      cases file with
      | nil => exact Nat.zero_le _
      | cons c cs =>
          unfold firstLine
          split
          · exact Nat.le_add_left 1 n
          · exact Nat.succ_le_succ (ih cs)

/-- What `fgets` stores leaves room for the NUL. -/
theorem length_of_mem_linesOf {size : Nat} {file line : Str} (h : line ∈ linesOf size file) :
    line.length ≤ size - 2 + 1 := by
  induction file using linesOf.induct size with
  | case1 =>
      rw [linesOf] at h
      cases h
  | case2 c cs first ih =>
      rw [linesOf] at h
      cases h with
      | head => exact firstLine_length_le _ _
      | tail _ h => exact ih h

/-- The string in a buffer: its bytes up to the first NUL. -/
def cString (buffer : Str) : Str := buffer.takeWhile (· ≠ 0)

theorem cString_eq {s : Str} (h : 0 ∉ s) : cString s = s := by
  refine List.takeWhile_eq_self_iff.mpr fun c hc => ?_
  have hne : c ≠ 0 := fun he => h (he ▸ hc)
  simpa using hne

/-! ## Decimal numbers -/

def isSpace (c : UInt8) : Bool := c = 32 ∨ (9 ≤ c ∧ c ≤ 13)

def isDigit (c : UInt8) : Bool := 48 ≤ c ∧ c ≤ 57

/-- The digits of a number, as `printf` writes it. -/
def decimal (n : Nat) : Str :=
  if n = 0 then [48] else (Nat.digits 10 n).reverse.map fun d => (48 + d).toUInt8

def ofDecimal (digits : Str) : Nat := Nat.ofDigits 10 (digits.map fun c => c.toNat - 48).reverse

/-- The text after an optional sign. -/
def skipSign (s : Str) : Str := if s.head? = some 43 ∨ s.head? = some 45 then s.tail else s

/-- What `%d` converts: an optional sign and at least one digit. -/
def scanInt (s : Str) : Option (Int × Str) :=
  let digits := (skipSign s).takeWhile isDigit
  if digits = [] then none
  else
    let n : Int := ofDecimal digits
    some (if s.head? = some 45 then -n else n, (skipSign s).drop digits.length)

theorem skipSign_length_le (s : Str) : (skipSign s).length ≤ s.length := by
  unfold skipSign
  split
  · rw [List.length_tail]
    omega
  · exact Nat.le_refl _

theorem scanInt_length_le {s t : Str} {z : Int} (h : scanInt s = some (z, t)) :
    t.length ≤ s.length := by
  have hsign := skipSign_length_le s
  simp only [scanInt] at h
  split at h
  · cases h
  · simp only [Option.some.injEq, Prod.mk.injEq] at h
    rw [← h.2, List.length_drop]
    omega

theorem digit_toNat {d : Nat} (h : d < 10) : (48 + d).toUInt8.toNat = 48 + d := by
  rw [Nat.toUInt8, UInt8.toNat_ofNat']
  omega

theorem isDigit_iff {c : UInt8} : isDigit c = true ↔ 48 ≤ c.toNat ∧ c.toNat ≤ 57 := by
  simp [isDigit, UInt8.le_iff_toNat_le]

theorem isSpace_iff {c : UInt8} :
    isSpace c = true ↔ c.toNat = 32 ∨ (9 ≤ c.toNat ∧ c.toNat ≤ 13) := by
  have h : c = 32 ↔ c.toNat = 32 := by
    constructor
    · rintro rfl
      rfl
    · intro hc
      exact UInt8.toNat_inj.mp hc
  simp [isSpace, UInt8.le_iff_toNat_le, h]

theorem decimal_ne_nil (n : Nat) : decimal n ≠ [] := by
  unfold decimal
  split
  · simp
  · next h => simpa using Nat.digits_ne_nil_iff_ne_zero.mpr h

theorem mem_decimal {n : Nat} {c : UInt8} (hc : c ∈ decimal n) : isDigit c = true := by
  unfold decimal at hc
  split at hc
  · rw [List.mem_singleton.mp hc]
    rfl
  · obtain ⟨d, hd, rfl⟩ := List.mem_map.mp hc
    have hlt : d < 10 := Nat.digits_lt_base (by omega) (List.mem_reverse.mp hd)
    rw [isDigit_iff, digit_toNat hlt]
    omega

theorem decimal_length_le {n k : Nat} (hn : n < 10 ^ k) (hk : 1 ≤ k) : (decimal n).length ≤ k := by
  unfold decimal
  split
  · exact hk
  · rw [List.length_map, List.length_reverse]
    exact (Nat.digits_length_le_iff (by omega) n).mpr hn

theorem ofDecimal_decimal (n : Nat) : ofDecimal (decimal n) = n := by
  unfold ofDecimal decimal
  split
  · next h => rw [h]; rfl
  · have hdigits : (Nat.digits 10 n).map (fun d => (48 + d).toUInt8.toNat - 48) = Nat.digits 10 n := by
      refine (List.map_congr_left fun d hd => ?_).trans (List.map_id _)
      rw [digit_toNat (Nat.digits_lt_base (by omega) hd), Nat.add_sub_cancel_left, id]
    rw [List.map_map, List.map_reverse, List.reverse_reverse]
    exact (congrArg (Nat.ofDigits 10) hdigits).trans (Nat.ofDigits_digits 10 n)

/-! ## `sscanf` -/

/-- One directive of a format. -/
inductive Directive
  /-- A byte that is not white space. -/
  | lit (c : UInt8)
  /-- White space in the format: any amount of white space. -/
  | space
  /-- `%s`, with its width. -/
  | str (width : Option Nat)
  /-- `%d`. -/
  | int
  /-- `%[…]`, with its width and members; its item is not assigned if it is suppressed. -/
  | set (suppressed : Bool) (width : Option Nat) (members : UInt8 → Bool)

/-- The ordinary characters of a format. -/
def lits (s : String) : List Directive := (bytes s).map .lit

/-- A converted item. -/
inductive Value
  | str (s : Str)
  | int (n : Int32)
deriving DecidableEq

/-- The longest prefix of `s` in the class `p`, cut at the width. -/
def item (width : Option Nat) (p : UInt8 → Bool) (s : Str) : Str :=
  match width with
  | none => s.takeWhile p
  | some n => (s.take n).takeWhile p

/-- The `int` that a decimal number stands for. The conversion of a number that does not fit is undefined in
    C; what a C library stores then (often the number modulo `2 ^ 32`) is not modelled. -/
def toInt32 (z : Int) : Run Int32 :=
  if INT_MIN ≤ z ∧ z ≤ INT_MAX then .ok (Int32.ofInt z) else .error .badConversion

@[simp] def scan : List Directive → Str → Run (List Value)
  | [], _ => .ok []
  | .lit c :: ds, s => if s.head? = some c then scan ds s.tail else .ok []
  | .space :: ds, s => scan ds (s.dropWhile isSpace)
  | .str width :: ds, s =>
    let s := s.dropWhile isSpace
    let w := item width (fun c => !isSpace c) s
    if w = [] then .ok []
    else do
      let vs ← scan ds (s.drop w.length)
      .ok (.str w :: vs)
  | .int :: ds, s =>
    match scanInt (s.dropWhile isSpace) with
    | none => .ok []
    | some (z, s) => do
      let n ← toInt32 z
      let vs ← scan ds s
      .ok (.int n :: vs)
  | .set suppressed width members :: ds, s =>
    let w := item width members s
    if w = [] then .ok []
    else do
      let vs ← scan ds (s.drop w.length)
      .ok (if suppressed then vs else .str w :: vs)

/-- `sscanf(buffer, format, …)`: the values to assign. -/
def sscanf (buffer : Str) (format : List Directive) : Run (List Value) := scan format (cString buffer)

/-- A converted string is stored with its NUL in an array of `capacity` bytes. -/
def storeStr (capacity : Nat) (w : Str) : Run Str :=
  if w.length < capacity then .ok w else .error .bufferOverflow

theorem storeStr_ok {capacity : Nat} {w : Str} (h : w.length < capacity) :
    storeStr capacity w = .ok w := if_pos h

theorem storeStr_eq_ok {capacity : Nat} {w w' : Str} (h : storeStr capacity w = .ok w') :
    w' = w ∧ w.length < capacity := by
  unfold storeStr at h
  split at h
  · next hlt =>
      cases h
      exact ⟨rfl, hlt⟩
  · cases h

/-- `sscanf(buffer, format, target)`, where `target` is an array whose string was `old`. -/
def assignStr (format : List Directive) (capacity : Nat) (old buffer : Str) : Run Str := do
  match ← sscanf buffer format with
  | [.str w] => storeStr capacity w
  | _ => .ok old

/-- `sscanf(buffer, format, &target)`, where `target` was `old`. -/
def assignInt (format : List Directive) (old : Int32) (buffer : Str) : Run Int32 := do
  match ← sscanf buffer format with
  | [.int n] => .ok n
  | _ => .ok old

section Assign

variable {format : List Directive} {capacity : Nat} {buffer old w : Str} {oldInt n : Int32}

theorem assignStr_scanned (h : sscanf buffer format = .ok [.str w]) :
    assignStr format capacity old buffer = storeStr capacity w := by
  unfold assignStr
  rw [h]
  rfl

theorem assignInt_scanned (h : sscanf buffer format = .ok [.int n]) :
    assignInt format oldInt buffer = .ok n := by
  unfold assignInt
  rw [h]
  rfl

/-- The target has the scanned string, which fits, or is as it was. -/
theorem assignStr_eq_ok (h : assignStr format capacity old buffer = .ok w) :
    (sscanf buffer format = .ok [.str w] ∧ w.length < capacity) ∨
      ((∀ w', sscanf buffer format ≠ .ok [.str w']) ∧ w = old) := by
  unfold assignStr at h
  obtain ⟨vs, hvs, h⟩ := Run.bind_eq_ok.mp h
  split at h
  · unfold storeStr at h
    split at h
    · next hlt =>
        cases h
        exact Or.inl ⟨hvs, hlt⟩
    · cases h
  · next hother =>
      cases h
      refine Or.inr ⟨fun w' he => hother w' ?_, rfl⟩
      rw [hvs] at he
      cases he
      rfl

theorem assignInt_eq_ok (h : assignInt format oldInt buffer = .ok n) :
    sscanf buffer format = .ok [.int n] ∨
      ((∀ n', sscanf buffer format ≠ .ok [.int n']) ∧ n = oldInt) := by
  unfold assignInt at h
  obtain ⟨vs, hvs, h⟩ := Run.bind_eq_ok.mp h
  split at h
  · cases h
    exact Or.inl hvs
  · next hother =>
      cases h
      refine Or.inr ⟨fun n' he => hother n' ?_, rfl⟩
      rw [hvs] at he
      cases he
      rfl

end Assign

/-! ## What every scan does -/

theorem item_length_le (width : Option Nat) (p : UInt8 → Bool) (s : Str) :
    (item width p s).length ≤ s.length := by
  cases width with
  | none => exact (List.takeWhile_prefix p).length_le
  | some n => exact ((List.takeWhile_prefix p).trans (List.take_prefix n s)).length_le

theorem item_length_le_width (n : Nat) (p : UInt8 → Bool) (s : Str) :
    (item (some n) p s).length ≤ n := by
  apply (List.takeWhile_prefix p).length_le.trans
  rw [List.length_take]
  exact Nat.min_le_left _ _

/-- A converted string is not empty and no longer than the text. -/
theorem mem_scan {ds : List Directive} {s w : Str} {vs : List Value} (h : scan ds s = .ok vs)
    (hw : .str w ∈ vs) : w ≠ [] ∧ w.length ≤ s.length := by
  induction ds generalizing s vs with
  | nil =>
      cases h
      cases hw
  | cons d ds ih =>
      -- what comes later is converted from a shorter text
      have hlater : ∀ {t us}, scan ds t = .ok us → .str w ∈ us → t.length ≤ s.length →
          w ≠ [] ∧ w.length ≤ s.length := by
        intro t us ht hmem hle
        obtain ⟨hne, hlen⟩ := ih ht hmem
        exact ⟨hne, hlen.trans hle⟩
      cases d with
      | lit c =>
          unfold scan at h
          split at h
          · exact hlater h hw (by rw [List.length_tail]; omega)
          · cases h
            cases hw
      | space =>
          unfold scan at h
          exact hlater h hw (List.dropWhile_suffix isSpace).length_le
      | str width =>
          have hskip := (List.dropWhile_suffix (l := s) isSpace).length_le
          have hitem := item_length_le width (fun c => !isSpace c) (s.dropWhile isSpace)
          simp only [scan] at h
          split at h
          · cases h
            cases hw
          · next hne =>
              obtain ⟨ws, hws, h⟩ := Run.bind_eq_ok.mp h
              cases h
              cases hw with
              | head => exact ⟨hne, hitem.trans hskip⟩
              | tail _ hw =>
                  apply hlater hws hw
                  rw [List.length_drop]
                  omega
      | int =>
          have hskip := (List.dropWhile_suffix (l := s) isSpace).length_le
          unfold scan at h
          split at h
          · cases h
            cases hw
          · next z s' hz =>
              obtain ⟨n, _, h⟩ := Run.bind_eq_ok.mp h
              obtain ⟨ws, hws, h⟩ := Run.bind_eq_ok.mp h
              cases h
              cases hw with
              | tail _ hw => exact hlater hws hw ((scanInt_length_le hz).trans hskip)
      | set suppressed width members =>
          have hitem := item_length_le width members s
          simp only [scan] at h
          split at h
          · cases h
            cases hw
          · next hne =>
              obtain ⟨ws, hws, h⟩ := Run.bind_eq_ok.mp h
              have hrec : .str w ∈ ws → w ≠ [] ∧ w.length ≤ s.length := fun hmem => by
                apply hlater hws hmem
                rw [List.length_drop]
                omega
              cases suppressed with
              | true =>
                  cases h
                  exact hrec hw
              | false =>
                  cases h
                  cases hw with
                  | head => exact ⟨hne, hitem⟩
                  | tail _ hw => exact hrec hw

theorem length_of_sscanf_str {buffer w : Str} {format : List Directive}
    (h : sscanf buffer format = .ok [.str w]) : w.length ≤ buffer.length :=
  (mem_scan h List.mem_cons_self).2.trans (List.takeWhile_prefix _).length_le

/-- A format without `%d` always has a meaning. -/
theorem scan_total {ds : List Directive} (h : .int ∉ ds) (s : Str) : ∃ vs, scan ds s = .ok vs := by
  induction ds generalizing s with
  | nil => exact ⟨[], rfl⟩
  | cons d ds ih =>
      have hrec := ih fun hd => h (List.mem_cons_of_mem d hd)
      cases d with
      | lit c =>
          unfold scan
          split
          · exact hrec _
          · exact ⟨[], rfl⟩
      | space => exact hrec _
      | str width =>
          simp only [scan]
          split
          · exact ⟨[], rfl⟩
          · obtain ⟨vs, hvs⟩ := hrec ((s.dropWhile isSpace).drop
              (item width (fun c => !isSpace c) (s.dropWhile isSpace)).length)
            exact ⟨_, by rw [hvs]; rfl⟩
      | int => exact absurd List.mem_cons_self h
      | set suppressed width members =>
          simp only [scan]
          split
          · exact ⟨[], rfl⟩
          · obtain ⟨vs, hvs⟩ := hrec (s.drop (item width members s).length)
            exact ⟨_, by rw [hvs]; rfl⟩

/-- The only thing that can go wrong in a scan. -/
theorem scan_error {ds : List Directive} {s : Str} {e : Abort} (h : scan ds s = .error e) :
    e = .badConversion := by
  induction ds generalizing s with
  | nil => cases h
  | cons d ds ih =>
      cases d with
      | lit c =>
          unfold scan at h
          split at h
          · exact ih h
          · cases h
      | space => exact ih h
      | str width =>
          simp only [scan] at h
          split at h
          · cases h
          · rcases Run.bind_eq_error.mp h with h | ⟨vs, _, h⟩
            · exact ih h
            · cases h
      | int =>
          unfold scan at h
          split at h
          · cases h
          · rcases Run.bind_eq_error.mp h with h | ⟨n, _, h⟩
            · unfold toInt32 at h
              split at h <;> cases h
              rfl
            · rcases Run.bind_eq_error.mp h with h | ⟨vs, _, h⟩
              · exact ih h
              · cases h
      | set suppressed width members =>
          simp only [scan] at h
          split at h
          · cases h
          · rcases Run.bind_eq_error.mp h with h | ⟨vs, _, h⟩
            · exact ih h
            · cases h

theorem toInt32_noExit (z : Int) : (toInt32 z).NoExit := by
  intro message status h
  unfold toInt32 at h
  split at h <;> cases h

theorem scan_noExit (ds : List Directive) (s : Str) : (scan ds s).NoExit := by
  induction ds generalizing s with
  | nil => exact Run.NoExit.ok _
  | cons d ds ih =>
      cases d with
      | lit c =>
          unfold scan
          split
          · exact ih _
          · exact Run.NoExit.ok _
      | space => exact ih _
      | str width =>
          simp only [scan]
          split
          · exact Run.NoExit.ok _
          · exact (ih _).bind fun vs _ => Run.NoExit.ok _
      | int =>
          unfold scan
          split
          · exact Run.NoExit.ok _
          · exact (toInt32_noExit _).bind fun n _ => (ih _).bind fun vs _ => Run.NoExit.ok _
      | set suppressed width members =>
          simp only [scan]
          split
          · exact Run.NoExit.ok _
          · exact (ih _).bind fun vs _ => Run.NoExit.ok _

theorem storeStr_noExit (capacity : Nat) (w : Str) : (storeStr capacity w).NoExit := by
  intro message status h
  unfold storeStr at h
  split at h <;> cases h

theorem assignStr_noExit (format : List Directive) (capacity : Nat) (old buffer : Str) :
    (assignStr format capacity old buffer).NoExit := by
  refine (scan_noExit _ _).bind fun vs _ => ?_
  split
  · exact storeStr_noExit capacity _
  · exact Run.NoExit.ok _

theorem assignInt_noExit (format : List Directive) (old : Int32) (buffer : Str) :
    (assignInt format old buffer).NoExit := by
  refine (scan_noExit _ _).bind fun vs _ => ?_
  split <;> exact Run.NoExit.ok _

/-! ## What the directives consume -/

section Rules

variable {ds : List Directive} {p : UInt8 → Bool} {w rest : Str}

/-- The text goes on with nothing of the class `p`. -/
def Stops (p : UInt8 → Bool) (rest : Str) : Prop := ∀ c, rest.head? = some c → p c = false

theorem Stops.nil (p : UInt8 → Bool) : Stops p [] := fun c h => by cases h

theorem Stops.cons {c : UInt8} (h : p c = false) (rest : Str) : Stops p (c :: rest) := by
  intro d hd
  cases hd
  exact h

theorem Stops.takeWhile (h : Stops p rest) : rest.takeWhile p = [] := by
  cases rest with
  | nil => rfl
  | cons c rest => simp [h c rfl]

theorem Stops.dropWhile (h : Stops p rest) : rest.dropWhile p = rest := by
  cases rest with
  | nil => rfl
  | cons c rest => simp [h c rfl]

/-- Maximal munch. -/
theorem takeWhile_munch (hw : ∀ c ∈ w, p c = true) (hrest : Stops p rest) :
    (w ++ rest).takeWhile p = w := by
  rw [List.takeWhile_append_of_pos hw, hrest.takeWhile, List.append_nil]

theorem scan_lits (s : String) (rest : Str) :
    scan (lits s ++ ds) (bytes s ++ rest) = scan ds rest := by
  unfold lits
  induction bytes s with
  | nil => rfl
  | cons c cs ih =>
      rw [List.map_cons, List.cons_append, scan, if_pos (by simp)]
      exact ih

theorem scan_lit {c : UInt8} : scan (.lit c :: ds) (c :: rest) = scan ds rest := by
  rw [scan, if_pos List.head?_cons, List.tail_cons]

theorem scan_space (h : Stops isSpace rest) : scan (.space :: ds) rest = scan ds rest := by
  rw [scan, h.dropWhile]

theorem scan_str (hne : w ≠ []) (hw : ∀ c ∈ w, isSpace c = false)
    (hrest : Stops (fun c => !isSpace c) rest) :
    scan (.str none :: ds) (w ++ rest) = (scan ds rest >>= fun vs => .ok (.str w :: vs)) := by
  have hstart : Stops isSpace (w ++ rest) := by
    cases w with
    | nil => exact absurd rfl hne
    | cons c w => exact Stops.cons (hw c List.mem_cons_self) _
  have hitem : item none (fun c => !isSpace c) (w ++ rest) = w :=
    takeWhile_munch (fun c hc => by simp [hw c hc]) hrest
  simp only [scan, hstart.dropWhile, hitem, if_neg hne, List.drop_left]

/-- `%s` skips white space. -/
theorem scan_str_skip {width : Option Nat} {c : UInt8} (hc : isSpace c = true) :
    scan (.str width :: ds) (c :: rest) = scan (.str width :: ds) rest := by
  simp only [scan, List.dropWhile_cons, hc, if_true]

/-- A word that fills the width is converted whatever follows it. -/
theorem scan_str_width {n : Nat} (hlen : w.length = n + 1) (hw : ∀ c ∈ w, isSpace c = false) :
    scan (.str (some (n + 1)) :: ds) (w ++ rest)
      = (scan ds rest >>= fun vs => .ok (.str w :: vs)) := by
  have hne : w ≠ [] := fun h => by simp [h] at hlen
  have hstart : Stops isSpace (w ++ rest) := by
    cases w with
    | nil => exact absurd rfl hne
    | cons c w => exact Stops.cons (hw c List.mem_cons_self) _
  have hitem : item (some (n + 1)) (fun c => !isSpace c) (w ++ rest) = w := by
    show ((w ++ rest).take (n + 1)).takeWhile _ = w
    rw [← hlen, List.take_left]
    exact List.takeWhile_eq_self_iff.mpr fun c hc => by simp [hw c hc]
  simp only [scan, hstart.dropWhile, hitem, if_neg hne, List.drop_left]

theorem scan_set {suppressed : Bool} {n : Nat} (hne : w ≠ []) (hlen : w.length ≤ n)
    (hw : ∀ c ∈ w, p c = true) (hrest : Stops p rest) :
    scan (.set suppressed (some n) p :: ds) (w ++ rest)
      = (scan ds rest >>= fun vs => .ok (if suppressed then vs else .str w :: vs)) := by
  have hstop : Stops p (rest.take (n - w.length)) := by
    intro c hc
    cases rest with
    | nil => simp at hc
    | cons d rest =>
        cases hk : n - w.length with
        | zero => simp [hk] at hc
        | succ k =>
            rw [hk, List.take_succ_cons] at hc
            exact hrest c hc
  have hitem : item (some n) p (w ++ rest) = w := by
    show ((w ++ rest).take n).takeWhile p = w
    rw [List.take_append, List.take_of_length_le hlen]
    exact takeWhile_munch hw hstop
  simp only [scan, hitem, if_neg hne, List.drop_left]

theorem scan_set_any {suppressed : Bool} (hne : w ≠ []) (hw : ∀ c ∈ w, p c = true)
    (hrest : Stops p rest) :
    scan (.set suppressed none p :: ds) (w ++ rest)
      = (scan ds rest >>= fun vs => .ok (if suppressed then vs else .str w :: vs)) := by
  have hitem : item none p (w ++ rest) = w := takeWhile_munch hw hrest
  simp only [scan, hitem, if_neg hne, List.drop_left]

theorem scanInt_decimal (n : Nat) (hrest : Stops isDigit rest) :
    scanInt (decimal n ++ rest) = some ((n : Int), rest) := by
  obtain ⟨c, cs, hcs⟩ := List.exists_cons_of_ne_nil (decimal_ne_nil n)
  have hdigit : isDigit c = true := mem_decimal (by rw [hcs]; exact List.mem_cons_self)
  rw [isDigit_iff] at hdigit
  have hsign : ∀ d : UInt8, d.toNat < 48 → (decimal n ++ rest).head? ≠ some d := by
    intro d hd he
    rw [hcs] at he
    cases he
    omega
  have htake : (decimal n ++ rest).takeWhile isDigit = decimal n :=
    takeWhile_munch (fun c hc => mem_decimal hc) hrest
  have hplus := hsign 43 (by decide)
  have hminus := hsign 45 (by decide)
  have hskip : skipSign (decimal n ++ rest) = decimal n ++ rest := by
    rw [skipSign, if_neg (not_or.mpr ⟨hplus, hminus⟩)]
  simp only [scanInt, hskip, hminus, if_false, htake, if_neg (decimal_ne_nil n),
    ofDecimal_decimal, List.drop_left]

/-- A number begins with a digit. -/
theorem decimal_stops (n : Nat) (rest : Str) : Stops isSpace (decimal n ++ rest) := by
  obtain ⟨c, cs, hcs⟩ := List.exists_cons_of_ne_nil (decimal_ne_nil n)
  have hdigit : isDigit c = true := mem_decimal (by rw [hcs]; exact List.mem_cons_self)
  rw [isDigit_iff] at hdigit
  rw [hcs]
  apply Stops.cons
  rw [Bool.eq_false_iff]
  intro hs
  rw [isSpace_iff] at hs
  omega

theorem scan_int {n : Int32} {m : Nat} (hn : n.toInt = m) (hrest : Stops isDigit rest) :
    scan (.int :: ds) (decimal m ++ rest) = (scan ds rest >>= fun vs => .ok (.int n :: vs)) := by
  have hstart : Stops isSpace (decimal m ++ rest) := decimal_stops m rest
  have hfit : toInt32 m = .ok n := by
    have hlo := intMin_le_toInt n
    have hhi := toInt_le_intMax n
    rw [toInt32, ← hn, if_pos ⟨hlo, hhi⟩, Int32.ofInt_toInt]
  rw [scan, hstart.dropWhile, scanInt_decimal m hrest]
  show (toInt32 m >>= fun n => _) = _
  rw [hfit, Run.ok_bind]

end Rules

end Btide
