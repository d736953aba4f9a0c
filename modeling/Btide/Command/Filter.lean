import Btide.Base.Buffer
import Btide.Package.Add

/-!
# `Command.Filter` — the file argument (`extract_file` in `btide.c`)

`ADDPACKAGE` does not open the file it is given: `extract_file` makes a name of it first. The loop skips
every `./` and stores letters, digits and those dots that are neither the first character nor behind a
slash. So what it keeps is the argument without some of its characters (`extractChars_eq_kept`): a dot
survives if it is not the first character and has no slash next to it.
-/

namespace Btide

/-- `'.'`. -/
def dot : UInt8 := 46

def isalpha (c : UInt8) : Bool := (65 ≤ c ∧ c ≤ 90) ∨ (97 ≤ c ∧ c ≤ 122)

/-- The test before a character is stored; `prev` is the character before it. -/
def isStored (prev : Option UInt8) (c : UInt8) : Bool :=
  isalpha c || isDigit c || (c = dot ∧ prev ≠ none ∧ prev ≠ some slash)

/-- The loop of `extract_file` from a character on; `prev` is the one before it, if there is one. -/
def extractChars : Option UInt8 → Str → Str
  | _, [] => []
  | prev, [c] => if isStored prev c then [c] else []
  | prev, c :: d :: rest =>
    if c = dot ∧ d = slash then extractChars (some d) rest
    else if isStored prev c then c :: extractChars (some c) (d :: rest)
    else extractChars (some c) (d :: rest)

/-- `extract_file(processedfile, file)`. -/
def extractFile (processedfile : Str) (file : Buffer MAX_BUFFER) : Run (Buffer MAX_BUFFER) := do
  let s ← readStr processedfile
  file.put (extractChars none s)

/-! ## What survives -/

def isAlnum (c : UInt8) : Bool := isalpha c || isDigit c

/-- A dot between `prev` and `next` that is not the first character and has no slash next to it. -/
def plainDot (prev next : Option UInt8) (c : UInt8) : Bool :=
  c = dot ∧ prev ≠ none ∧ prev ≠ some slash ∧ next ≠ some slash

/-- The letters, the digits and the plain dots of a text. -/
def kept : Option UInt8 → Str → Str
  | _, [] => []
  | prev, c :: rest =>
    if isAlnum c || plainDot prev rest.head? c then c :: kept (some c) rest else kept (some c) rest

/-- The number of plain dots. -/
def plainDots : Option UInt8 → Str → Nat
  | _, [] => 0
  | prev, c :: rest => (if plainDot prev rest.head? c then 1 else 0) + plainDots (some c) rest

section Kept

variable {prev : Option UInt8} {s : Str} {c : UInt8}

theorem kept_slash {rest : Str} : kept prev (slash :: rest) = kept (some slash) rest := by
  rw [kept, if_neg]
  simp [isAlnum, isalpha, isDigit, plainDot, slash, dot]

/-- `./` is skipped. -/
theorem kept_dot_slash {rest : Str} : kept prev (dot :: slash :: rest) = kept (some slash) rest := by
  rw [kept, if_neg, kept_slash]
  simp [isAlnum, isalpha, isDigit, plainDot, slash, dot]

theorem kept_cons {d : UInt8} {rest : Str} (h : ¬ (c = dot ∧ d = slash)) :
    kept prev (c :: d :: rest)
      = if isStored prev c then c :: kept (some c) (d :: rest) else kept (some c) (d :: rest) := by
  have hsame : (isAlnum c || plainDot prev (some d) c) = isStored prev c := by
    rw [Bool.eq_iff_iff]
    simp only [isAlnum, isStored, plainDot, Bool.or_eq_true, decide_eq_true_eq, ne_eq,
      Option.some.injEq]
    constructor
    · rintro (hal | ⟨hdot, hp, hs, _⟩)
      · exact Or.inl hal
      · exact Or.inr ⟨hdot, hp, hs⟩
    · rintro (hal | ⟨hdot, hp, hs⟩)
      · exact Or.inl hal
      · exact Or.inr ⟨hdot, hp, hs, fun hd => h ⟨hdot, hd⟩⟩
  rw [kept, List.head?_cons, hsame]

/-- **The loop keeps the letters, the digits and the plain dots.** -/
theorem extractChars_eq_kept (prev : Option UInt8) (s : Str) : extractChars prev s = kept prev s := by
  induction prev, s using extractChars.induct with
  | case1 prev => rfl
  | case2 prev c h => simp_all [extractChars, kept, isStored, isAlnum, plainDot]
  | case3 prev c h => simp_all [extractChars, kept, isStored, isAlnum, plainDot]
  | case4 prev c d rest h ih =>
      obtain ⟨rfl, rfl⟩ := h
      rw [extractChars, if_pos ⟨rfl, rfl⟩, ih, kept_dot_slash]
  | case5 prev c d rest h hstored ih =>
      rw [extractChars, if_neg h, if_pos hstored, ih, kept_cons h, if_pos hstored]
  | case6 prev c d rest h hstored ih =>
      rw [extractChars, if_neg h, if_neg hstored, ih, kept_cons h, if_neg hstored]

theorem kept_sublist (prev : Option UInt8) (s : Str) : (kept prev s).Sublist s := by
  induction s generalizing prev with
  | nil => exact List.Sublist.slnil
  | cons c s ih =>
      unfold kept
      split
      · exact (ih (some c)).cons_cons c
      · exact (ih (some c)).cons c

theorem mem_kept (h : c ∈ kept prev s) : isAlnum c = true ∨ c = dot := by
  induction s generalizing prev with
  | nil => cases h
  | cons d s ih =>
      unfold kept at h
      split at h
      · next hd =>
          rcases List.mem_cons.mp h with rfl | h
          · rw [Bool.or_eq_true] at hd
            rcases hd with hal | hdot
            · exact Or.inl hal
            · unfold plainDot at hdot
              exact Or.inr (of_decide_eq_true hdot).1
          · exact ih h
      · exact ih h

theorem slash_notMem_kept : slash ∉ kept prev s := by
  intro h
  rcases mem_kept h with hal | hdot
  · exact absurd hal (by decide)
  · exact absurd hdot (by decide)

theorem zero_notMem_kept : 0 ∉ kept prev s := by
  intro h
  rcases mem_kept h with hal | hdot
  · exact absurd hal (by decide)
  · exact absurd hdot (by decide)

/-- No letter or digit is lost. -/
theorem filter_isAlnum_kept (prev : Option UInt8) (s : Str) :
    (kept prev s).filter isAlnum = s.filter isAlnum := by
  induction s generalizing prev with
  | nil => rfl
  | cons c s ih =>
      unfold kept
      by_cases hal : isAlnum c = true
      · rw [if_pos (by simp [hal]), List.filter_cons_of_pos hal, List.filter_cons_of_pos hal, ih]
      · rw [List.filter_cons_of_neg hal]
        split
        · rw [List.filter_cons_of_neg hal, ih]
        · rw [ih]

theorem count_dot_kept (prev : Option UInt8) (s : Str) :
    (kept prev s).count dot = plainDots prev s := by
  induction s generalizing prev with
  | nil => rfl
  | cons c s ih =>
      unfold kept plainDots
      by_cases hplain : plainDot prev s.head? c = true
      · have hdot : c = dot := by
          unfold plainDot at hplain
          exact (of_decide_eq_true hplain).1
        rw [if_pos (by simp [hplain]), if_pos hplain, hdot, List.count_cons_self, ih]
        omega
      · rw [if_neg hplain, Nat.zero_add]
        split
        · next hkeep =>
            -- a character that is stored and no plain dot is a letter or a digit
            have hal : isAlnum c = true := by simpa [hplain] using hkeep
            have hne : c ≠ dot := by
              rintro rfl
              exact absurd hal (by decide)
            rw [List.count_cons_of_ne hne, ih]
        · exact ih _

/-- Without letters and digits only the plain dots are left. -/
theorem kept_eq_replicate (h : s.filter isAlnum = []) :
    kept prev s = List.replicate (plainDots prev s) dot := by
  have hdots : ∀ c ∈ kept prev s, c = dot := by
    intro c hc
    rcases mem_kept hc with hal | hdot
    · have hmem := List.mem_filter.mpr ⟨hc, hal⟩
      rw [filter_isAlnum_kept, h] at hmem
      cases hmem
    · exact hdot
  have hall := List.eq_replicate_of_mem hdots
  have hcount := count_dot_kept prev s
  rw [hall, List.count_replicate_self] at hcount
  rw [← hcount]
  exact hall

end Kept

/-! ## Names without slashes -/

/-- What is left of a name in the first position: the letters, the digits, and the dots but a leading
    one. -/
def bareName (name : Str) : Str :=
  (if name.head? = some dot then name.tail else name).filter fun c => isAlnum c || c = dot

/-- After a character that is no slash every dot is plain. -/
theorem kept_bare {p : UInt8} {s : Str} (hp : p ≠ slash) (hs : slash ∉ s) :
    kept (some p) s = s.filter fun c => isAlnum c || c = dot := by
  induction s generalizing p with
  | nil => rfl
  | cons c s ih =>
      rw [List.mem_cons, not_or] at hs
      have hnext : s.head? ≠ some slash := fun he => hs.2 (List.mem_of_mem_head? he)
      have hplain : plainDot (some p) s.head? c = decide (c = dot) := by
        simp [plainDot, hp, hnext]
      rw [kept, hplain, List.filter_cons, ih (Ne.symm hs.1) hs.2]

theorem kept_bareName {prev : Option UInt8} {name : Str} (hprev : prev = none ∨ prev = some slash)
    (hname : slash ∉ name) : kept prev name = bareName name := by
  cases name with
  | nil => rfl
  | cons c name =>
      rw [List.mem_cons, not_or] at hname
      have hplain : plainDot prev name.head? c = false := by
        rcases hprev with rfl | rfl <;> simp [plainDot]
      rw [kept, hplain, Bool.or_false, kept_bare (Ne.symm hname.1) hname.2]
      unfold bareName
      by_cases hdot : c = dot
      · subst hdot
        rw [if_neg (by decide), List.head?_cons, if_pos rfl, List.tail_cons]
      · rw [if_neg (show (c :: name).head? ≠ some dot by simpa using hdot), List.filter_cons]
        simp [hdot]

/-- **A name behind any number of `./`.** -/
theorem kept_relative {name : Str} (m : Nat) (hname : slash ∉ name) :
    kept none ((List.replicate m [dot, slash]).flatten ++ name) = bareName name := by
  have hdrop : ∀ m (prev : Option UInt8), prev = none ∨ prev = some slash →
      kept prev ((List.replicate m [dot, slash]).flatten ++ name) = bareName name := by
    intro m
    induction m with
    | zero => exact fun prev hprev => kept_bareName hprev hname
    | succ m ih =>
        intro prev _
        rw [List.replicate_succ, List.flatten_cons, List.append_assoc]
        show kept prev (dot :: slash :: _) = _
        rw [kept_dot_slash]
        exact ih _ (Or.inr rfl)
  exact hdrop m none (Or.inl rfl)

/-- Which names are left as they are. -/
theorem bareName_eq_self {name : Str} :
    bareName name = name ↔ name.head? ≠ some dot ∧ ∀ c ∈ name, isAlnum c = true ∨ c = dot := by
  unfold bareName
  constructor
  · intro h
    split at h
    · next hdot =>
        exfalso
        obtain ⟨c, rest, rfl⟩ := List.exists_cons_of_ne_nil (l := name) (by rintro rfl; cases hdot)
        have hlen := congrArg List.length h
        have hle := List.length_filter_le (fun c => isAlnum c || decide (c = dot)) (c :: rest).tail
        rw [List.tail_cons] at hlen hle
        rw [List.length_cons] at hlen
        omega
    · next hdot => exact ⟨hdot, by simpa using h⟩
  · rintro ⟨hdot, hall⟩
    rw [if_neg hdot]
    simpa using hall

end Btide
