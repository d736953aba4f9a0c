import Btide.Base.Buffer
import Btide.Chk.Obj

/-!
# `Command.Address` — the address argument (`validIP` in `btide.c`)

`CONNECT` and `DISCONNECT` take an address `ip:port`. `validIP` looks for the colon, copies what stands
before and after it into two arrays and asks whether the second one starts with a number; afterwards
`process_command` copies both once more and takes the number with `atoi`.

On a terminated array all of this is a function of the text in it, whatever the local arrays held before
(`validIP_text`, `readAddress_text`).
-/

namespace Btide

def MAX_IP : Nat := 40
def MAX_PORT : Nat := 10

/-- `':'`. -/
def colon : UInt8 := 58

/-- The arrays `ip` and `portstring`. -/
structure AddressBuffers where
  ip : Buffer MAX_IP
  portstring : Buffer MAX_PORT

/-- `atoi`; a number that does not fit has no meaning in C. -/
def atoi (chars : Str) : Run Int32 := do
  let s ← readStr chars
  match scanInt (s.dropWhile isSpace) with
  | none => .ok 0
  | some (z, _) => toInt32 z

def validIP (locals : AddressBuffers) (ipport : Str) : Run Int := do
  match ← strchr ipport colon with
  | none => .ok 0
  | some i =>
    if i = 0 then .ok 0
    else do
      let next ← index (some ipport) (i + 1)
      if next = 0 then .ok 0
      else do
        let ip ← locals.ip.put (ipport.take i)
        let portstring ← locals.portstring.strcpy (ipport.drop (i + 1))
        let iplen ← strlen ip.chars
        let portlen ← strlen portstring.chars
        if iplen = 0 ∨ portlen = 0 then .ok 0
        else do
          match ← sscanf portstring.chars [.int] with
          | [.int _] => .ok 1
          | _ => .ok 0

/-- The ip and the port that `process_command` takes from a valid address. -/
def readAddress (locals : AddressBuffers) (ipport : Str) : Run (Str × Int32) := do
  match ← strchr ipport colon with
  | none => .error .wildPointer
  | some i => do
    let ip ← locals.ip.put (ipport.take i)
    let portstring ← locals.portstring.strcpy (ipport.drop (i + 1))
    let port ← atoi portstring.chars
    let ip ← readStr ip.chars
    .ok (ip, port)

/-! ## The text of an address -/

/-- The texts before and after the first colon, if neither is empty. -/
def splitAddress (w : Str) : Option (Str × Str) :=
  let ip := w.takeWhile (· ≠ colon)
  let port := (w.dropWhile (· ≠ colon)).tail
  if ip = [] ∨ port = [] then none else some (ip, port)

/-- The number at the start of a text, 0 if there is none. -/
def leadingNumber (text : Str) : Int :=
  match scanInt (text.dropWhile isSpace) with
  | none => 0
  | some (z, _) => z

/-- The parts of an address fit their arrays. -/
structure PartsFit (ip port : Str) : Prop where
  ip : ip.length < MAX_IP
  port : port.length < MAX_PORT

instance (ip port : Str) : Decidable (PartsFit ip port) :=
  decidable_of_iff (ip.length < MAX_IP ∧ port.length < MAX_PORT)
    ⟨fun h => ⟨h.1, h.2⟩, fun h => ⟨h.ip, h.port⟩⟩

/-- `validIP` on a text. -/
def checkAddress (w : Str) : Run Int :=
  match splitAddress w with
  | none => .ok 0
  | some (ip, port) =>
    if PartsFit ip port then
      .ok (if scanInt (port.dropWhile isSpace) = none then 0 else 1)
    else .error .bufferOverflow

/-- A text that `validIP` accepts, with its parts. -/
structure Accepted (w ip port : Str) : Prop where
  split : splitAddress w = some (ip, port)
  fits : PartsFit ip port
  number : ∃ z rest, scanInt (port.dropWhile isSpace) = some (z, rest)

section Split

variable {w ip port : Str}

theorem splitAddress_eq_some : splitAddress w = some (ip, port) ↔
    w = ip ++ colon :: port ∧ colon ∉ ip ∧ ip ≠ [] ∧ port ≠ [] := by
  constructor
  · intro h
    simp only [splitAddress] at h
    split at h
    · cases h
    · next hne =>
        rw [not_or] at hne
        cases h
        have hdrop : w.dropWhile (· ≠ colon) = colon :: (w.dropWhile (· ≠ colon)).tail := by
          have hne' : w.dropWhile (· ≠ colon) ≠ [] := fun he => hne.2 (by rw [he]; rfl)
          have hhead := List.head_dropWhile_not (fun c => decide (c ≠ colon)) hne'
          have hcolon : (w.dropWhile (· ≠ colon)).head hne' = colon := by simpa using hhead
          have hcons := (List.cons_head_tail hne').symm
          rwa [hcolon] at hcons
        refine ⟨?_, ?_, hne.1, hne.2⟩
        · rw [← hdrop]
          exact List.takeWhile_append_dropWhile.symm
        · intro hmem
          have himp := List.mem_takeWhile_imp hmem
          simp at himp
  · rintro ⟨rfl, hcolon, hip, hport⟩
    have hkeep : ∀ c ∈ ip, decide (c ≠ colon) = true := by
      intro c hc
      have hne : c ≠ colon := fun he => hcolon (he ▸ hc)
      simpa using hne
    have hstop : Stops (fun c => decide (c ≠ colon)) (colon :: port) := Stops.cons (by simp) port
    have htake : (ip ++ colon :: port).takeWhile (· ≠ colon) = ip := takeWhile_munch hkeep hstop
    have hdrop : (ip ++ colon :: port).dropWhile (· ≠ colon) = colon :: port := by
      rw [List.dropWhile_append_of_pos hkeep, hstop.dropWhile]
    simp only [splitAddress, htake, hdrop, List.tail_cons]
    rw [if_neg (not_or.mpr ⟨hip, hport⟩)]

/-- A text without an ip or a port. -/
theorem splitAddress_eq_none (h : splitAddress w = none) :
    colon ∉ w ∨ ∃ port, w = colon :: port ∨ ∃ ip, w = ip ++ [colon] ∧ colon ∉ ip ∧ ip ≠ [] := by
  by_cases hmem : colon ∈ w
  · obtain ⟨ip, port, rfl, hcolon⟩ := List.eq_append_cons_of_mem hmem
    refine Or.inr ⟨port, ?_⟩
    by_cases hip : ip = []
    · exact Or.inl (by rw [hip]; rfl)
    · by_cases hport : port = []
      · exact Or.inr ⟨ip, by rw [hport], hcolon, hip⟩
      · rw [splitAddress_eq_some.mpr ⟨rfl, hcolon, hip, hport⟩] at h
        cases h
  · exact Or.inl hmem

end Split

/-! ## Small numbers -/

theorem mem_takeWhile_digit {s : Str} {c : UInt8} (h : c ∈ s.takeWhile isDigit) :
    c.toNat - 48 < 10 := by
  have := isDigit_iff.mp (List.mem_takeWhile_imp h)
  omega

theorem ofDecimal_lt {digits : Str} (h : ∀ c ∈ digits, c.toNat - 48 < 10) :
    ofDecimal digits < 10 ^ digits.length := by
  have hlt := @Nat.ofDigits_lt_base_pow_length 10 (digits.map fun c => c.toNat - 48).reverse
    (by omega) (by
      intro d hd
      obtain ⟨c, hc, rfl⟩ := List.mem_map.mp (List.mem_reverse.mp hd)
      exact h c hc)
  rwa [List.length_reverse, List.length_map] at hlt

/-- A short number fits an `int`. -/
theorem scanInt_fits {s rest : Str} {z : Int} (h : scanInt s = some (z, rest))
    (hlen : s.length < MAX_PORT) : INT_MIN ≤ z ∧ z ≤ INT_MAX := by
  simp only [scanInt] at h
  split at h
  · cases h
  · rw [Option.some.injEq, Prod.mk.injEq] at h
    have hvalue := @ofDecimal_lt ((skipSign s).takeWhile isDigit) fun c hc => mem_takeWhile_digit hc
    have hdigits : ((skipSign s).takeWhile isDigit).length ≤ 9 := by
      have h₁ := (List.takeWhile_prefix (l := skipSign s) isDigit).length_le
      have h₂ := skipSign_length_le s
      unfold MAX_PORT at hlen
      omega
    have hpow := Nat.pow_le_pow_right (n := 10) (by omega) hdigits
    have hz := h.1
    unfold INT_MIN INT_MAX
    split at hz <;> omega

theorem toInt32_scanInt {s rest : Str} {z : Int} (h : scanInt s = some (z, rest))
    (hlen : s.length < MAX_PORT) : toInt32 z = .ok (Int32.ofInt z) :=
  if_pos (scanInt_fits h hlen)

theorem sscanf_number {port rest : Str} (hport : 0 ∉ port) (hlen : port.length < MAX_PORT) :
    sscanf (port ++ 0 :: rest) [.int]
      = .ok (match scanInt (port.dropWhile isSpace) with
        | none => []
        | some (z, _) => [.int (Int32.ofInt z)]) := by
  have hskip := (List.dropWhile_suffix (l := port) isSpace).length_le
  unfold sscanf
  rw [cString_zero, cString_eq hport, scan]
  cases hscan : scanInt (port.dropWhile isSpace) with
  | none => rfl
  | some r =>
      obtain ⟨z, t⟩ := r
      simp only [toInt32_scanInt hscan (by omega), Run.ok_bind, scan]

theorem atoi_short {port rest : Str} (hport : 0 ∉ port) (hlen : port.length < MAX_PORT) :
    atoi (port ++ 0 :: rest) = .ok (Int32.ofInt (leadingNumber port)) := by
  have hskip := (List.dropWhile_suffix (l := port) isSpace).length_le
  unfold atoi leadingNumber
  rw [readStr_ok (by simp), Run.ok_bind, cString_zero, cString_eq hport]
  cases hscan : scanInt (port.dropWhile isSpace) with
  | none => rfl
  | some r =>
      obtain ⟨z, t⟩ := r
      exact toInt32_scanInt hscan (by omega)

/-! ## A terminated array is read as its text -/

section Text

variable {locals : AddressBuffers} {ipport w ip port : Str}

/-- The three places where `validIP` gives up before it copies anything. -/
theorem validIP_none {rest : Str} (hw : 0 ∉ w) (h : splitAddress w = none) :
    validIP locals (w ++ 0 :: rest) = .ok 0 := by
  unfold validIP
  rcases splitAddress_eq_none h with hmem | ⟨port, rfl | ⟨ip, rfl, hcolon, hip⟩⟩
  · rw [strchr_missing hw hmem (by decide), Run.ok_bind]
  · have hfound := @strchr_found colon [] List.not_mem_nil List.not_mem_nil (port ++ 0 :: rest)
    rw [List.nil_append] at hfound
    rw [List.cons_append, hfound, Run.ok_bind]
    rfl
  · have hpos : ip.length ≠ 0 := fun he => hip (List.length_eq_zero_iff.mp he)
    have hzero : 0 ∉ ip := fun hm => hw (List.mem_append_left _ hm)
    have happend : ip ++ [colon] ++ 0 :: rest = ip ++ colon :: 0 :: rest := by simp
    have hnext : (ip ++ colon :: 0 :: rest)[ip.length + 1]? = some 0 := by
      rw [List.getElem?_append_right (by omega), Nat.add_sub_cancel_left]
      rfl
    rw [happend, strchr_found hzero hcolon, Run.ok_bind]
    simp only [if_neg hpos, index_ok hnext, Run.ok_bind]
    rfl

/-- The bytes from the two parts on. -/
theorem split_array (h : splitAddress w = some (ip, port)) (hw : 0 ∉ w) (rest : Str) :
    strchr (w ++ 0 :: rest) colon = .ok (some ip.length) ∧ (w ++ 0 :: rest).take ip.length = ip ∧
      (w ++ 0 :: rest).drop (ip.length + 1) = port ++ 0 :: rest ∧ 0 ∉ ip ∧ 0 ∉ port := by
  obtain ⟨rfl, hcolon, _, _⟩ := splitAddress_eq_some.mp h
  rw [List.mem_append, List.mem_cons, not_or, not_or] at hw
  obtain ⟨hip, _, hport⟩ := hw
  have happend : ip ++ colon :: port ++ 0 :: rest = ip ++ colon :: (port ++ 0 :: rest) := by simp
  rw [happend]
  refine ⟨strchr_found hip hcolon _, List.take_left, ?_, hip, hport⟩
  rw [← List.drop_drop, List.drop_left]
  rfl

theorem validIP_some {rest : Str} (hw : 0 ∉ w) (h : splitAddress w = some (ip, port)) :
    validIP locals (w ++ 0 :: rest)
      = if PartsFit ip port then .ok (if scanInt (port.dropWhile isSpace) = none then 0 else 1)
        else .error .bufferOverflow := by
  obtain ⟨hchr, htake, hdrop, hip, hport⟩ := split_array h hw rest
  obtain ⟨hsplit, _, hipne, hportne⟩ := splitAddress_eq_some.mp h
  have hpos : ip.length ≠ 0 := fun he => hipne (List.length_eq_zero_iff.mp he)
  have hportpos : port.length ≠ 0 := fun he => hportne (List.length_eq_zero_iff.mp he)
  -- the character after the colon is the first one of the port
  have hnext : ∃ c, (w ++ 0 :: rest)[ip.length + 1]? = some c ∧ c ≠ 0 := by
    obtain ⟨c, cs, rfl⟩ := List.exists_cons_of_ne_nil hportne
    refine ⟨c, ?_, fun hc => hport (hc ▸ List.mem_cons_self)⟩
    have hget : ((w ++ 0 :: rest).drop (ip.length + 1))[0]? = (w ++ 0 :: rest)[ip.length + 1]? :=
      List.getElem?_drop
    rw [hdrop] at hget
    exact hget.symm
  obtain ⟨c, hc, hcne⟩ := hnext
  unfold validIP
  rw [hchr, Run.ok_bind]
  simp only [if_neg hpos, index_ok hc, Run.ok_bind, if_neg hcne, htake, hdrop]
  have hmem : (0 : UInt8) ∈ port ++ 0 :: rest := by simp
  rw [Buffer.strcpy_eq_put _ hmem, cString_zero, cString_eq hport]
  by_cases hfit : PartsFit ip port
  · obtain ⟨b₁, hb₁, hzero₁, hstr₁⟩ := locals.ip.put_ok hfit.ip
    obtain ⟨b₂, hb₂, hzero₂, hstr₂⟩ := locals.portstring.put_ok hfit.port
    obtain ⟨rest₂, hrest₂⟩ := eq_cString_append hzero₂
    rw [cString_eq hip] at hstr₁
    rw [cString_eq hport] at hstr₂
    have hnumber := @sscanf_number port rest₂ hport hfit.port
    rw [if_pos hfit, hb₁, Run.ok_bind, hb₂, Run.ok_bind, strlen_ok hzero₁, Run.ok_bind,
      strlen_ok hzero₂, Run.ok_bind, hstr₁, hstr₂, if_neg (not_or.mpr ⟨hpos, hportpos⟩)]
    rw [hrest₂, hstr₂, hnumber, Run.ok_bind]
    cases scanInt (port.dropWhile isSpace) with
    | none => rfl
    | some r => rfl
  · rw [if_neg hfit]
    by_cases hiplen : ip.length < MAX_IP
    · obtain ⟨b₁, hb₁, _⟩ := locals.ip.put_ok hiplen
      have hlong : MAX_PORT ≤ port.length := by
        by_contra hlt
        exact hfit ⟨hiplen, by omega⟩
      rw [hb₁, Run.ok_bind, Buffer.put_overflow _ hlong, Run.error_bind]
    · rw [Buffer.put_overflow _ (by omega), Run.error_bind]

/-- **`validIP` depends on the text alone.** -/
theorem validIP_text (h : 0 ∈ ipport) : validIP locals ipport = checkAddress (cString ipport) := by
  have hw := zero_notMem_cString ipport
  obtain ⟨rest, hrest⟩ := eq_cString_append h
  generalize cString ipport = w at hw hrest
  subst hrest
  unfold checkAddress
  cases hsplit : splitAddress w with
  | none => exact validIP_none hw hsplit
  | some r => exact validIP_some hw hsplit

theorem checkAddress_eq_ok {v : Int} (h : checkAddress w = .ok v) : v = 0 ∨ v = 1 := by
  unfold checkAddress at h
  split at h
  · cases h
    exact Or.inl rfl
  · split at h
    · cases h
      split
      · exact Or.inl rfl
      · exact Or.inr rfl
    · cases h

theorem checkAddress_eq_one : checkAddress w = .ok 1 ↔ ∃ ip port, Accepted w ip port := by
  unfold checkAddress
  constructor
  · intro h
    split at h
    · cases h
    · next ip port hsplit =>
        split at h
        · next hfit =>
            cases hscan : scanInt (port.dropWhile isSpace) with
            | none =>
                rw [hscan] at h
                cases h
            | some r => exact ⟨ip, port, hsplit, hfit, _, _, hscan⟩
        · cases h
  · rintro ⟨ip, port, hsplit, hfit, z, rest, hscan⟩
    rw [hsplit]
    simp only [if_pos hfit, hscan]
    rfl

/-- So does what `process_command` takes from it. -/
theorem readAddress_text (h : 0 ∈ ipport) (hacc : Accepted (cString ipport) ip port) :
    readAddress locals ipport = .ok (ip, Int32.ofInt (leadingNumber port)) := by
  have hw := zero_notMem_cString ipport
  obtain ⟨rest, hrest⟩ := eq_cString_append h
  obtain ⟨hchr, htake, hdrop, hip, hport⟩ := split_array hacc.split hw rest
  rw [← hrest] at hchr htake hdrop
  have hmem : (0 : UInt8) ∈ port ++ 0 :: rest := by simp
  obtain ⟨b₁, hb₁, hzero₁, hstr₁⟩ := locals.ip.put_ok hacc.fits.ip
  obtain ⟨b₂, hb₂, hzero₂, hstr₂⟩ := locals.portstring.put_ok hacc.fits.port
  obtain ⟨rest₂, hrest₂⟩ := eq_cString_append hzero₂
  rw [cString_eq hip] at hstr₁
  rw [cString_eq hport] at hstr₂
  rw [hstr₂] at hrest₂
  unfold readAddress
  rw [hchr, Run.ok_bind]
  simp only [htake, hdrop, hb₁, Run.ok_bind, Buffer.strcpy_eq_put _ hmem, cString_zero,
    cString_eq hport, hb₂]
  rw [hrest₂, atoi_short hport hacc.fits.port, Run.ok_bind, readStr_ok hzero₁, hstr₁, Run.ok_bind]

end Text

end Btide
