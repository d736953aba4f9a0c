import Btide.Command.Process

/-!
# `Command.Port` — the port of a connection

The text behind the colon of a `CONNECT` argument is read three times: `validIP` asks whether it starts
with a number, `atoi` takes that number for the peer record, and `client` passes its last 16 bits to
`connect`. The second and the third reading agree on the ports there are, and nothing checks that the
number is one of them, nor that anything follows it (`config_load` does check the range of the server's
own port).

So the three agree on a text exactly when it consists, after an optional plus sign, of digits, and these
make a number between 1 and 65535 (`connect_port_iff`).
-/

namespace Btide

/-- The port that `client` passes to `connect`: `htons(peer->port)`, read in network order. -/
def dialledPort (port : Int32) : UInt16 := (port.toInt % 65536).toNat.toUInt16

/-- The text is a decimal number between 1 and 65535 with nothing after it, and this is the port that is
    stored and the one that is dialled. -/
def PortAgrees (text : Str) (port : Int32) : Prop :=
  ∃ n : Nat, 1 ≤ n ∧ n ≤ 65535 ∧ scanInt text = some ((n : Int), []) ∧ port.toInt = n ∧
    (dialledPort port).toNat = n

/-- No minus sign, only digits after an optional plus sign, and a value in range. -/
def PlainPort (text : Str) : Prop :=
  text.head? ≠ some 45 ∧ (∀ c ∈ skipSign text, isDigit c = true) ∧
    1 ≤ ofDecimal (skipSign text) ∧ ofDecimal (skipSign text) ≤ 65535

instance (text : Str) : Decidable (PlainPort text) :=
  decidable_of_iff (text.head? ≠ some 45 ∧ (skipSign text).all isDigit = true ∧
      1 ≤ ofDecimal (skipSign text) ∧ ofDecimal (skipSign text) ≤ 65535)
    (by rw [PlainPort, List.all_eq_true])

theorem dialledPort_of_lt {port : Int32} {n : Nat} (h : port.toInt = n) (hn : n ≤ 65535) :
    (dialledPort port).toNat = n := by
  unfold dialledPort
  rw [h]
  show (((n : Int) % 65536).toNat) % 65536 = n
  omega

/-- Ports that agree with what is dialled are told apart by it. -/
theorem PortAgrees.dialled_ne {text text' : Str} {port port' : Int32} (h : PortAgrees text port)
    (h' : PortAgrees text' port') (hne : port ≠ port') : dialledPort port ≠ dialledPort port' := by
  intro he
  obtain ⟨n, _, _, _, hport, hdial⟩ := h
  obtain ⟨n', _, _, _, hport', hdial'⟩ := h'
  refine hne (Int32.toInt_inj.mp ?_)
  rw [hport, hport', ← hdial, ← hdial', he]

/-- When a text is a number as a whole. -/
theorem scanInt_whole {text : Str} {n : Nat} (hn : 1 ≤ n) :
    scanInt text = some ((n : Int), []) ↔
      text.head? ≠ some 45 ∧ (∀ c ∈ skipSign text, isDigit c = true) ∧ ofDecimal (skipSign text) = n := by
  constructor
  · intro h
    simp only [scanInt] at h
    split at h
    · cases h
    · rw [Option.some.injEq, Prod.mk.injEq] at h
      obtain ⟨hvalue, hrest⟩ := h
      have hwhole : (skipSign text).takeWhile isDigit = skipSign text := by
        have hdrop := List.drop_eq_nil_iff.mp hrest
        exact (List.takeWhile_prefix isDigit).eq_of_length_le hdrop
      rw [hwhole] at hvalue
      refine ⟨?_, List.takeWhile_eq_self_iff.mp hwhole, ?_⟩
      · intro hminus
        rw [if_pos hminus] at hvalue
        omega
      · split at hvalue <;> omega
  · rintro ⟨hminus, hdigits, hvalue⟩
    have hwhole : (skipSign text).takeWhile isDigit = skipSign text :=
      List.takeWhile_eq_self_iff.mpr hdigits
    have hne : skipSign text ≠ [] := by
      intro hnil
      rw [hnil] at hvalue
      have hzero : ofDecimal [] = 0 := rfl
      omega
    simp only [scanInt, hwhole, if_neg hne, if_neg hminus, hvalue, List.drop_length]

/-- The number that is stored for an accepted argument. -/
theorem Accepted.scanInt {w ip text : Str} (h : Accepted w ip text)
    (hspace : ∀ c ∈ w, isSpace c = false) :
    ∃ z rest, scanInt text = some (z, rest) ∧ leadingNumber text = z ∧
      (Int32.ofInt (leadingNumber text)).toInt = z := by
  obtain ⟨z, rest, hscan⟩ := h.number
  have htext : text.dropWhile isSpace = text := by
    have hstop : Stops isSpace text := by
      intro c hc
      obtain ⟨rfl, _⟩ := splitAddress_eq_some.mp h.split
      exact hspace c (List.mem_append_right _ (List.mem_cons_of_mem _ (List.mem_of_mem_head? hc)))
    exact hstop.dropWhile
  have hnumber : leadingNumber text = z := by
    unfold leadingNumber
    rw [hscan]
  rw [htext] at hscan
  obtain ⟨hlo, hhi⟩ := scanInt_fits hscan h.fits.port
  unfold INT_MIN at hlo
  unfold INT_MAX at hhi
  refine ⟨z, rest, hscan, hnumber, ?_⟩
  rw [hnumber]
  exact Int32.toInt_ofInt_of_le (by omega) (by omega)

/-- On an accepted text the three readings agree just for a plain port. -/
theorem portAgrees_iff {w ip text : Str} (h : Accepted w ip text)
    (hspace : ∀ c ∈ w, isSpace c = false) :
    PortAgrees text (Int32.ofInt (leadingNumber text)) ↔ PlainPort text := by
  obtain ⟨z, rest, hscan, _, hstored⟩ := h.scanInt hspace
  constructor
  · rintro ⟨n, hone, hmax, hwhole, _, _⟩
    obtain ⟨hminus, hdigits, hvalue⟩ := (scanInt_whole hone).mp hwhole
    exact ⟨hminus, hdigits, by omega, by omega⟩
  · rintro ⟨hminus, hdigits, hone, hmax⟩
    have hwhole := (scanInt_whole hone).mpr ⟨hminus, hdigits, rfl⟩
    have hz : z = (ofDecimal (skipSign text) : Int) := by
      rw [hscan] at hwhole
      cases hwhole
      rfl
    rw [hz] at hstored
    exact ⟨_, hone, hmax, hwhole, hstored, dialledPort_of_lt hstored hmax⟩

/-- **When the port of a `CONNECT` is one port.** For every argument that `validIP` accepts, the command
    records what `atoi` reads behind the first colon. This is the number that the text there stands for,
    it is between 1 and 65535 with nothing after it, and it is the port that is dialled, if and only if
    the text has no minus sign, consists of digits after an optional plus sign, and has a value in range.
    Two such entries with different ports are then different endpoints. -/
theorem connect_port_iff {stdin w rest : Str} {locals : Locals}
    (hw : word "CONNECT" (inputLine stdin) = some w)
    (hvalid : validIP locals.validIP (w ++ 0 :: rest) = .ok 1) :
    ∃ ip text port, w = ip ++ colon :: text ∧ colon ∉ ip ∧
      (∀ fuel env s, s.stdin = stdin → getPeer s.net.peerList ip port = none →
        processCommand fuel env locals s
          = if env.created then .ok ({ s.read with net := s.net.connect ip port true }, [])
            else .error .uninitRead) ∧
      (PortAgrees text port ↔ PlainPort text) ∧
      ∀ text' port', PortAgrees text' port' → PlainPort text → port ≠ port' →
        dialledPort port ≠ dialledPort port' := by
  have hzero := zero_notMem_word hw
  have hspace : ∀ c ∈ w, isSpace c = false := fun c hc => (word_mem hw hc).1
  rw [validIP_text (by simp), cString_zero, cString_eq hzero] at hvalid
  obtain ⟨ip, text, hacc⟩ := checkAddress_eq_one.mp hvalid
  obtain ⟨hsplit, hcolon, _, _⟩ := splitAddress_eq_some.mp hacc.split
  have hagrees := portAgrees_iff hacc hspace
  refine ⟨ip, text, Int32.ofInt (leadingNumber text), hsplit, hcolon, ?_, hagrees, ?_⟩
  · rintro fuel env s rfl hnew
    rw [processCommand_connect fuel env locals hw hacc]
    exact connectTo_new hacc.fits.ip hnew
  · intro text' port' h' hplain hne
    exact (hagrees.mpr hplain).dialled_ne h' hne

/-- An ordinary argument. -/
theorem connect_port_iff_plain :
    ∃ ip text port, bytes "127.0.0.1:8080" = ip ++ colon :: text ∧ colon ∉ ip ∧
      (∀ fuel env s, s.stdin = bytes "CONNECT 127.0.0.1:8080\n" →
        getPeer s.net.peerList ip port = none →
        processCommand fuel env (.fill 0) s
          = if env.created then .ok ({ s.read with net := s.net.connect ip port true }, [])
            else .error .uninitRead) ∧
      (PortAgrees text port ↔ PlainPort text) ∧
      ∀ text' port', PortAgrees text' port' → PlainPort text → port ≠ port' →
        dialledPort port ≠ dialledPort port' := by
  refine @connect_port_iff (bytes "CONNECT 127.0.0.1:8080\n") _ [] (.fill 0) (by decide) ?_
  rw [validIP_text (by decide)]
  decide

/-- **A port above 65535 hides a second connection to one endpoint.** While the peer is connected at port
    80, `CONNECT` with the port 65616 is not reported as a duplicate, and dials port 80 again. -/
theorem connect_port_wraps :
    ∃ s s' : Session, s.stdin = bytes "CONNECT 127.0.0.1:65616\n" ∧
      s.net.peerList = [⟨bytes "127.0.0.1", 80, some 5⟩] ∧
      (∀ locals : Locals, validIP locals.validIP (bytes "127.0.0.1:65616" ++ [0]) = .ok 1) ∧
      (∀ fuel locals, processCommand fuel (.plain (bytes "packages")) locals s = .ok (s', [])) ∧
      s'.net.pending = [⟨bytes "127.0.0.1", 65616, none⟩] ∧
      dialledPort 65616 = dialledPort 80 ∧ ¬ PortAgrees (bytes "65616") 65616 := by
  let s := Session.connected (bytes "CONNECT 127.0.0.1:65616\n") ⟨bytes "127.0.0.1", 80, some 5⟩
  have hacc : Accepted (bytes "127.0.0.1:65616") (bytes "127.0.0.1") (bytes "65616") :=
    ⟨by decide, ⟨by decide, by decide⟩, 65616, [], by decide⟩
  have hport : Int32.ofInt (leadingNumber (bytes "65616")) = 65616 := by decide
  have hword : word "CONNECT" (inputLine s.stdin) = some (bytes "127.0.0.1:65616") := by decide
  let s' : Session := { s.read with net := s.net.connect (bytes "127.0.0.1") 65616 true }
  refine ⟨s, s', rfl, rfl, fun locals => ?_, fun fuel locals => ?_, by decide, by decide, ?_⟩
  · rw [validIP_text (by decide)]
    decide
  · rw [processCommand_connect fuel _ locals hword hacc, hport]
    exact connectTo_created (by decide) (by decide) rfl
  · have hplain := portAgrees_iff hacc fun c hc => (word_mem hword hc).1
    rw [hport] at hplain
    rw [hplain]
    decide

end Btide
