import Btide.Command.Feed
import Btide.Command.Port

/-!
# `Command.Disconnect` — what `PEERS` lists, `DISCONNECT` takes

`PEERS` writes the address of a peer as its ip, a colon and the port that was stored (`PeerInfo.text`).
This need not be the text that was given to `CONNECT`: `127.0.0.1:+080x` is listed as `127.0.0.1:80`. It
is never longer, though, so it fits the arrays of `validIP` again, and it is read as the same address
(`typable_of_accepted`, `Typable.accepted`). So every peer of the list can be disconnected by what is
listed, whichever client threads come to their end between the commands (`disconnect_listed`).

Only an address that `CONNECT` has read from an argument is meant. Without one it takes whatever is left
in the array `ipport`.
-/

namespace Btide

/-! ## Numbers that are written and read again -/

section Numbers

variable {text rest : Str} {z : Int}

theorem decimalInt_of_nonneg (h : 0 ≤ z) : decimalInt z = decimal z.toNat := by
  have habs : z.natAbs = z.toNat := by omega
  rw [decimalInt, if_neg (by omega), habs]

theorem decimalInt_of_neg (h : z < 0) : decimalInt z = 45 :: decimal z.natAbs := if_pos h

/-- A number begins with a digit or a minus sign. -/
theorem decimalInt_stops (z : Int) (rest : Str) : Stops isSpace (decimalInt z ++ rest) := by
  rcases Int.lt_or_le z 0 with hneg | hpos
  · rw [decimalInt_of_neg hneg]
    exact Stops.cons rfl _
  · rw [decimalInt_of_nonneg hpos]
    exact decimal_stops z.toNat rest

theorem mem_decimalInt {c : UInt8} (h : c ∈ decimalInt z) : c = 45 ∨ isDigit c = true := by
  rcases Int.lt_or_le z 0 with hneg | hpos
  · rw [decimalInt_of_neg hneg] at h
    exact (List.mem_cons.mp h).imp_right mem_decimal
  · rw [decimalInt_of_nonneg hpos] at h
    exact Or.inr (mem_decimal h)

/-- `%d` reads what `%d` has written. -/
theorem scanInt_decimalInt (z : Int) : scanInt (decimalInt z) = some (z, []) := by
  rcases Int.lt_or_le z 0 with hneg | hpos
  · have hskip : skipSign (45 :: decimal z.natAbs) = decimal z.natAbs := rfl
    have hdigits : (decimal z.natAbs).takeWhile isDigit = decimal z.natAbs :=
      List.takeWhile_eq_self_iff.mpr fun c hc => mem_decimal hc
    have hvalue : -(z.natAbs : Int) = z := by omega
    rw [decimalInt_of_neg hneg]
    simp only [scanInt, hskip, hdigits, if_neg (decimal_ne_nil _), List.head?_cons, if_true,
      ofDecimal_decimal, hvalue, List.drop_length]
  · have hscan := @scanInt_decimal [] z.toNat (Stops.nil _)
    rwa [List.append_nil, Int.toNat_of_nonneg hpos, ← decimalInt_of_nonneg hpos] at hscan

/-- What is written is no longer than what has been read: signs and zeros in front are dropped. -/
theorem decimalInt_length_le (h : scanInt text = some (z, rest)) :
    (decimalInt z).length ≤ text.length := by
  simp only [scanInt] at h
  split at h
  · cases h
  · next hne =>
      rw [Option.some.injEq, Prod.mk.injEq] at h
      obtain ⟨hvalue, _⟩ := h
      have hone : 1 ≤ ((skipSign text).takeWhile isDigit).length := List.length_pos_of_ne_nil hne
      have hpow := ofDecimal_lt fun c hc => @mem_takeWhile_digit (skipSign text) c hc
      have hwritten := decimal_length_le hpow hone
      have hdigits := (List.takeWhile_prefix (l := skipSign text) isDigit).length_le
      have hskip := skipSign_length_le text
      rcases Int.lt_or_le z 0 with hneg | hpos
      · -- only a minus sign makes a number negative, and it takes a character
        split at hvalue
        · next hminus =>
            obtain ⟨cs, rfl⟩ : ∃ cs, text = 45 :: cs := List.head?_eq_some_iff.mp hminus
            have habs : z.natAbs = ofDecimal ((skipSign (45 :: cs)).takeWhile isDigit) := by omega
            have hcs : skipSign (45 :: cs) = cs := rfl
            rw [decimalInt_of_neg hneg, habs, List.length_cons, List.length_cons]
            rw [hcs] at hdigits hwritten ⊢
            omega
        · omega
      · have habs : z.toNat = ofDecimal ((skipSign text).takeWhile isDigit) := by
          split at hvalue <;> omega
        rw [decimalInt_of_nonneg hpos, habs]
        omega

end Numbers

/-! ## Addresses that can be typed -/

/-- What `PEERS` writes for the address is the address when it is the argument of a command. -/
structure Typable (ip : Str) (port : Int32) : Prop where
  ne : ip ≠ []
  chars : ∀ c ∈ ip, isSpace c = false ∧ c ≠ 0 ∧ c ≠ colon
  fits : PartsFit ip (decimalInt port.toInt)

/-- The text of an address, as in `PeerInfo.text`. -/
def addressText (ip : Str) (port : Int32) : Str := (PeerInfo.mk ip port none).text

section Typable

variable {name : String} {input w ip text : Str} {port : Int32}

/-- An address that a command has read from its argument can be typed. -/
theorem typable_of_accepted (hw : word name (cString input) = some w) (h : Accepted w ip text) :
    Typable ip (Int32.ofInt (leadingNumber text)) := by
  have hspace : ∀ c ∈ w, isSpace c = false := fun c hc => (word_mem hw hc).1
  obtain ⟨z, rest, hscan, _, hstored⟩ := h.scanInt hspace
  obtain ⟨hsplit, hcolon, hne, _⟩ := splitAddress_eq_some.mp h.split
  have hip : ∀ c ∈ ip, c ∈ w := fun c hc => hsplit ▸ List.mem_append_left _ hc
  have hlen := decimalInt_length_le hscan
  have hfits := h.fits.port
  refine ⟨hne, fun c hc => ⟨hspace c (hip c hc), ?_, ?_⟩, h.fits.ip, ?_⟩
  · rintro rfl
    exact zero_notMem_word hw (hip _ hc)
  · rintro rfl
    exact hcolon hc
  · rw [hstored]
    omega

theorem addressText_eq (ip : Str) (port : Int32) :
    addressText ip port = ip ++ colon :: decimalInt port.toInt := by
  have hcolon : bytes ":" = [colon] := by decide
  rw [addressText, PeerInfo.text, hcolon, List.append_assoc]
  rfl

/-- The text is read as the address that it was written for. -/
theorem Typable.accepted (h : Typable ip port) :
    Accepted (addressText ip port) ip (decimalInt port.toInt) := by
  have hdigits : decimalInt port.toInt ≠ [] := by
    intro hnil
    have hscan := scanInt_decimalInt port.toInt
    rw [hnil] at hscan
    cases hscan
  have hstart : (decimalInt port.toInt).dropWhile isSpace = decimalInt port.toInt := by
    have hstops := decimalInt_stops port.toInt []
    rw [List.append_nil] at hstops
    exact hstops.dropWhile
  refine ⟨splitAddress_eq_some.mpr ⟨addressText_eq ip port, ?_, h.ne, hdigits⟩, h.fits, ?_⟩
  · exact fun hmem => (h.chars colon hmem).2.2 rfl
  · rw [hstart]
    exact ⟨_, _, scanInt_decimalInt port.toInt⟩

/-- It is one word. -/
theorem Typable.isWord (h : Typable ip port) : IsWord (addressText ip port) := by
  rw [addressText_eq]
  refine ⟨List.append_ne_nil_of_right_ne_nil ip (List.cons_ne_nil _ _), fun c hc => ?_⟩
  rw [List.mem_append, List.mem_cons] at hc
  rcases hc with hc | rfl | hc
  · exact ⟨(h.chars c hc).1, (h.chars c hc).2.1⟩
  · exact ⟨rfl, by decide⟩
  · rcases mem_decimalInt hc with rfl | hdigit
    · exact ⟨rfl, by decide⟩
    · rw [isDigit_iff] at hdigit
      refine ⟨?_, ?_⟩
      · rw [Bool.eq_false_iff]
        intro hs
        rw [isSpace_iff] at hs
        omega
      · rintro rfl
        exact absurd hdigit.1 (by decide)

theorem leadingNumber_decimalInt (z : Int) : leadingNumber (decimalInt z) = z := by
  have hstops := decimalInt_stops z []
  rw [List.append_nil] at hstops
  unfold leadingNumber
  rw [hstops.dropWhile, scanInt_decimalInt]

/-! ## The command -/

/-- The line that disconnects a peer. -/
def disconnectLine (peer : PeerInfo) : Str :=
  argumentLine "DISCONNECT" (addressText peer.ip peer.port)

/-- **What is listed is disconnected.** -/
theorem processCommand_disconnect (fuel : Nat) (env : Env) (locals : Locals) {s : Session}
    {peer : PeerInfo} {rest : Str} (h : Typable peer.ip peer.port)
    (hstdin : s.stdin = disconnectLine peer ++ rest) (hmem : peer.addr ∈ addrs s.net.peerList) :
    processCommand fuel env locals s
      = .ok ({ s with
          stdin := rest
          net := s.net.disconnect peer.ip peer.port }, bytes "Disconnected from peer\n") := by
  have hip := h.fits.ip
  have hport := h.fits.port
  have hlen : (bytes "DISCONNECT").length + (addressText peer.ip peer.port).length < MAX_BUFFER := by
    have hname : (bytes "DISCONNECT").length = 10 := by decide
    rw [addressText_eq, List.length_append, List.length_cons, hname]
    unfold MAX_IP at hip
    unfold MAX_PORT at hport
    unfold MAX_BUFFER
    omega
  obtain ⟨hword, hread⟩ := h.isWord.read_line (by decide) hlen hstdin
  have hselect : Command.disconnect.shortest <+: inputLine s.stdin :=
    List.IsPrefix.trans (by decide) (prefix_of_word hword)
  obtain ⟨input, hrun, hinput, hcommand⟩ :=
    @processCommand_selects s fuel env locals .disconnect (by simp) hselect
  obtain ⟨removed, hremoved⟩ := Option.ne_none_iff_exists'.mp fun hnone =>
    removePeer_eq_none_iff.mp hnone hmem
  rw [← hinput] at hword
  rw [hrun, hread, runCommand_disconnect hcommand, addressCommand_some hword, if_neg (by omega),
    onAddress_accepted h.accepted, leadingNumber_decimalInt, Int32.ofInt_toInt, disconnectFrom]
  simp only [hremoved]

end Typable

/-! ## Whole sessions -/

/-- The event is not a `CONNECT` without an argument. -/
def Session.GivesAddress (s : Session) : SessionEvent → Prop
  | .command _ _ _ _ => commandOf (inputLine s.stdin) = .connect →
      word "CONNECT" (inputLine s.stdin) ≠ none
  | _ => True

/-- The addresses that connections have added to the list, in order. -/
def connected (es : List SessionEvent) : List (Str × Int32) :=
  es.filterMap fun e => match e with
    | .finished peer (some _) => some peer.addr
    | _ => none

/-- Every address that is listed or may come to be can be typed. -/
structure Net.Typable (net : Net) : Prop where
  listed : ∀ ip port, (ip, port) ∈ addrs net.peerList → Btide.Typable ip port
  pending : ∀ ip port, (ip, port) ∈ addrs net.pending → Btide.Typable ip port

section Sessions

variable {env : Env} {stdin line out rest : Str} {ip : Str} {port : Int32} {net net' : Net}
  {es es' : List SessionEvent} {s t : Session} {order : List PeerInfo}

theorem Net.Typable.connect (h : net.Typable) (haddr : Btide.Typable ip port) (created : Bool) :
    (net.connect ip port created).Typable := by
  unfold Net.connect
  split
  · exact h
  · split
    · refine ⟨h.listed, fun ip' port' hmem => ?_⟩
      rw [addrs, List.map_append, List.mem_append] at hmem
      rcases hmem with hmem | hmem
      · exact h.pending ip' port' hmem
      · cases List.mem_singleton.mp hmem
        exact haddr
    · exact h

theorem Net.Typable.disconnect (h : net.Typable) (ip : Str) (port : Int32) :
    (net.disconnect ip port).Typable := by
  refine ⟨fun ip' port' hmem => ?_, h.pending⟩
  rw [Net.disconnect, addrs_removePeer] at hmem
  exact h.listed ip' port' (List.mem_of_mem_erase hmem)

theorem Net.Typable.finished (h : net.Typable) {peer : PeerInfo} {sockfd : Option Int}
    (hstep : net.step (.finished peer sockfd) = some net') : net'.Typable := by
  rw [Net.step] at hstep
  split at hstep
  · next hpeer =>
      cases hstep
      have hlater : ∀ ip port, (ip, port) ∈ addrs (net.pending.erase peer) → Btide.Typable ip port :=
        fun ip port hmem => h.pending ip port
          (List.map_subset _ (List.erase_subset (a := peer)) hmem)
      cases sockfd with
      | none => exact ⟨h.listed, hlater⟩
      | some fd =>
          refine ⟨fun ip port hmem => ?_, hlater⟩
          have hsplit : (ip, port) ∈ addrs (net.peerList ++ [{ peer with socketFd := some fd }]) := hmem
          rw [addrs, List.map_append, List.mem_append] at hsplit
          rcases hsplit with hold | hnew
          · exact h.listed ip port hold
          · refine h.pending ip port ?_
            have haddr : (ip, port) = peer.addr := List.mem_singleton.mp hnew
            rw [haddr]
            exact List.mem_map_of_mem hpeer
  · cases hstep

/-- A command keeps the addresses typable if it takes none from an array that nothing was read into. -/
theorem Tracker.Does.typable {t t' : Tracker} (h : t.Does env line t' out)
    (hline : line = cString line)
    (hgiven : commandOf line = .connect → word "CONNECT" line ≠ none) (hnet : t.net.Typable) :
    t'.net.Typable := by
  cases h with
  | quit _ => exact ⟨fun _ _ hmem => absurd hmem List.not_mem_nil, hnet.pending⟩
  | connect hc hgives =>
      obtain ⟨w, hw⟩ := Option.ne_none_iff_exists'.mp (hgiven hc)
      obtain ⟨text, hacc, rfl⟩ := hgives w hw
      rw [hline] at hw
      exact hnet.connect (typable_of_accepted hw hacc) _
  | disconnect _ _ => exact hnet.disconnect _ _
  | _ => exact hnet

/-- In the course of a session the addresses are typable. -/
theorem session_typable (h : Steps (Session.Step env) (.start stdin) es s)
    (hgiven : EachStep (Session.Step env) Session.GivesAddress (.start stdin) es) :
    s.net.Typable := by
  have hinv := hgiven.invariant (fun u => (∃ t, Shows u t) ∧ u.net.Typable) ?_ h
    ⟨⟨_, Shows.start stdin⟩, ⟨fun _ _ hmem => absurd hmem List.not_mem_nil,
      fun _ _ hmem => absurd hmem List.not_mem_nil⟩⟩
  · exact hinv.2
  · rintro u e v he ⟨⟨t, hshows⟩, hnet⟩ hstep
    obtain ⟨t', ht', hshows'⟩ := hshows.step hstep
    refine ⟨⟨t', hshows'⟩, ?_⟩
    obtain ⟨ps, _, rfl⟩ := hshows
    obtain ⟨qs, _, rfl⟩ := hshows'
    cases e with
    | command locals junk created out =>
        obtain ⟨_, _, hdoes⟩ := ht'
        have hline : inputLine u.stdin = cString (inputLine u.stdin) :=
          (cString_eq (zero_notMem_cString _)).symm
        exact hdoes.typable hline he hnet
    | finished peer sockfd =>
        obtain ⟨_, net, hnet', hview⟩ := ht'
        have hsame : v.net = net := congrArg Tracker.net hview
        rw [hsame]
        exact hnet.finished hnet'
    | changed files =>
        have hsame : v.net = u.net := congrArg Tracker.net ht'
        rwa [hsame]

/-- The peers `todo` are still to be disconnected; the connections that have succeeded since have been
    added behind them. -/
def Disconnecting (todo : List PeerInfo) (es : List SessionEvent) (u : Session) : Prop :=
  ∃ left, left.Perm (addrs todo) ∧ addrs u.net.peerList = left ++ connected es

theorem connected_append (es es' : List SessionEvent) :
    connected (es ++ es') = connected es ++ connected es' := List.filterMap_append

/-- The lines of the listed peers disconnect them one by one. -/
theorem disconnecting_feeds (htypable : ∀ peer ∈ order, Btide.Typable peer.ip peer.port) :
    Feeds env disconnectLine (bytes "Disconnected from peer\n")
      fun todo es u => todo ⊆ order ∧ Disconnecting todo es u where
  command := by
    rintro peer todo es rest u ⟨hsub, left, hperm, hlist⟩ hstdin hloop locals junk created
    rw [List.cons_subset] at hsub
    have hleft : peer.addr ∈ left := hperm.mem_iff.mpr List.mem_cons_self
    have hmem : peer.addr ∈ addrs u.net.peerList := by
      rw [hlist]
      exact List.mem_append_left _ hleft
    have hrun := fun fuel => processCommand_disconnect fuel (env.during junk created) locals
      (htypable peer hsub.1) hstdin hmem
    let u' : Session := { u with
      stdin := rest
      net := u.net.disconnect peer.ip peer.port }
    refine ⟨u', ⟨hloop, ?_⟩, rfl, hloop, hsub.2, left.erase peer.addr, ?_, ?_⟩
    · simp only [hrun]
      exact Settles.const _
    · have herase := hperm.erase peer.addr
      rwa [addrs, List.map_cons, ← addrs, List.erase_cons_head] at herase
    · have haddrs : addrs u'.net.peerList = (addrs u.net.peerList).erase peer.addr :=
        addrs_removePeer _ _ _
      rw [haddrs, hlist, List.erase_append_left _ hleft, connected_append]
      exact (congrArg (left.erase peer.addr ++ ·) (List.append_nil _)).symm
  finished := by
    rintro todo es u peer sockfd net ⟨hsub, left, hperm, hlist⟩ hnet
    refine ⟨hsub, left, hperm, ?_⟩
    rcases step_addrs hnet with ⟨_, _, _, he, _⟩ | ⟨_, he, hsame⟩ | ⟨_, _, he, hadd⟩ | ⟨_, _, he, _⟩
    · cases he
    · cases he
      rw [hsame, hlist, connected_append]
      exact (congrArg (left ++ ·) (List.append_nil _)).symm
    · cases he
      rw [hadd, hlist, connected_append, List.append_assoc]
      rfl
    · cases he
  changed := by
    rintro todo es u files ⟨hsub, left, hperm, hlist⟩
    refine ⟨hsub, left, hperm, hlist.trans ?_⟩
    rw [connected_append]
    exact (congrArg (left ++ ·) (List.append_nil _)).symm

/-- **What `PEERS` lists, `DISCONNECT` takes.** If the lines that disconnect the listed peers come next,
    in any order, then each of them is carried out and disconnects its peer, whichever client threads come
    to their end and whatever files are changed between two commands. Once they have been read, just the
    peers are listed whose connections have been established since. -/
theorem disconnect_listed (h : Steps (Session.Step env) (.start stdin) es s)
    (hgiven : EachStep (Session.Step env) Session.GivesAddress (.start stdin) es)
    (hloop : s.mainLoop = true) (horder : order.Perm s.net.peerList)
    (hstdin : s.stdin = order.flatMap disconnectLine ++ rest)
    (h' : Steps (Session.Step env) s es' t) (hcount : commands es' ≤ order.length) :
    (∀ locals junk created out, .command locals junk created out ∈ es' →
        out = bytes "Disconnected from peer\n") ∧
      (commands es' < order.length → ∀ locals junk created, ∃ t',
        t.Step env (.command locals junk created (bytes "Disconnected from peer\n")) t') ∧
      ∃ left, left.Perm (addrs (order.drop (commands es'))) ∧
        addrs t.net.peerList = left ++ connected es' ∧
        t.stdin = (order.drop (commands es')).flatMap disconnectLine ++ rest := by
  have hnet := session_typable h hgiven
  have htypable : ∀ peer ∈ order, Btide.Typable peer.ip peer.port := fun peer hpeer =>
    hnet.listed peer.ip peer.port (List.mem_map_of_mem (horder.mem_iff.mp hpeer))
  have hfeeds := @disconnecting_feeds env order htypable
  have hstart : Disconnecting order [] s :=
    ⟨_, (horder.map PeerInfo.addr).symm, (List.append_nil _).symm⟩
  have hreached := hfeeds.run ⟨List.Subset.refl _, hstart⟩ hloop hstdin h' hcount
  obtain ⟨_, left, hperm, hlist⟩ := hreached.inv
  exact ⟨hreached.printed, hfeeds.progress hreached, left, hperm, hlist, hreached.stdin⟩

end Sessions

/-- A port with a sign and a zero in front. -/
theorem disconnect_listed_plus :
    ∃ s t : Session, s.net.peerList = [⟨bytes "127.0.0.1", 80, some 5⟩] ∧
      s.Step (.plain (bytes "packages"))
        (.command (.fill 0) default true (bytes "Disconnected from peer\n")) t := by
  let env := Env.plain (bytes "packages")
  let s₀ := Session.start (bytes "CONNECT 127.0.0.1:+080\nDISCONNECT 127.0.0.1:80\n")
  let peer : PeerInfo := ⟨bytes "127.0.0.1", 80, none⟩
  let s₁ : Session := { s₀.read with net := s₀.net.connect peer.ip peer.port true }
  let s₂ : Session := { s₁ with net := s₁.net.finished peer (some 5) }
  have hword : word "CONNECT" (inputLine s₀.stdin) = some (bytes "127.0.0.1:+080") := by decide
  have hacc : Accepted (bytes "127.0.0.1:+080") (bytes "127.0.0.1") (bytes "+080") :=
    ⟨by decide, by decide, 80, [], by decide⟩
  have hport : Int32.ofInt (leadingNumber (bytes "+080")) = 80 := by decide
  have hconnect : s₀.Step env (.command (.fill 0) default true []) s₁ := by
    refine ⟨rfl, ?_⟩
    simp only [processCommand_connect _ (env.during default true) _ hword hacc, hport]
    rw [connectTo_new (by decide) (by decide)]
    exact Settles.const _
  have hfinished : s₁.Step env (.finished peer (some 5)) s₂ := ⟨rfl, _, by decide, rfl⟩
  have hrun : Steps (Session.Step env) s₀
      [.command (.fill 0) default true [], .finished peer (some 5)] s₂ :=
    (Steps.single_iff.mpr hconnect).append (Steps.single_iff.mpr hfinished)
  have hgiven : EachStep (Session.Step env) Session.GivesAddress s₀
      [.command (.fill 0) default true [], .finished peer (some 5)] := by
    refine EachStep.cons (fun _ => ?_) fun _ _ => EachStep.cons trivial fun _ _ => EachStep.nil
    rw [hword]
    exact Option.some_ne_none _
  have hstdin : s₂.stdin = s₂.net.peerList.flatMap disconnectLine ++ [] := by decide
  obtain ⟨_, hnext, _⟩ := disconnect_listed hrun hgiven rfl (List.Perm.refl s₂.net.peerList) hstdin
    Steps.nil (Nat.zero_le _)
  obtain ⟨t, ht⟩ := hnext (by decide) (.fill 0) default true
  exact ⟨s₂, t, by decide, ht⟩

end Btide
