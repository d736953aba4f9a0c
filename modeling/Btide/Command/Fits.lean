import Btide.Chk.FieldSizes
import Btide.Command.Contained
import Btide.Tree.Overflow

/-!
# `Command.Fits` — what one line copies

A line of up to 5519 characters goes through scans without a width into arrays of 256 and 1025
characters, and what is scanned is copied on: an address into 40 and 10 characters, a name into a path of
256. The sizes that `add_package` passes to `snprintf` are about twice those of the arrays. The package file
gives one more string, the name of the data file, which is read by the loader.

So each of these copies needs a bound that nobody checks. `processCommand_fits_iff` collects them: all that
a command copies fits exactly if the argument, the parts of an address, the path of the package file, what
the loader reads and the path of the data file are short enough. A command that reads an array past its end
on the way, or whose loader comes to a number that is no `int`, is not counted as one that copies well.
-/

namespace Btide

open Run

/-! ## The bounds -/

/-- `CONNECT` and `DISCONNECT` stay within the array `ipport`, whatever is in it: it begins with a colon, or
    it is terminated and the parts of its text fit. -/
def ArrayFits (ipport : Str) : Prop :=
  ipport.head? = some colon ∨
    (0 ∈ ipport ∧ ∀ ip port, splitAddress (cString ipport) = some (ip, port) → PartsFit ip port)

/-- The address that a line with the command `name` uses; without an argument the array is used as it is. -/
def AddressShort (name : String) (locals : Locals) (line : Str) : Prop :=
  match word name line with
  | some w =>
    w.length < MAX_BUFFER ∧ ∀ ip port, splitAddress w = some (ip, port) → PartsFit ip port
  | none => ArrayFits locals.ipport.chars

/-- The loader keeps within its arrays, and the path of the data file fits `pathtodata` and
    `obj->filename`. -/
structure LoadFits (env : Env) (contents : Str) : Prop where
  loader : FieldsFit env.junk (linesOf bufferSize contents)
  datapath : ∀ obj, bpkgLoad env.junk (some contents) = .ok obj →
    (directory env.directory ++ obj.filename).length < MAX_BUFFER

/-- The argument of `ADDPACKAGE` is short enough, and so are the paths and the package file if a name is
    left of it. -/
def PackageShort (env : Env) (s : Session) (line : Str) : Prop :=
  ∀ w, word "ADDPACKAGE" line = some w → w.length < MAX_BUFFER ∧
    (kept none w ≠ [] → PathsFit env.directory (kept none w) ∧
      ∀ contents, s.managed.files.text (directory env.directory ++ kept none w) = some contents →
        LoadFits env contents)

/-- Everything that the line makes `process_command`, `validIP`, `extract_file`, `add_package` and the
    loader copy is short enough. -/
def CopiesShort (env : Env) (locals : Locals) (s : Session) : Prop :=
  match commandOf (inputLine s.stdin) with
  | .addPackage => PackageShort env s (inputLine s.stdin)
  | .remPackage => ∀ w, word "REMPACKAGE" (inputLine s.stdin) = some w → w.length < identifierSize
  | .connect => AddressShort "CONNECT" locals (inputLine s.stdin)
  | .disconnect => AddressShort "DISCONNECT" locals (inputLine s.stdin)
  | .quit | .peers | .packages | .invalid => True

/-- The command copies all of its strings, and none past the end of an array. -/
structure CopiesFit (env : Env) (locals : Locals) (s : Session) : Prop where
  stores : ∀ fuel, NoOverflow (processCommand fuel env locals s)
  /-- No array is read outside of its bounds before the last copy. For `ADDPACKAGE` these are the reads that
      are made if no package file can be opened; the other commands read none. -/
  reads : commandOf (inputLine s.stdin) ∈ [.addPackage, .connect, .disconnect] → ∀ fuel,
    (processCommand fuel env locals (s.withText fun _ => none)).Avoids .outOfBounds
  /-- Nor does the loader, if a package file can be opened, come to anything that has no meaning. -/
  loader : ∀ w contents, word "ADDPACKAGE" (inputLine s.stdin) = some w → kept none w ≠ [] →
    s.managed.files.text (directory env.directory ++ kept none w) = some contents →
    (bpkgLoad env.junk (some contents)).Orderly

/-! ## The address -/

section Address

variable {locals : AddressBuffers} {ipport w ip port : Str}

theorem strchr_unterminated {c : UInt8} (hzero : 0 ∉ ipport) (hc : c ∉ ipport) :
    strchr ipport c = .error .outOfBounds := by
  induction ipport with
  | nil => rfl
  | cons d chars ih =>
      rw [List.mem_cons, not_or] at hzero hc
      rw [strchr, if_neg (Ne.symm hc.1), if_neg (Ne.symm hzero.1), ih hzero.2 hc.2]
      rfl

/-- The two ways to leave an array. -/
def Abort.Outside (e : Abort) : Prop := e = .bufferOverflow ∨ e = .outOfBounds

/-- What stands behind the colon of an array without a NUL is copied past its end. -/
theorem validIP_unterminated (hzero : 0 ∉ ipport) (hhead : ipport.head? ≠ some colon) :
    ∃ e : Abort, e.Outside ∧ ∀ locals, validIP locals ipport = .error e := by
  by_cases hmem : colon ∈ ipport
  · obtain ⟨ip, rest, rfl, hcolon⟩ := List.eq_append_cons_of_mem hmem
    rw [List.mem_append, List.mem_cons, not_or, not_or] at hzero
    obtain ⟨hip, _, hrest⟩ := hzero
    have hpos : ip.length ≠ 0 := by
      intro hlen
      obtain rfl := List.length_eq_zero_iff.mp hlen
      exact hhead rfl
    have hdrop : (ip ++ colon :: rest).drop (ip.length + 1) = rest := by
      rw [← List.drop_drop, List.drop_left]
      rfl
    cases rest with
    | nil =>
        refine ⟨.outOfBounds, Or.inr rfl, fun locals => ?_⟩
        have hnext : (ip ++ [colon])[ip.length + 1]? = none := List.getElem?_eq_none (by simp)
        unfold validIP
        rw [strchr_found hip hcolon, ok_bind]
        simp only [if_neg hpos, index, hnext, error_bind]
    | cons c rest =>
        have hnext : (ip ++ colon :: c :: rest)[ip.length + 1]? = some c := by
          rw [List.getElem?_append_right (by omega), Nat.add_sub_cancel_left]
          rfl
        have hc : c ≠ 0 := fun he => hrest (he ▸ List.mem_cons_self)
        by_cases hlen : ip.length < MAX_IP
        · refine ⟨if MAX_PORT < (c :: rest).length then .bufferOverflow else .outOfBounds, ?_, ?_⟩
          · split
            · exact Or.inl rfl
            · exact Or.inr rfl
          · intro locals
            obtain ⟨b, hb, _⟩ := locals.ip.put_ok hlen
            unfold validIP
            rw [strchr_found hip hcolon, ok_bind]
            simp only [if_neg hpos, index_ok hnext, ok_bind, if_neg hc, List.take_left, hdrop, hb,
              Buffer.strcpy, if_neg hrest]
            split <;> rfl
        · refine ⟨.bufferOverflow, Or.inl rfl, fun locals => ?_⟩
          unfold validIP
          rw [strchr_found hip hcolon, ok_bind]
          simp only [if_neg hpos, index_ok hnext, ok_bind, if_neg hc, List.take_left,
            Buffer.put_overflow locals.ip (Nat.le_of_not_lt hlen), error_bind]
  · refine ⟨.outOfBounds, Or.inr rfl, fun locals => ?_⟩
    unfold validIP
    rw [strchr_unterminated hzero hmem, error_bind]

/-- **`validIP` leaves its arrays** just when the parts are too long, on any array. -/
theorem validIP_cases (ipport : Str) :
    (ArrayFits ipport ∧ ∀ locals, ∃ v, validIP locals ipport = .ok v ∧
      (v = 0 ∨ 0 ∈ ipport ∧ ∃ ip port, Accepted (cString ipport) ip port)) ∨
    (¬ ArrayFits ipport ∧ ∃ e : Abort, e.Outside ∧ ∀ locals, validIP locals ipport = .error e) := by
  by_cases hhead : ipport.head? = some colon
  · refine Or.inl ⟨Or.inl hhead, fun locals => ⟨0, ?_, Or.inl rfl⟩⟩
    obtain ⟨rest, rfl⟩ := List.head?_eq_some_iff.mp hhead
    have hfound := @strchr_found colon [] List.not_mem_nil List.not_mem_nil rest
    unfold validIP
    rw [List.nil_append] at hfound
    rw [hfound, ok_bind]
    rfl
  · by_cases hzero : 0 ∈ ipport
    · by_cases hfits : ∀ ip port, splitAddress (cString ipport) = some (ip, port) → PartsFit ip port
      · refine Or.inl ⟨Or.inr ⟨hzero, hfits⟩, fun locals => ?_⟩
        obtain ⟨v, hv⟩ : ∃ v, checkAddress (cString ipport) = .ok v := by
          unfold checkAddress
          cases hsplit : splitAddress (cString ipport) with
          | none => exact ⟨0, rfl⟩
          | some parts => exact ⟨_, if_pos (hfits parts.1 parts.2 hsplit)⟩
        refine ⟨v, by rw [validIP_text hzero, hv], ?_⟩
        rcases checkAddress_eq_ok hv with rfl | rfl
        · exact Or.inl rfl
        · exact Or.inr ⟨hzero, checkAddress_eq_one.mp hv⟩
      · refine Or.inr ⟨fun h => ?_, .bufferOverflow, Or.inl rfl, fun locals => ?_⟩
        · rcases h with h | ⟨_, h⟩
          · exact hhead h
          · exact hfits h
        · simp only [not_forall] at hfits
          obtain ⟨ip, port, hsplit, hlong⟩ := hfits
          rw [validIP_text hzero]
          unfold checkAddress
          simp only [hsplit, if_neg hlong]
    · refine Or.inr ⟨fun h => ?_, validIP_unterminated hzero hhead⟩
      rcases h with h | ⟨h, _⟩
      · exact hhead h
      · exact hzero h

end Address

section Use

variable {locals : Locals} {input : Str} {s : Session} {name : String} {e : Abort}
  {use : Str → Int32 → Run (Session × Str)}

/-- The array is left before the address is used. -/
theorem addressCommand_long (h : ¬ AddressShort name locals (cString input)) :
    ∃ e : Abort, e.Outside ∧ ∀ s use, addressCommand locals input s name use = .error e := by
  unfold AddressShort at h
  cases hw : word name (cString input) with
  | none =>
      rw [hw] at h
      rcases validIP_cases locals.ipport.chars with ⟨hfits, _⟩ | ⟨_, e, he, hvalid⟩
      · exact absurd hfits h
      · refine ⟨e, he, fun s use => ?_⟩
        rw [addressCommand_none hw]
        unfold withAddress
        rw [hvalid, error_bind]
  | some w =>
      rw [hw] at h
      refine ⟨.bufferOverflow, Or.inl rfl, fun s use => ?_⟩
      rw [addressCommand_some hw]
      split
      · rfl
      · next hlen =>
          rcases onAddress_cases w s use with ⟨ip, port, hacc, _⟩ | ⟨_, hfits, _⟩ | ⟨_, heq⟩
          · refine absurd ⟨by omega, fun ip' port' hsplit => ?_⟩ h
            rw [hacc.split] at hsplit
            cases hsplit
            exact hacc.fits
          · exact absurd ⟨by omega, hfits⟩ h
          · exact heq

/-- If all copies fit, only the use of the address may leave an array. -/
theorem addressCommand_short (h : AddressShort name locals (cString input))
    (huse : ∀ ip port, ip.length < MAX_IP → (use ip port).Avoids e) :
    (addressCommand locals input s name use).Avoids e := by
  unfold AddressShort at h
  cases hw : word name (cString input) with
  | none =>
      rw [hw] at h
      rw [addressCommand_none hw]
      rcases validIP_cases locals.ipport.chars with ⟨_, hvalid⟩ | ⟨hnot, _⟩
      · obtain ⟨v, hv, hzero | ⟨hterm, ip, port, hacc⟩⟩ := hvalid locals.validIP
        · unfold withAddress
          rw [hv, ok_bind, if_pos hzero]
          exact Avoids.ok _
        · rw [withAddress_text hterm, onAddress_accepted hacc]
          exact huse _ _ hacc.fits.ip
      · exact absurd h hnot
  | some w =>
      rw [hw] at h
      rw [addressCommand_some hw, if_neg (by omega)]
      rcases onAddress_cases w s use with ⟨ip, port, hacc, heq⟩ | ⟨_, _, heq⟩ | ⟨⟨ip, port, hsplit, hlong⟩, _⟩
      · rw [heq]
        exact huse _ _ hacc.fits.ip
      · rw [heq]
        exact Avoids.ok _
      · exact absurd (h.2 ip port hsplit) hlong

theorem connectTo_avoids (he : e.Outside) (env : Env) (s : Session) (ip : Str) (port : Int32)
    (h : ip.length < MAX_IP) : (connectTo env s ip port).Avoids e := by
  unfold connectTo
  split
  · exact Avoids.ok _
  · rw [storeStr_ok h, ok_bind]
    split
    · exact Avoids.ok _
    · rcases he with rfl | rfl
      · exact Avoids.error (by simp)
      · exact Avoids.error (by simp)

end Use

/-! ## Packages -/

section Packages

variable {fuel pageSize : Nat} {junk : Junk} {dir path file : Str} {obj : BpkgObj} {m : Managed}

theorem storeStr_eq_overflow {capacity : Nat} {w : Str} :
    storeStr capacity w = .error .bufferOverflow ↔ capacity ≤ w.length := by
  unfold storeStr
  split
  · next h => exact iff_of_false (Avoids.ok w) (by omega)
  · next h => exact iff_of_true rfl (by omega)

/-- The path of the data file is copied twice, and nothing after it overflows. -/
theorem addLoaded_eq_overflow : addLoaded fuel pageSize dir obj m = .error .bufferOverflow ↔
    MAX_BUFFER ≤ (dir ++ obj.filename).length := by
  unfold addLoaded
  by_cases h : (dir ++ obj.filename).length < MAX_BUFFER
  · refine iff_of_false ?_ (by omega)
    have hfilename : storeStr (MAX_FILENAME + 1) (dir ++ obj.filename) = .ok (dir ++ obj.filename) :=
      storeStr_ok (Nat.lt_succ_of_lt h)
    rw [storeStr_ok h, ok_bind, hfilename, ok_bind]
    refine (buildTree_noOverflow _ fuel _ ?_).bind fun r _ => Avoids.ok _
    refine (hashChunk_noOverflow _ _ _).bind fun r _ => ?_
    split
    · exact Avoids.ok _
    · exact Avoids.ok _
  · rw [storeStr_eq_overflow.mpr (by omega), error_bind]
    exact iff_of_true rfl (by omega)

/-- The byte before an empty directory is read. -/
theorem addPackage_empty :
    addPackage fuel pageSize junk [] file m = .error .outOfBounds := rfl

/-- A path that is too long is stored. -/
theorem addPackage_long (hne : path ≠ []) (h : ¬ PathsFit path file) :
    addPackage fuel pageSize junk path file m = .error .bufferOverflow := by
  unfold addPackage
  by_cases hlen : path.length + 1 < MAX_BUFFER
  · have hfile : MAX_BUFFER ≤ (directory path ++ file).length := by
      by_contra hlt
      exact h ⟨hne, hlen, by omega⟩
    rw [directoryOf_eq_ok.mpr ⟨hne, hlen, rfl⟩, ok_bind, storeStr_eq_overflow.mpr hfile, error_bind]
  · have hdir : directoryOf path = .error .bufferOverflow := by
      unfold directoryOf
      by_cases hpath : path.length < MAX_BUFFER
      · have hslash : MAX_BUFFER ≤ (ensureTrailingSlash path).length := by
          rw [ensureTrailingSlash, List.length_append, List.length_singleton]
          omega
        rw [storeStr_ok hpath, ok_bind, storeStr_eq_overflow.mpr hslash, error_bind]
      · rw [storeStr_eq_overflow.mpr (by omega), error_bind]
    rw [hdir, error_bind]

/-- With paths that fit, the overflow is one of the loader or of the path of the data file. -/
theorem addPackage_noOverflow_iff (hfit : PathsFit path file) :
    NoOverflow (addPackage fuel pageSize junk path file m) ↔
      ∀ contents, m.files.text (directory path ++ file) = some contents →
        NoOverflow (bpkgLoad junk (some contents)) ∧ ∀ obj, bpkgLoad junk (some contents) = .ok obj →
          (directory path ++ obj.filename).length < MAX_BUFFER := by
  rw [addPackage_steps hfit]
  cases m.files.text (directory path ++ file) with
  | none =>
      refine iff_of_true (Avoids.ok _) ?_
      rintro contents ⟨⟩
  | some contents =>
      simp only [Option.some.injEq, forall_eq']
      cases hload : bpkgLoad junk (some contents) with
      | error e => simp [NoOverflow, Avoids]
      | ok obj =>
          have hover : NoOverflow (addLoaded fuel pageSize (directory path) obj m >>= fun s =>
              (.ok (s, none) : Run (Managed × Option Str))) ↔
              (directory path ++ obj.filename).length < MAX_BUFFER := by
            rw [NoOverflow, Avoids, ne_eq, bind_eq_error, addLoaded_eq_overflow]
            simp
          rw [ok_bind, hover]
          constructor
          · rintro hlt
            refine ⟨Avoids.ok obj, ?_⟩
            rintro obj' ⟨⟩
            exact hlt
          · intro h
            exact h.2 obj rfl

theorem removePackage_noOverflow (fuel : Nat) (m : Managed) (identifier : Str) :
    NoOverflow (m.removePackage fuel identifier) := by
  unfold Managed.removePackage
  simp only
  split
  · exact (freeTree_noOverflow fuel _ _).bind fun r _ => Avoids.ok _
  · exact Avoids.ok _

theorem freePackage_noOverflow (fuel : Nat) (mem : Mem) (list : List BpkgObj) :
    NoOverflow (freePackage fuel mem list) := by
  induction list generalizing mem with
  | nil => exact Avoids.ok _
  | cons current list ih => exact (freeTree_noOverflow fuel mem _).bind fun r _ => ih r.mem

theorem isComplete_noOverflow (fuel : Nat) (mem : Mem) (obj : BpkgObj) :
    NoOverflow (isComplete fuel mem obj) := by
  refine (bpkgGetMinCompletedHashes_noOverflow fuel mem obj).bind fun query _ => ?_
  split
  · exact Avoids.ok _
  · exact Avoids.ok _

theorem printPackages_noOverflow (fuel : Nat) (mem : Mem) (counter : Int) (list : List BpkgObj) :
    NoOverflow (printPackages fuel mem counter list) := by
  induction list generalizing counter with
  | nil => exact Avoids.ok _
  | cons obj list ih =>
      refine (isComplete_noOverflow fuel mem obj).bind fun complete _ => ?_
      exact (cInt_noOverflow _).bind fun counter _ => (ih counter).bind fun lines _ => Avoids.ok _

theorem printPeers_noOverflow (counter : Int) (list : List PeerInfo) :
    NoOverflow (printPeers counter list) := by
  induction list generalizing counter with
  | nil => exact Avoids.ok _
  | cons peer list ih =>
      exact (cInt_noOverflow _).bind fun counter _ => (ih counter).bind fun lines _ => Avoids.ok _

end Packages

/-! ## The command -/

section Branches

variable {env : Env} {locals : Locals} {s : Session} {w : Str}

theorem commandOf_add {line : Str} (h : word "ADDPACKAGE" line = some w) :
    commandOf line = .addPackage := (commandOf_eq_iff (by simp)).mpr (prefix_of_word h)

/-- A command that copies no more than its line. -/
theorem copiesFit_of_noOverflow (hadd : word "ADDPACKAGE" (inputLine s.stdin) = none)
    (hc : commandOf (inputLine s.stdin) ∉ [.addPackage, .connect, .disconnect]) :
    CopiesFit env locals s ↔ ∀ fuel, NoOverflow (processCommand fuel env locals s) := by
  constructor
  · intro h
    exact h.stores
  · intro h
    refine ⟨h, fun hmem => absurd hmem hc, fun w contents hw => ?_⟩
    rw [hadd] at hw
    cases hw

/-- `CONNECT` and `DISCONNECT`. -/
theorem copiesFit_address {c : Command} {name : String}
    {use : Env → Session → Str → Int32 → Run (Session × Str)} (h : s.stdin ≠ [])
    (hc : commandOf (inputLine s.stdin) = c) (hcopies : c = .connect ∨ c = .disconnect)
    (hbranch : ∀ fuel input t, commandOf (cString input) = c →
      runCommand fuel env locals input t = addressCommand locals input t name (use env t))
    (huse : ∀ e : Abort, e.Outside → ∀ t ip port, ip.length < MAX_IP → (use env t ip port).Avoids e) :
    CopiesFit env locals s ↔ AddressShort name locals (inputLine s.stdin) := by
  obtain ⟨input, hinput, hrun⟩ : ∃ input, cString input = inputLine s.stdin ∧
      ∀ fuel text, processCommand fuel env locals (s.withText text)
        = addressCommand locals input (s.read.withText text) name (use env (s.read.withText text)) := by
    obtain ⟨b, hb, _, hstr⟩ := locals.input.fgets_ok (by decide) h
    refine ⟨b.chars, hstr, fun fuel text => ?_⟩
    unfold processCommand
    rw [show (s.withText text).stdin = s.stdin from rfl, hb, ok_bind]
    exact hbranch fuel b.chars _ (by rw [hstr]; exact hc)
  have hself : s.withText s.managed.files.text = s := rfl
  rw [← hinput]
  constructor
  · intro hfit
    by_contra hlong
    obtain ⟨e, he, herror⟩ := addressCommand_long hlong
    rcases he with rfl | rfl
    · refine hfit.stores 0 ?_
      rw [← hself, hrun, herror]
    · refine hfit.reads ?_ 0 ?_
      · rw [hc]
        rcases hcopies with rfl | rfl <;> simp
      · rw [hrun, herror]
  · intro hshort
    have havoids : ∀ (e : Abort), e.Outside → ∀ fuel text,
        (processCommand fuel env locals (s.withText text)).Avoids e := by
      intro e he fuel text
      rw [hrun]
      exact addressCommand_short hshort (huse e he _)
    refine ⟨fun fuel => ?_, fun _ fuel => havoids _ (Or.inr rfl) fuel _, fun w contents hw => ?_⟩
    · rw [← hself]
      exact havoids _ (Or.inl rfl) fuel _
    · rw [commandOf_add hw] at hc
      rcases hcopies with rfl | rfl <;> cases hc

/-- An argument of `ADDPACKAGE` that is too long. -/
theorem processCommand_add_long (fuel : Nat) (hw : word "ADDPACKAGE" (inputLine s.stdin) = some w)
    (hlong : MAX_BUFFER ≤ w.length) : processCommand fuel env locals s = .error .bufferOverflow := by
  obtain ⟨input, hrun, hline, hcommand⟩ :=
    @processCommand_selects s fuel env locals .addPackage (by simp) (prefix_of_word hw)
  rw [hrun]
  unfold runCommand
  simp only [hcommand]
  rw [addCommand_some (hline ▸ hw), if_pos hlong]

/-- One that is not, with a name left of it. -/
theorem processCommand_add_avoids (fuel : Nat) {e : Abort}
    (hw : word "ADDPACKAGE" (inputLine s.stdin) = some w) (hlen : w.length < MAX_BUFFER)
    (hname : kept none w ≠ []) : (processCommand fuel env locals s).Avoids e ↔
      (addPackage fuel env.pageSize env.junk env.directory (kept none w) s.managed).Avoids e := by
  rw [processCommand_add fuel env locals hw hlen, if_neg hname, Avoids, Avoids, ne_eq, bind_eq_error]
  simp

/-- `ADDPACKAGE` with an argument. -/
theorem copiesFit_add (hw : word "ADDPACKAGE" (inputLine s.stdin) = some w) :
    CopiesFit env locals s ↔ w.length < MAX_BUFFER ∧
      (kept none w ≠ [] → PathsFit env.directory (kept none w) ∧
        ∀ contents, s.managed.files.text (directory env.directory ++ kept none w) = some contents →
          LoadFits env contents) := by
  have hmem : commandOf (inputLine s.stdin) ∈ [.addPackage, .connect, .disconnect] := by
    rw [commandOf_add hw]
    exact List.mem_cons_self
  have hload : ∀ contents, (bpkgLoad env.junk (some contents)).Orderly ↔
      FieldsFit env.junk (linesOf bufferSize contents) := by
    intro contents
    rw [bpkgLoad_eq]
    exact loadLines_orderly_iff fun line hline => (length_of_mem_linesOf hline).trans (by decide)
  -- the same line, with no package file to begin with
  have hwnone : word "ADDPACKAGE" (inputLine (s.withText fun _ => none).stdin) = some w := hw
  constructor
  · intro hfit
    have hlen : w.length < MAX_BUFFER := by
      by_contra hlong
      exact hfit.stores 0 (processCommand_add_long 0 hw (Nat.le_of_not_lt hlong))
    refine ⟨hlen, fun hname => ?_⟩
    have hstores := (processCommand_add_avoids 0 hw hlen hname).mp (hfit.stores 0)
    have hreads := (processCommand_add_avoids 0 hwnone hlen hname).mp (hfit.reads hmem 0)
    have hpaths : PathsFit env.directory (kept none w) := by
      by_cases hempty : env.directory = []
      · rw [hempty] at hreads
        exact absurd addPackage_empty hreads
      · by_contra hlong
        exact hstores (addPackage_long hempty hlong)
    refine ⟨hpaths, fun contents htext => ?_⟩
    obtain ⟨_, hdatapath⟩ := (addPackage_noOverflow_iff hpaths).mp hstores contents htext
    exact ⟨(hload contents).mp (hfit.loader w contents hw hname htext), hdatapath⟩
  · rintro ⟨hlen, hshort⟩
    by_cases hname : kept none w = []
    · have hnothing : ∀ (e : Abort) fuel (t : Session), t.stdin = s.stdin →
          (processCommand fuel env locals t).Avoids e := by
        intro e fuel t ht
        rw [processCommand_add fuel env locals (ht ▸ hw) hlen, if_pos hname]
        exact Avoids.ok _
      refine ⟨fun fuel => hnothing _ fuel s rfl, fun _ fuel => hnothing _ fuel _ rfl, ?_⟩
      intro w' contents hw' hname'
      rw [hw] at hw'
      cases hw'
      exact absurd hname hname'
    · obtain ⟨hpaths, hfiles⟩ := hshort hname
      refine ⟨fun fuel => ?_, fun _ fuel => ?_, fun w' contents hw' _ htext => ?_⟩
      · rw [NoOverflow, processCommand_add_avoids fuel hw hlen hname]
        refine (addPackage_noOverflow_iff hpaths).mpr fun contents htext => ?_
        obtain ⟨hfields, hdatapath⟩ := hfiles contents htext
        exact ⟨((hload contents).mpr hfields).avoids (by simp), hdatapath⟩
      · rw [processCommand_add_avoids fuel hwnone hlen hname, addPackage_steps hpaths]
        exact Avoids.ok _
      · rw [hw] at hw'
        cases hw'
        exact (hload contents).mpr (hfiles contents htext).loader

/-- `ADDPACKAGE` without an argument copies nothing. -/
theorem copiesFit_add_none (hc : commandOf (inputLine s.stdin) = .addPackage)
    (hw : word "ADDPACKAGE" (inputLine s.stdin) = none) : CopiesFit env locals s := by
  have hprefix : Command.addPackage.shortest <+: inputLine s.stdin :=
    (commandOf_eq_iff (by simp)).mp hc
  have hnothing : ∀ (e : Abort) fuel (t : Session), t.stdin = s.stdin →
      (processCommand fuel env locals t).Avoids e := by
    intro e fuel t ht
    obtain ⟨input, hrun, hline, hcommand⟩ :=
      @processCommand_selects t fuel env locals .addPackage (by simp) (ht ▸ hprefix)
    rw [hrun]
    unfold runCommand
    simp only [hcommand]
    rw [addCommand_none (hline ▸ ht ▸ hw)]
    exact Avoids.ok _
  refine ⟨fun fuel => hnothing _ fuel s rfl, fun _ fuel => hnothing _ fuel _ rfl, fun w contents hsome => ?_⟩
  rw [hw] at hsome
  cases hsome

/-- `REMPACKAGE`. -/
theorem remCommand_noOverflow_iff {fuel : Nat} {input : Str} :
    NoOverflow (remCommand fuel locals input s) ↔
      ∀ w, word "REMPACKAGE" (cString input) = some w → w.length < identifierSize := by
  cases hw : word "REMPACKAGE" (cString input) with
  | none =>
      rw [remCommand_none hw]
      refine iff_of_true (Avoids.ok _) ?_
      rintro w ⟨⟩
  | some w =>
      rw [remCommand_some hw]
      simp only [Option.some.injEq, forall_eq']
      split
      · next hlong => exact iff_of_false (fun h => h rfl) (by omega)
      · next hshort =>
          refine iff_of_true ?_ (by omega)
          exact (removePackage_noOverflow fuel _ w).bind fun r _ => Avoids.ok _

/-- The other commands copy nothing. -/
theorem runCommand_noOverflow (fuel : Nat) (input : Str)
    (hc : commandOf (cString input) ∈ [.quit, .peers, .packages, .invalid]) :
    NoOverflow (runCommand fuel env locals input s) := by
  unfold runCommand
  cases hcommand : commandOf (cString input) with
  | quit => exact (freePackage_noOverflow fuel _ _).bind fun mem _ => Avoids.ok _
  | peers =>
      simp only
      unfold peersCommand
      split
      · exact Avoids.ok _
      · exact ((printPeers_noOverflow 1 _).bind fun lines _ => Avoids.ok _).bind fun text _ => Avoids.ok _
  | packages =>
      refine Avoids.bind ?_ fun text _ => Avoids.ok _
      unfold printPackage
      split
      · exact Avoids.ok _
      · exact printPackages_noOverflow fuel _ 1 _
  | invalid => exact Avoids.ok _
  | _ =>
      rw [hcommand] at hc
      simp at hc

end Branches

/-- **When everything that a command copies fits.** For every line, configured directory, package file and
    earlier contents of the arrays, the strings that `process_command`, `validIP`, `extract_file`,
    `add_package` and the loader copy fit where they are copied to if and only if: the argument of
    `ADDPACKAGE` has fewer than 256 characters, and if a name is left of it, so have the directory with its
    slash, which is not empty, the path of the package file, and if there is such a file, what the loader
    reads fits and the path of the data file has fewer than 256 characters; the argument of `REMPACKAGE` has
    fewer than 1025; and that of `CONNECT` or `DISCONNECT` has fewer than 256, of which fewer than 40 are
    before the colon and fewer than 10 behind it, where without an argument the array that is left is
    split. -/
theorem processCommand_fits_iff (env : Env) (locals : Locals) (s : Session) :
    CopiesFit env locals s ↔ CopiesShort env locals s := by
  have hnone : commandOf (inputLine s.stdin) ≠ .addPackage →
      word "ADDPACKAGE" (inputLine s.stdin) = none := by
    intro hne
    by_contra hsome
    obtain ⟨w, hw⟩ := Option.ne_none_iff_exists'.mp hsome
    exact hne (commandOf_add hw)
  by_cases hstdin : s.stdin = []
  · have hline : inputLine s.stdin = [] := by
      rw [hstdin]
      rfl
    rw [copiesFit_of_noOverflow (by rw [hline]; rfl) (by rw [hline]; decide)]
    refine iff_of_true (fun fuel => ?_) ?_
    · rw [processCommand_eof hstdin]
      exact Avoids.error (by simp)
    · unfold CopiesShort
      rw [hline]
      trivial
  · unfold CopiesShort
    cases hc : commandOf (inputLine s.stdin) with
    | addPackage =>
        simp only
        unfold PackageShort
        cases hw : word "ADDPACKAGE" (inputLine s.stdin) with
        | none =>
            apply iff_of_true (copiesFit_add_none hc hw)
            rintro w ⟨⟩
        | some w =>
            rw [copiesFit_add hw]
            simp only [Option.some.injEq, forall_eq']
    | remPackage =>
        have hrem : ∀ fuel, NoOverflow (processCommand fuel env locals s) ↔
            ∀ w, word "REMPACKAGE" (inputLine s.stdin) = some w → w.length < identifierSize := by
          intro fuel
          obtain ⟨input, hrun, hline⟩ := processCommand_line fuel env locals hstdin
          rw [← hline] at hc ⊢
          rw [hrun]
          unfold runCommand
          rw [hc]
          exact remCommand_noOverflow_iff
        rw [copiesFit_of_noOverflow (hnone (by simp [hc])) (by simp [hc])]
        exact ⟨fun h => (hrem 0).mp (h 0), fun h fuel => (hrem fuel).mpr h⟩
    | connect =>
        exact copiesFit_address hstdin hc (Or.inl rfl) (fun _ _ _ => runCommand_connect)
          fun e he t ip port hip => connectTo_avoids he env t ip port hip
    | disconnect =>
        exact @copiesFit_address env locals s .disconnect "DISCONNECT" (fun _ => disconnectFrom) hstdin hc
          (Or.inr rfl) (fun _ _ _ => runCommand_disconnect) fun _ _ _ _ _ _ => Avoids.ok _
    | _ =>
        rw [copiesFit_of_noOverflow (hnone (by simp [hc])) (by simp [hc])]
        refine iff_of_true (fun fuel => ?_) trivial
        obtain ⟨input, hrun, hline⟩ := processCommand_line fuel env locals hstdin
        rw [hrun]
        exact runCommand_noOverflow fuel input (by rw [hline, hc]; simp)

/-- **A port of ten digits does not fit**: with its NUL it is one character longer than `portstring`. -/
theorem connect_long_port :
    processCommand 0 (.plain (bytes "packages")) (.fill 0) (.start (bytes "CONNECT 127.0.0.1:1234567890\n"))
      = .error .bufferOverflow ∧
    ¬ CopiesFit (.plain (bytes "packages")) (.fill 0)
        (.start (bytes "CONNECT 127.0.0.1:1234567890\n")) := by
  let s := Session.start (bytes "CONNECT 127.0.0.1:1234567890\n")
  have hword : word "CONNECT" (inputLine s.stdin) = some (bytes "127.0.0.1:1234567890") := by decide
  have hsplit : splitAddress (bytes "127.0.0.1:1234567890")
      = some (bytes "127.0.0.1", bytes "1234567890") := by decide
  have hlong : ¬ PartsFit (bytes "127.0.0.1") (bytes "1234567890") := by decide
  obtain ⟨input, hrun, hline, hcommand⟩ := @processCommand_selects s 0 (.plain (bytes "packages"))
    (.fill 0) .connect (by simp) (prefix_of_word hword)
  have hover : processCommand 0 (.plain (bytes "packages")) (.fill 0) s = .error .bufferOverflow := by
    rw [hrun, runCommand_connect hcommand, addressCommand_some (hline ▸ hword), if_neg (by decide)]
    unfold onAddress checkAddress
    simp only [hsplit, if_neg hlong, error_bind]
  exact ⟨hover, fun hfit => hfit.stores 0 hover⟩

end Btide
