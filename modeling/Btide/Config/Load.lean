import Btide.Chk.Lines
import Btide.Package.Add

/-!
# `Config.Load` — the configuration (`config.c`)

`config_load` takes one setting from each of the first three lines of its file and passes over the rest.
A line that does not give its setting leaves the field as the memory held it, and nothing tells. So there
are two questions: which files determine the configuration (`startUp_determined_iff`), and which
configurations can be written to a file that gives them back (`configLoad_write_iff`).

The loader reads lines into a buffer as large as the array for the directory, so the directory always
fits, and its path with a slash fits the arrays of `add_package` for the two paths (`startUp_fits`).
-/

namespace Btide

/-- `struct config_obj`; `directory` points to an array of `MAX_BUFFER` bytes. -/
structure ConfigObj where
  directory : Str
  maxPeers : Int32
  port : Int32
deriving DecidableEq

/-- What `mkdir` does with a path. -/
inductive Mkdir
  | created
  /-- `EEXIST`. -/
  | exist
  | failed
deriving DecidableEq

/-! ## `config_load` -/

/-- `"directory:%s\n"`. -/
def directoryFormat : List Directive := lits "directory:" ++ [.str none, .space]

/-- `"max_peers:%d\n"`. -/
def maxPeersFormat : List Directive := lits "max_peers:" ++ [.int, .space]

/-- `"port:%d\n"`. -/
def portFormat : List Directive := lits "port:" ++ [.int, .space]

/-- What the loop does with a line, by the counter. -/
def configLine (counter : Int) (obj : ConfigObj) (buffer : Str) : Run ConfigObj :=
  if counter = 0 then do
    let w ← assignStr directoryFormat MAX_BUFFER obj.directory buffer
    .ok { obj with directory := w }
  else if counter = 1 then do
    let n ← assignInt maxPeersFormat obj.maxPeers buffer
    .ok { obj with maxPeers := n }
  else if counter = 2 then do
    let n ← assignInt portFormat obj.port buffer
    .ok { obj with port := n }
  else .ok obj

/-- `while (fgets(buffer, MAX_BUFFER, file)) …`, for the lines that are left. -/
def configLines (counter : Int) (obj : ConfigObj) : List Str → Run ConfigObj
  | [] => .ok obj
  | buffer :: file => do
    let obj ← configLine counter obj buffer
    let counter ← cInt (counter + 1)
    configLines counter obj file

def verifyConfigContents (mkdir : Str → Mkdir) (obj : ConfigObj) : Run Unit :=
  if mkdir obj.directory = .failed then .error (.exit [] 3)
  else if ¬ (0 < obj.maxPeers.toInt ∧ obj.maxPeers.toInt < 2049) then .error (.exit [] 4)
  else if ¬ (1023 < obj.port.toInt ∧ obj.port.toInt < 65536) then .error (.exit [] 5)
  else .ok ()

/-- `config_load`. The file is given by its contents, `none` if it cannot be opened, and `junk` is what
    the memory of the new object held; the result `none` is NULL. -/
def configLoad (junk : ConfigObj) (mkdir : Str → Mkdir) (file : Option Str) :
    Run (Option ConfigObj) :=
  match file with
  | none => .ok none
  | some contents => do
    let obj ← configLines 0 junk (linesOf MAX_BUFFER contents)
    verifyConfigContents mkdir obj
    .ok (some obj)

/-- The beginning of `main` in `btide.c`: without a configuration it reads a field through NULL. -/
def startUp (junk : ConfigObj) (mkdir : Str → Mkdir) (file : Option Str) : Run ConfigObj := do
  match ← configLoad junk mkdir file with
  | none => .error .nullDeref
  | some config => .ok config

/-! ## The settings -/

/-- The values that `verifyConfigContents` lets pass. -/
structure ConfigObj.Valid (mkdir : Str → Mkdir) (obj : ConfigObj) : Prop where
  directory : mkdir obj.directory ≠ .failed
  maxPeers : 0 < obj.maxPeers.toInt ∧ obj.maxPeers.toInt < 2049
  port : 1023 < obj.port.toInt ∧ obj.port.toInt < 65536

/-- The lines give all three settings. -/
structure ConfigObj.GivenBy (obj : ConfigObj) (lines : List Str) : Prop where
  directory : ∃ line, lines[0]? = some line ∧ sscanf line directoryFormat = .ok [.str obj.directory]
  maxPeers : ∃ line, lines[1]? = some line ∧ sscanf line maxPeersFormat = .ok [.int obj.maxPeers]
  port : ∃ line, lines[2]? = some line ∧ sscanf line portFormat = .ok [.int obj.port]

theorem verifyConfigContents_eq_ok {mkdir : Str → Mkdir} {obj : ConfigObj} :
    verifyConfigContents mkdir obj = .ok () ↔ obj.Valid mkdir := by
  unfold verifyConfigContents
  constructor
  · intro h
    split at h
    · cases h
    · next hdir =>
        split at h
        · cases h
        · next hpeers =>
            split at h
            · cases h
            · next hport => exact ⟨hdir, not_not.mp hpeers, not_not.mp hport⟩
  · intro h
    rw [if_neg h.directory, if_neg (not_not.mpr h.maxPeers), if_neg (not_not.mpr h.port)]

section Load

variable {junk obj : ConfigObj} {mkdir : Str → Mkdir} {contents : Str} {counter : Int} {file : List Str}

/-- From the fourth line on only the counter can stop the loop. -/
theorem configLines_rest (hlo : 3 ≤ counter) (hhi : counter ≤ INT_MAX) :
    configLines counter obj file
      = if counter + (file.length : Int) ≤ INT_MAX then .ok obj else .error .intOverflow := by
  induction file generalizing counter with
  | nil =>
      rw [configLines, if_pos (by simpa using hhi)]
  | cons buffer file ih =>
      have hline : configLine counter obj buffer = .ok obj := by
        rw [configLine, if_neg (by omega), if_neg (by omega), if_neg (by omega)]
      have hcast : ((buffer :: file).length : Int) = file.length + 1 := by simp
      rw [configLines, hline, Run.ok_bind, hcast]
      by_cases hmax : counter = INT_MAX
      · have hover : cInt (counter + 1) = .error .intOverflow := by
          unfold cInt
          rw [if_neg (by omega)]
        rw [hover, Run.error_bind, if_neg (by omega)]
      · have hnext : cInt (counter + 1) = .ok (counter + 1) :=
          cInt_ok (by unfold INT_MIN; omega) (by omega)
        rw [hnext, Run.ok_bind, ih (by omega) (by omega)]
        congr 2
        omega

/-- An assignment from a line that may be missing. -/
def fromLine {α : Type} (assign : α → Str → Run α) (old : α) : Option Str → Run α
  | none => .ok old
  | some line => assign old line

/-- A turn that assigns one field. -/
theorem configLines_assign {α : Type} {assign : α → Str → Run α} {old : α} {set : α → ConfigObj}
    (hlo : 0 ≤ counter) (hhi : counter < INT_MAX) (hold : set old = obj)
    (hline : ∀ buffer, configLine counter obj buffer = (assign old buffer >>= fun x => .ok (set x))) :
    configLines counter obj file
      = (fromLine assign old file[0]? >>= fun x => configLines (counter + 1) (set x) file.tail) := by
  cases file with
  | nil =>
      show .ok obj = configLines (counter + 1) (set old) []
      rw [hold]
      rfl
  | cons buffer file =>
      have hnext : cInt (counter + 1) = .ok (counter + 1) :=
        cInt_ok (by unfold INT_MIN; omega) (by omega)
      show (configLine counter obj buffer >>= fun obj => cInt (counter + 1) >>= fun counter =>
        configLines counter obj file) = (assign old buffer >>= fun x => _)
      rw [hline]
      cases assign old buffer with
      | error e => rfl
      | ok x =>
          show (cInt (counter + 1) >>= fun counter => configLines counter (set x) file) = _
          rw [hnext]
          rfl

/-- **The first three lines give the settings**, in this order, and the others nothing. -/
theorem configLines_eq (obj : ConfigObj) (file : List Str) :
    configLines 0 obj file
      = (fromLine (assignStr directoryFormat MAX_BUFFER) obj.directory file[0]? >>= fun directory =>
        fromLine (assignInt maxPeersFormat) obj.maxPeers file[1]? >>= fun maxPeers =>
        fromLine (assignInt portFormat) obj.port file[2]? >>= fun port =>
        if 3 + (file.tail.tail.tail.length : Int) ≤ INT_MAX then .ok ⟨directory, maxPeers, port⟩
        else .error .intOverflow) := by
  have hmax : INT_MAX = 2147483647 := rfl
  have hzero := @configLines_assign obj 0 file Str (assignStr directoryFormat MAX_BUFFER) obj.directory
    (fun w => { obj with directory := w }) (by omega) (by omega) rfl fun _ => rfl
  rw [hzero]
  congr 1
  funext directory
  have hone := @configLines_assign { obj with directory := directory } 1 file.tail Int32
    (assignInt maxPeersFormat) obj.maxPeers
    (fun n => { obj with directory := directory, maxPeers := n }) (by omega) (by omega) rfl fun _ => rfl
  show configLines 1 _ file.tail = _
  rw [hone, List.getElem?_tail]
  congr 1
  funext maxPeers
  have htwo := @configLines_assign { obj with directory := directory, maxPeers := maxPeers } 2
    file.tail.tail Int32 (assignInt portFormat) obj.port
    (fun n => { directory := directory, maxPeers := maxPeers, port := n }) (by omega) (by omega) rfl
    fun _ => rfl
  show configLines 2 _ file.tail.tail = _
  rw [htwo, List.getElem?_tail, List.getElem?_tail]
  congr 1
  funext port
  exact configLines_rest (by omega) (by omega)

theorem fromLine_str {format : List Directive} {old w : Str} {line : Option Str}
    (h : fromLine (assignStr format MAX_BUFFER) old line = .ok w) :
    (∃ l, line = some l ∧ sscanf l format = .ok [.str w]) ∨ w = old := by
  cases line with
  | none =>
      cases h
      exact Or.inr rfl
  | some l =>
      rcases assignStr_eq_ok h with ⟨hscan, _⟩ | ⟨_, heq⟩
      · exact Or.inl ⟨l, rfl, hscan⟩
      · exact Or.inr heq

theorem fromLine_int {format : List Directive} {old n : Int32} {line : Option Str}
    (h : fromLine (assignInt format) old line = .ok n) :
    (∃ l, line = some l ∧ sscanf l format = .ok [.int n]) ∨ n = old := by
  cases line with
  | none =>
      cases h
      exact Or.inr rfl
  | some l =>
      rcases assignInt_eq_ok h with hscan | ⟨_, heq⟩
      · exact Or.inl ⟨l, rfl, hscan⟩
      · exact Or.inr heq

/-- Each setting comes from its line or from the memory. -/
theorem configLines_cases (h : configLines 0 junk file = .ok obj) :
    ((∃ l, file[0]? = some l ∧ sscanf l directoryFormat = .ok [.str obj.directory]) ∨
        obj.directory = junk.directory) ∧
      ((∃ l, file[1]? = some l ∧ sscanf l maxPeersFormat = .ok [.int obj.maxPeers]) ∨
        obj.maxPeers = junk.maxPeers) ∧
      ((∃ l, file[2]? = some l ∧ sscanf l portFormat = .ok [.int obj.port]) ∨ obj.port = junk.port) ∧
      3 + (file.tail.tail.tail.length : Int) ≤ INT_MAX := by
  rw [configLines_eq] at h
  obtain ⟨directory, hdirectory, h⟩ := Run.bind_eq_ok.mp h
  obtain ⟨maxPeers, hmaxPeers, h⟩ := Run.bind_eq_ok.mp h
  obtain ⟨port, hport, h⟩ := Run.bind_eq_ok.mp h
  split at h
  · next hmax =>
      cases h
      exact ⟨fromLine_str hdirectory, fromLine_int hmaxPeers, fromLine_int hport, hmax⟩
  · cases h

/-- Lines that give all settings are read whatever the memory holds. -/
theorem configLines_given (junk : ConfigObj) (hgiven : obj.GivenBy file)
    (hlen : ∀ line ∈ file, line.length < MAX_BUFFER)
    (hmax : 3 + (file.tail.tail.tail.length : Int) ≤ INT_MAX) :
    configLines 0 junk file = .ok obj := by
  obtain ⟨⟨first, hfirst, hdirectory⟩, ⟨second, hsecond, hmaxPeers⟩, ⟨third, hthird, hport⟩⟩ := hgiven
  have hshort := hlen first (List.mem_of_getElem? hfirst)
  have hfits : obj.directory.length < MAX_BUFFER := by
    have hle := length_of_sscanf_str hdirectory
    omega
  have hstr : fromLine (assignStr directoryFormat MAX_BUFFER) junk.directory (some first)
      = .ok obj.directory := by
    rw [fromLine, assignStr_scanned hdirectory, storeStr_ok hfits]
  have hone : fromLine (assignInt maxPeersFormat) junk.maxPeers (some second) = .ok obj.maxPeers :=
    assignInt_scanned hmaxPeers
  have htwo : fromLine (assignInt portFormat) junk.port (some third) = .ok obj.port :=
    assignInt_scanned hport
  rw [configLines_eq, hfirst, hsecond, hthird, hstr, Run.ok_bind, hone, Run.ok_bind, htwo,
    Run.ok_bind, if_pos hmax]

theorem configLoad_eq_ok : configLoad junk mkdir (some contents) = .ok (some obj) ↔
    configLines 0 junk (linesOf MAX_BUFFER contents) = .ok obj ∧ obj.Valid mkdir := by
  constructor
  · intro h
    obtain ⟨o, hlines, h⟩ := Run.bind_eq_ok.mp h
    obtain ⟨_, hverify, h⟩ := Run.bind_eq_ok.mp h
    cases h
    exact ⟨hlines, verifyConfigContents_eq_ok.mp hverify⟩
  · rintro ⟨hlines, hvalid⟩
    show (configLines 0 junk _ >>= fun obj => _) = _
    rw [hlines, Run.ok_bind, verifyConfigContents_eq_ok.mpr hvalid, Run.ok_bind]

theorem startUp_eq_ok {file : Option Str} : startUp junk mkdir file = .ok obj ↔
    ∃ contents, file = some contents ∧ configLoad junk mkdir (some contents) = .ok (some obj) := by
  constructor
  · intro h
    obtain ⟨o, hload, h⟩ := Run.bind_eq_ok.mp h
    cases o with
    | none => cases h
    | some config =>
        cases h
        cases file with
        | none => cases hload
        | some contents => exact ⟨contents, rfl, hload⟩
  · rintro ⟨contents, rfl, hload⟩
    unfold startUp
    rw [hload, Run.ok_bind]

/-- No line is too long for the array of the directory. -/
theorem length_of_mem_configLines {line : Str} (h : line ∈ linesOf MAX_BUFFER contents) :
    line.length < MAX_BUFFER := by
  have hle := length_of_mem_linesOf h
  have hsize : MAX_BUFFER = 256 := rfl
  omega

end Load

/-! ## What the file determines -/

theorem ConfigObj.GivenBy.length_eq {obj : ConfigObj} {lines : List Str} (h : obj.GivenBy lines) :
    3 + (lines.tail.tail.tail.length : Int) = lines.length := by
  obtain ⟨third, hthird, _⟩ := h.port
  have hlt : 2 < lines.length := (List.getElem?_eq_some_iff.mp hthird).1
  simp only [List.length_tail]
  omega

/-- An object that differs from `obj`, which is valid, in every field. -/
def ConfigObj.other (obj : ConfigObj) : ConfigObj where
  directory := 0 :: obj.directory
  maxPeers := 0
  port := 0

theorem ConfigObj.Valid.givenBy {mkdir : Str → Mkdir} {obj : ConfigObj} {file : List Str}
    (hvalid : obj.Valid mkdir) (h : configLines 0 obj.other file = .ok obj) :
    obj.GivenBy file ∧ 3 + (file.tail.tail.tail.length : Int) ≤ INT_MAX := by
  obtain ⟨hdirectory, hmaxPeers, hport, hmax⟩ := configLines_cases h
  refine ⟨⟨hdirectory.resolve_right fun he => ?_, hmaxPeers.resolve_right fun he => ?_,
    hport.resolve_right fun he => ?_⟩, hmax⟩
  · have hlen := congrArg List.length he
    simp [other] at hlen
  · have hpos := hvalid.maxPeers.1
    rw [he] at hpos
    cases hpos
  · have hpos := hvalid.port.1
    rw [he] at hpos
    cases hpos

/-- **When the file determines the configuration.** `main` gets a configuration that does not depend on
    what the memory held if and only if the first three lines of the file give the three settings and
    these are valid. -/
theorem startUp_determined_iff (mkdir : Str → Mkdir) (file : Option Str) :
    (∃ config, ∀ junk, startUp junk mkdir file = .ok config) ↔
      ∃ (contents : Str) (config : ConfigObj), file = some contents ∧ config.Valid mkdir ∧
        config.GivenBy (linesOf MAX_BUFFER contents) ∧
        ((linesOf MAX_BUFFER contents).length : Int) ≤ INT_MAX := by
  constructor
  · rintro ⟨config, h⟩
    obtain ⟨contents, hfile, hload⟩ := startUp_eq_ok.mp (h config.other)
    obtain ⟨hlines, hvalid⟩ := configLoad_eq_ok.mp hload
    obtain ⟨hgiven, hmax⟩ := hvalid.givenBy hlines
    rw [hgiven.length_eq] at hmax
    exact ⟨contents, config, hfile, hvalid, hgiven, hmax⟩
  · rintro ⟨contents, config, hfile, hvalid, hgiven, hmax⟩
    refine ⟨config, fun junk => startUp_eq_ok.mpr ⟨contents, hfile, configLoad_eq_ok.mpr ⟨?_, hvalid⟩⟩⟩
    rw [← hgiven.length_eq] at hmax
    exact configLines_given junk hgiven (fun line hline => length_of_mem_configLines hline) hmax

/-! ## The directory and its arrays -/

section Directory

variable {junk obj : ConfigObj} {mkdir : Str → Mkdir} {contents : Str}

/-- What a format with a label converts comes after the label. -/
theorem scan_labelled {label s : Str} {ds : List Directive} {v : Value} {vs : List Value}
    (h : scan (label.map .lit ++ ds) s = .ok (v :: vs)) :
    ∃ rest, s = label ++ rest ∧ scan ds rest = .ok (v :: vs) := by
  induction label generalizing s with
  | nil => exact ⟨s, rfl, h⟩
  | cons c label ih =>
      rw [List.map_cons, List.cons_append, scan] at h
      split at h
      · next hhead =>
          obtain ⟨rest, htail, hrest⟩ := ih h
          cases s with
          | nil => cases hhead
          | cons d s =>
              cases hhead
              exact ⟨rest, congrArg (c :: ·) htail, hrest⟩
      · cases h

/-- A directory on a line leaves room for its label. -/
theorem directory_on_line {line w : Str} (h : sscanf line directoryFormat = .ok [.str w]) :
    w ≠ [] ∧ w.length + 10 ≤ line.length := by
  obtain ⟨rest, hline, hrest⟩ := scan_labelled h
  obtain ⟨hne, hlen⟩ := mem_scan hrest List.mem_cons_self
  have hprefix := (List.takeWhile_prefix (l := line) (· ≠ 0)).length_le
  rw [cString] at hline
  rw [hline, List.length_append] at hprefix
  have hlabel : (bytes "directory:").length = 10 := by decide
  exact ⟨hne, by omega⟩

theorem fromLine_noOverflow {format : List Directive} {old : Str} {line : Option Str}
    (h : ∀ l, line = some l → l.length < MAX_BUFFER) :
    (fromLine (assignStr format MAX_BUFFER) old line).Avoids .bufferOverflow := by
  cases line with
  | none => exact Run.Avoids.ok _
  | some l =>
      have hlen := h l rfl
      refine Run.Avoids.bind (sscanf_ne_overflow l format) fun vs hvs => ?_
      split
      · have hle := length_of_sscanf_str hvs
        rw [storeStr_ok (by omega)]
        exact Run.Avoids.ok _
      · exact Run.Avoids.ok _

/-- The loader overflows no array. -/
theorem configLoad_noOverflow (junk : ConfigObj) (mkdir : Str → Mkdir) (file : Option Str) :
    (configLoad junk mkdir file).Avoids .bufferOverflow := by
  cases file with
  | none => exact Run.Avoids.ok _
  | some contents =>
      refine Run.Avoids.bind ?_ fun obj _ => Run.Avoids.bind ?_ fun _ _ => Run.Avoids.ok _
      · rw [configLines_eq]
        refine Run.Avoids.bind (fromLine_noOverflow fun l hl =>
          length_of_mem_configLines (List.mem_of_getElem? hl)) fun directory _ => ?_
        refine Run.Avoids.bind ?_ fun maxPeers _ => Run.Avoids.bind ?_ fun port _ => ?_
        · cases (linesOf MAX_BUFFER contents)[1]? with
          | none => exact Run.Avoids.ok _
          | some l => exact assignInt_ne_overflow _ _ l
        · cases (linesOf MAX_BUFFER contents)[2]? with
          | none => exact Run.Avoids.ok _
          | some l => exact assignInt_ne_overflow _ _ l
        · split
          · exact Run.Avoids.ok _
          · exact Run.Avoids.error (by decide)
      · unfold verifyConfigContents
        split
        · exact Run.Avoids.error (by simp)
        · split
          · exact Run.Avoids.error (by simp)
          · split
            · exact Run.Avoids.error (by simp)
            · exact Run.Avoids.ok _

/-- A directory from the file, with a slash at its end, fits. -/
theorem startUp_pathsFit {file : Option Str} (h : ∀ junk, startUp junk mkdir file = .ok obj)
    (package : Str) :
    directoryOf obj.directory = .ok (directory obj.directory) ∧
      (PathsFit obj.directory package ↔ (directory obj.directory ++ package).length < MAX_BUFFER) := by
  obtain ⟨contents, _, hload⟩ := startUp_eq_ok.mp (h obj.other)
  obtain ⟨hlines, hvalid⟩ := configLoad_eq_ok.mp hload
  obtain ⟨line, hline, hscan⟩ := (hvalid.givenBy hlines).1.directory
  obtain ⟨hne, hlen⟩ := directory_on_line hscan
  have hshort := length_of_mem_configLines (List.mem_of_getElem? hline)
  have hfits : obj.directory.length + 1 < MAX_BUFFER := by omega
  exact ⟨directoryOf_eq_ok.mpr ⟨hne, hfits, rfl⟩, fun h => h.filepath, fun h => ⟨hne, hfits, h⟩⟩

end Directory

/-! ## Writing a configuration -/

/-- A configuration that passes the checks; the directory is a word. -/
structure Config where
  directory : Str
  maxPeers : Int32
  port : Int32
  directory_ne : directory ≠ []
  directory_word : ∀ c ∈ directory, isSpace c = false ∧ c ≠ 0
  maxPeers_range : 0 < maxPeers.toInt ∧ maxPeers.toInt < 2049
  port_range : 1023 < port.toInt ∧ port.toInt < 65536

namespace Config

variable (config : Config)

def obj : ConfigObj := ⟨config.directory, config.maxPeers, config.port⟩

/-- The line of a number. -/
def writeNumber (label : String) (n : Int32) : Str := writeLine (bytes label ++ decimal n.toInt.toNat)

/-- The lines behind the directory. -/
def writeNumbers : List Str :=
  [writeNumber "max_peers:" config.maxPeers, writeNumber "port:" config.port]

/-- A configuration file. -/
def write : Str := writeLine (bytes "directory:" ++ config.directory) ++ config.writeNumbers.flatten

theorem writeNumber_clean {label : String} (hlabel : ∀ c ∈ bytes label, Clean c) (n : Int32) :
    ∀ c ∈ bytes label ++ decimal n.toInt.toNat, Clean c :=
  append_clean hlabel (decimal_clean _)

theorem directory_clean : ∀ c ∈ bytes "directory:" ++ config.directory, Clean c := by
  refine append_clean (forall_mem_of_all (by decide)) fun c hc => ?_
  obtain ⟨hspace, hzero⟩ := config.directory_word c hc
  exact clean_word hspace hzero

theorem writeNumber_whole {label : String} (hlabel : ∀ c ∈ bytes label, Clean c)
    (hlen : (bytes label).length ≤ 10) {n : Int32} (hn : n.toInt < 65536) :
    Whole (MAX_BUFFER - 2 + 1) (writeNumber label n) := by
  have hdigits : (decimal n.toInt.toNat).length ≤ 5 := decimal_length_le (by omega) (by omega)
  have hsize : MAX_BUFFER = 256 := rfl
  refine ⟨_, rfl, fun h => (writeNumber_clean hlabel n newline h).1 rfl, ?_⟩
  rw [List.length_append]
  omega

theorem writeNumbers_whole : ∀ line ∈ config.writeNumbers, Whole (MAX_BUFFER - 2 + 1) line := by
  intro line hline
  have hpeers := config.maxPeers_range.2
  simp only [writeNumbers, List.mem_cons, List.not_mem_nil, or_false] at hline
  rcases hline with rfl | rfl
  · exact writeNumber_whole (forall_mem_of_all (by decide)) (by decide) (by omega)
  · exact writeNumber_whole (forall_mem_of_all (by decide)) (by decide) config.port_range.2

/-- A number is read back from its line. -/
theorem sscanf_writeNumber {label : String} (hlabel : ∀ c ∈ bytes label, Clean c) {n : Int32}
    (hn : 0 ≤ n.toInt) :
    sscanf (writeNumber label n) (lits label ++ [.int, .space]) = .ok [.int n] := by
  rw [writeNumber, sscanf_writeLine (writeNumber_clean hlabel n)]
  exact scan_number label (Int.toNat_of_nonneg hn).symm rfl

/-- A directory that ends before the buffer does is read back. -/
theorem sscanf_directory :
    sscanf (writeLine (bytes "directory:" ++ config.directory)) directoryFormat
      = .ok [.str config.directory] := by
  have hword : ∀ c ∈ config.directory, isSpace c = false := fun c hc => (config.directory_word c hc).1
  have hstop : Stops (fun c => !isSpace c) [newline] := newline_stops rfl
  rw [sscanf_writeLine config.directory_clean, directoryFormat, List.append_assoc, scan_lits,
    scan_str config.directory_ne hword hstop]
  rfl

/-- The file of a directory that leaves room for its label and its end. -/
theorem linesOf_write (hlen : config.directory.length ≤ 244) :
    linesOf MAX_BUFFER config.write
      = writeLine (bytes "directory:" ++ config.directory) :: config.writeNumbers := by
  have hlabel : (bytes "directory:").length = 10 := by decide
  have hsize : MAX_BUFFER = 256 := rfl
  have hwhole : ∀ line ∈ writeLine (bytes "directory:" ++ config.directory) :: config.writeNumbers,
      Whole (MAX_BUFFER - 2 + 1) line := by
    intro line hline
    rcases List.mem_cons.mp hline with rfl | hline
    · refine ⟨_, rfl, fun h => (config.directory_clean newline h).1 rfl, ?_⟩
      rw [List.length_append]
      omega
    · exact config.writeNumbers_whole line hline
  exact linesOf_whole hwhole

theorem givenBy (hlen : config.directory.length ≤ 244) :
    config.obj.GivenBy (linesOf MAX_BUFFER config.write) := by
  rw [config.linesOf_write hlen]
  have hpeers := config.maxPeers_range.1
  have hport : 0 ≤ config.port.toInt := by
    have hmin := config.port_range.1
    omega
  exact ⟨⟨_, rfl, config.sscanf_directory⟩,
    ⟨_, rfl, sscanf_writeNumber (forall_mem_of_all (by decide)) (Int.le_of_lt hpeers)⟩,
    ⟨_, rfl, sscanf_writeNumber (forall_mem_of_all (by decide)) hport⟩⟩

/-- A directory that leaves no room is cut, or its end is a line of its own. -/
theorem not_givenBy (hlen : 245 ≤ config.directory.length) :
    ¬ config.obj.GivenBy (linesOf MAX_BUFFER config.write) := by
  intro h
  let first := bytes "directory:" ++ config.directory.take 245
  let tail := config.directory.drop 245 ++ (newline :: config.writeNumbers.flatten)
  have hwrite : config.write = first ++ tail := by
    simp only [write, writeLine, first, tail, List.append_assoc, List.cons_append, List.nil_append]
    rw [← List.append_assoc (config.directory.take 245), List.take_append_drop]
  have hclean : ∀ c ∈ first, Clean c := fun c hc => by
    refine config.directory_clean c ?_
    rcases List.mem_append.mp hc with hc | hc
    · exact List.mem_append_left _ hc
    · exact List.mem_append_right _ (List.mem_of_mem_take hc)
  have hnew : newline ∉ first := fun hm => (hclean newline hm).1 rfl
  have hfirst : first.length = MAX_BUFFER - 2 + 1 := by
    have hlabel : (bytes "directory:").length = 10 := by decide
    have hsize : MAX_BUFFER = 256 := rfl
    rw [List.length_append, List.length_take]
    omega
  rw [hwrite, linesOf_full hfirst hnew] at h
  -- the first line gives the first 245 bytes, so there are no more
  obtain ⟨line, hline, hscan⟩ := h.directory
  cases hline
  have hcut : config.directory.take 245 = config.directory := by
    have hword : ∀ c ∈ config.directory.take 245, isSpace c = false :=
      fun c hc => (config.directory_word c (List.mem_of_mem_take hc)).1
    have hne : config.directory.take 245 ≠ [] := by
      intro hnil
      have hzero := congrArg List.length hnil
      rw [List.length_take, List.length_nil] at hzero
      omega
    have hread : scan directoryFormat first = .ok [.str (config.directory.take 245)] := by
      have hscan := @scan_str [.space] _ [] hne hword (Stops.nil _)
      rw [List.append_nil] at hscan
      rw [directoryFormat, scan_lits, hscan]
      rfl
    rw [sscanf, cString_eq fun hm => (hclean 0 hm).2 rfl, hread] at hscan
    exact Value.str.inj (List.cons.inj (Except.ok.inj hscan)).1
  have hdrop : config.directory.drop 245 = [] := by
    rw [← hcut, List.drop_take, Nat.sub_self, List.take_zero]
  -- the second line is empty, and the third is not the one for the port
  have hwhole : ∀ line ∈ [newline] :: config.writeNumbers, Whole (MAX_BUFFER - 2 + 1) line := by
    intro line hline
    rcases List.mem_cons.mp hline with rfl | hline
    · exact ⟨[], rfl, by simp, by decide⟩
    · exact config.writeNumbers_whole line hline
  have htail : tail = ([newline] :: config.writeNumbers).flatten := by
    simp only [tail, hdrop, List.nil_append, List.flatten_cons, List.singleton_append]
  rw [htail, linesOf_whole hwhole] at h
  obtain ⟨line, hline, hscan⟩ := h.port
  cases hline
  rw [writeNumber, sscanf_writeLine (writeNumber_clean (forall_mem_of_all (by decide)) _)] at hscan
  obtain ⟨rest, hport, _⟩ := @scan_labelled (bytes "port:") _ _ _ _ hscan
  have hhead : some (109 : UInt8) = some 112 := congrArg List.head? hport
  revert hhead
  decide

end Config

/-- Any memory will do. -/
theorem Config.load {mkdir : Str → Mkdir} {config : Config} (hmkdir : mkdir config.directory ≠ .failed)
    (hlen : config.directory.length ≤ 244) (junk : ConfigObj) :
    configLoad junk mkdir (some config.write) = .ok (some config.obj) := by
  refine configLoad_eq_ok.mpr ⟨?_, hmkdir, config.maxPeers_range, config.port_range⟩
  refine configLines_given junk (config.givenBy hlen)
    (fun line hline => length_of_mem_configLines hline) ?_
  rw [config.linesOf_write hlen]
  show 3 + ((0 : Nat) : Int) ≤ INT_MAX
  decide

/-- **Which configurations a file can give back.** A configuration is loaded from the file that was
    written for it, whatever the memory held, if and only if its directory has at most 244 bytes. -/
theorem configLoad_write_iff (mkdir : Str → Mkdir) (config : Config)
    (hmkdir : mkdir config.directory ≠ .failed) :
    (∀ junk, configLoad junk mkdir (some config.write) = .ok (some config.obj)) ↔
      config.directory.length ≤ 244 := by
  constructor
  · intro h
    by_contra hlen
    obtain ⟨hlines, hvalid⟩ := configLoad_eq_ok.mp (h config.obj.other)
    exact config.not_givenBy (by omega) (hvalid.givenBy hlines).1
  · exact Config.load hmkdir

/-- A directory, eight peers and the port 9000. -/
def Config.packages : Config where
  directory := bytes "packages"
  maxPeers := 8
  port := 9000
  directory_ne := by decide
  directory_word := forall_mem_of_all (by decide)
  maxPeers_range := by decide
  port_range := by decide

example : Config.packages.write = bytes "directory:packages\nmax_peers:8\nport:9000\n" := by
  decide +kernel

theorem configLoad_write_iff_packages :
    (∀ junk, configLoad junk (fun _ => .exist) (some Config.packages.write)
        = .ok (some Config.packages.obj)) ↔ Config.packages.directory.length ≤ 244 :=
  configLoad_write_iff _ Config.packages (by decide)

/-- **No path is too long because of the configuration.** Whatever the file and the memory, the loader
    overflows no array up to its end or to a number that is no `int`; and with a configuration that the
    file determines, the directory with its slash fits the buffers `dir` and `filepath` of `add_package`,
    so that these two suffice just if the path of the package file fits `filepath`. The third buffer,
    `pathtodata`, depends on what that file holds. -/
theorem startUp_fits (mkdir : Str → Mkdir) (file : Option Str) :
    (∀ junk, (startUp junk mkdir file).Avoids .bufferOverflow) ∧
      ∀ config, (∀ junk, startUp junk mkdir file = .ok config) → ∀ package,
        directoryOf config.directory = .ok (directory config.directory) ∧
          (PathsFit config.directory package ↔
            (directory config.directory ++ package).length < MAX_BUFFER) := by
  refine ⟨fun junk => ?_, fun config h => startUp_pathsFit h⟩
  refine Run.Avoids.bind (configLoad_noOverflow junk mkdir file) fun loaded _ => ?_
  cases loaded with
  | none => exact Run.Avoids.error (by simp)
  | some config => exact Run.Avoids.ok _

theorem startUp_fits_packages :
    directoryOf (bytes "packages") = .ok (directory (bytes "packages")) ∧
      (PathsFit (bytes "packages") (bytes "p.bpkg") ↔
        (directory (bytes "packages") ++ bytes "p.bpkg").length < MAX_BUFFER) :=
  (startUp_fits (fun _ => .exist) (some Config.packages.write)).2 Config.packages.obj
    (fun junk => startUp_eq_ok.mpr ⟨_, rfl, Config.load (by decide) (by decide) junk⟩) (bytes "p.bpkg")

end Btide
