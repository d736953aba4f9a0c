import Btide.Command.Address
import Btide.Command.Filter
import Btide.Package.IsComplete
import Btide.Package.Remove
import Btide.Peer.Net
import Btide.Tree.Traverse

/-!
# `Command.Process` — one command (`process_command` in `btide.c`)

`process_command` reads a line from the standard input and does what its first word says. The local
arrays of the function, and those of `validIP`, start with what earlier calls have left on the stack;
they are a parameter (`Locals`). What the function prints is returned next to the new state.

The rules at the end say what each command makes of a line, in terms of the word that follows the
command's name. They mention no array: once one has been written, its old contents is gone. The two
exceptions are `CONNECT` and `DISCONNECT` without an argument, which go on with an array that nothing
has been written to.
-/

namespace Btide

def MAX_INPUT : Nat := 5520

/-! ## The state -/

/-- What `process_command` reads and changes. -/
structure Session where
  stdin : Str
  net : Net
  managed : Managed
  /-- `main_loop`. -/
  mainLoop : Bool

/-- The configured directory, and what is outside of the program. -/
structure Env where
  directory : Str
  pageSize : Nat
  junk : Junk
  /-- Whether a thread can be created. -/
  created : Bool

/-- The local arrays of `process_command` and, in the field `validIP`, those of `validIP`. The branches
    of `CONNECT` and `DISCONNECT` have one set of `ipport`, `ip` and `portstring` each, of which a call
    uses one. -/
structure Locals where
  input : Buffer MAX_INPUT
  processedfile : Buffer MAX_BUFFER
  file : Buffer MAX_BUFFER
  identifier : Buffer identifierSize
  ipport : Buffer MAX_BUFFER
  address : AddressBuffers
  validIP : AddressBuffers

/-- No peers and no packages. -/
def Session.start (stdin : Str) : Session where
  stdin := stdin
  net := .init
  managed := { mem := Mem.empty, files := { text := fun _ => none, data := fun _ => .unreadable }, list := [] }
  mainLoop := true

/-- One connected peer. -/
def Session.connected (stdin : Str) (peer : PeerInfo) : Session :=
  { Session.start stdin with net := { peerList := [peer], pending := [] } }

/-- A configured directory, and an environment in which threads can be created. -/
def Env.plain (directory : Str) : Env where
  directory := directory
  pageSize := 4096
  junk := default
  created := true

/-- Arrays in which every character is `c`. -/
def Locals.fill (c : UInt8) : Locals where
  input := .fill _ c
  processedfile := .fill _ c
  file := .fill _ c
  identifier := .fill _ c
  ipport := .fill _ c
  address := ⟨.fill _ c, .fill _ c⟩
  validIP := ⟨.fill _ c, .fill _ c⟩

/-! ## Printing the lists -/

/-- What `printf` writes for `%d`. -/
def decimalInt (z : Int) : Str := if z < 0 then 45 :: decimal z.natAbs else decimal z.natAbs

/-- `"%d. "`. -/
def counterText (counter : Int) : Str := decimalInt counter ++ bytes ". "

/-- The loop of `print_peer`. -/
def printPeers (counter : Int) : List PeerInfo → Run Str
  | [] => .ok []
  | currentpeer :: rest => do
    let line := counterText counter ++ currentpeer.ip ++ bytes ":" ++
      decimalInt currentpeer.port.toInt ++ bytes "\n"
    let counter ← cInt (counter + 1)
    let lines ← printPeers counter rest
    .ok (line ++ lines)

def printPeer (peerList : List PeerInfo) : Run Str := do
  let lines ← printPeers 1 peerList
  .ok (bytes "Connected to:\n\n" ++ lines)

/-- The loop of `print_package`. -/
def printPackages (fuel : Nat) (mem : Mem) (counter : Int) : List BpkgObj → Run Str
  | [] => .ok []
  | obj :: rest => do
    let complete ← isComplete fuel mem obj
    let completestatus := if complete = 1 then bytes "COMPLETED" else bytes "INCOMPLETE"
    let line := counterText counter ++ obj.identifier.take 32 ++ bytes ", " ++ obj.filename ++
      bytes " : " ++ completestatus ++ bytes "\n"
    let counter ← cInt (counter + 1)
    let lines ← printPackages fuel mem counter rest
    .ok (line ++ lines)

def printPackage (fuel : Nat) (mem : Mem) (list : List BpkgObj) : Run Str :=
  match list with
  | [] => .ok (bytes "No packages managed\n")
  | _ :: _ => printPackages fuel mem 1 list

/-! ## Removing packages -/

/-- The first entry with the property `p`, and the list without it. -/
def unlinkFirst (p : BpkgObj → Bool) : List BpkgObj → Option (BpkgObj × List BpkgObj)
  | [] => none
  | current :: rest =>
    if p current then some (current, rest)
    else (unlinkFirst p rest).map fun (found, rest) => (found, current :: rest)

/-- `remove_package`, with the message it prints. -/
def Managed.removePackage (fuel : Nat) (s : Managed) (identifier : Str) : Run (Managed × Str) :=
  let length := identifier.length
  match unlinkFirst (fun obj => strncmpEq length obj.identifier identifier) s.list with
  | some (current, list) => do
    let r ← freeTree fuel s.mem current.tree
    .ok ({ s with mem := r.mem, list := list }, bytes "Package has been removed\n")
  | none => .ok (s, bytes "Identifier provided does not match managed packages\n")

theorem unlinkFirst_eq (p : BpkgObj → Bool) (list : List BpkgObj) :
    unlinkFirst p list = (list.find? p).map fun found => (found, list.eraseP p) := by
  induction list with
  | nil => rfl
  | cons current rest ih =>
      unfold unlinkFirst
      by_cases hp : p current = true
      · rw [if_pos hp, List.find?_cons_of_pos hp, List.eraseP_cons_of_pos hp]
        rfl
      · rw [if_neg hp, ih, List.find?_cons_of_neg hp, List.eraseP_cons_of_neg hp, Option.map_map]
        rfl

/-- The list of values stands for the records in memory: with these `remove_package` leaves the same
    packages, and prints the same. -/
theorem Managed.removePackage_holds {fuel : Nat} {packages : Packages} {s s' : Managed}
    {identifier message : Str} (h : packages.Holds s.list)
    (hrun : s.removePackage fuel identifier = .ok (s', message)) :
    ∃ packages', Settles (fun fuel => Btide.removePackage fuel packages identifier)
        (.ok (packages', message)) ∧ packages'.Holds s'.list := by
  obtain ⟨packages', hremove, hholds⟩ := removePackage_erases h identifier
  unfold Managed.removePackage at hrun
  simp only [strncmpEq_isPrefixOf, unlinkFirst_eq] at hrun
  have hmessage : message = removedMessage s.list identifier ∧
      s'.list = s.list.eraseP fun obj => identifier.isPrefixOf obj.identifier := by
    unfold removedMessage
    cases hfind : s.list.find? fun obj => identifier.isPrefixOf obj.identifier with
    | none =>
        rw [hfind] at hrun
        cases hrun
        have hnone := List.find?_eq_none.mp hfind
        rw [List.eraseP_of_forall_not hnone, List.any_eq_false.mpr hnone]
        exact ⟨rfl, rfl⟩
    | some current =>
        rw [hfind] at hrun
        obtain ⟨r, _, hrun⟩ := Run.bind_eq_ok.mp hrun
        cases hrun
        rw [List.any_eq_true.mpr ⟨current, List.mem_of_find?_eq_some hfind, List.find?_some hfind⟩]
        exact ⟨rfl, rfl⟩
  obtain ⟨rfl, hlist⟩ := hmessage
  refine ⟨packages', hremove, ?_⟩
  rw [hlist]
  exact hholds

/-- `free_package`: the memory that is left. -/
def freePackage (fuel : Nat) (mem : Mem) : List BpkgObj → Run Mem
  | [] => .ok mem
  | current :: list => do
    let r ← freeTree fuel mem current.tree
    freePackage fuel r.mem list

/-! ## The commands -/

section Commands

variable (fuel : Nat) (env : Env) (locals : Locals) (input : Str) (s : Session)

/-- The `QUIT` branch from the return of `pthread_join` on; the flag, the wake-up and the wait are those of
    `Server.mainStep`. The lists of a `Session` are the records in memory, and none of them is left. The
    pointers to the lists are not changed; what they point to then is the subject of `Peer.Life`
    (`Command.Quit`). -/
def quit : Run (Session × Str) := do
  let mem ← freePackage fuel s.managed.mem s.managed.list
  .ok ({ s with
    net := { s.net with peerList := [] }
    managed := { s.managed with mem := mem, list := [] }
    mainLoop := false }, [])

def peersCommand : Run (Session × Str) :=
  match s.net.peerList with
  | [] => .ok (s, bytes "Not connected to any peers\n")
  | _ :: _ => do
    let text ← printPeer s.net.peerList
    .ok (s, text)

def packagesCommand : Run (Session × Str) := do
  let text ← printPackage fuel s.managed.mem s.managed.list
  .ok (s, text)

def missingFile : Str := bytes "Missing file argument\n"

def addCommand : Run (Session × Str) := do
  let (converted, processedfile) ← locals.processedfile.sscanf input (commandFormat "ADDPACKAGE")
  if converted ≠ 1 then .ok (s, missingFile)
  else do
    let file ← extractFile processedfile.chars locals.file
    let length ← strlen file.chars
    if length = 0 then .ok (s, missingFile)
    else do
      let file ← readStr file.chars
      let (managed, message) ← addPackage fuel env.pageSize env.junk env.directory file s.managed
      .ok ({ s with managed := managed }, message.getD [])

def remCommand : Run (Session × Str) := do
  let (converted, identifier) ← locals.identifier.sscanf input (commandFormat "REMPACKAGE")
  if converted ≠ 1 then .ok (s, missingIdentifier)
  else do
    let length ← strlen identifier.chars
    if length = 0 then .ok (s, missingIdentifier)
    else do
      let identifier ← readStr identifier.chars
      let (managed, message) ← s.managed.removePackage fuel identifier
      .ok ({ s with managed := managed }, message)

def missingAddress : Str := bytes "Missing address and port argument\n"

/-- What `CONNECT` and `DISCONNECT` do with the array `ipport`; `use` is what they do with an address. -/
def withAddress (ipport : Str) (use : Str → Int32 → Run (Session × Str)) : Run (Session × Str) := do
  let valid ← validIP locals.validIP ipport
  if valid = 0 then .ok (s, missingAddress)
  else do
    let (ip, port) ← readAddress locals.address ipport
    use ip port

/-- The rest of `CONNECT`, for a peer structure with a copy of `ip`. If no thread can be created, the
    structure is released, and the call of `pthread_detach` that follows reads the uninitialised
    `client_tid`. -/
def connectTo (ip : Str) (port : Int32) : Run (Session × Str) :=
  match getPeer s.net.peerList ip port with
  | some _ => .ok (s, bytes "Error: Connection already made\n")
  | none => do
    let ip ← storeStr MAX_IP ip
    if env.created then .ok ({ s with net := s.net.connect ip port true }, [])
    else .error .uninitRead

/-- The rest of `DISCONNECT`, with the messages of `remove_peer`. -/
def disconnectFrom (ip : Str) (port : Int32) : Run (Session × Str) :=
  .ok ({ s with net := s.net.disconnect ip port },
    match (removePeer s.net.peerList ip port).2 with
    | some _ => bytes "Disconnected from peer\n"
    | none => bytes "Unknown peer, not connected\n")

/-- The beginning that the two have in common; the result of `sscanf` is not looked at. -/
def addressCommand (name : String) (use : Str → Int32 → Run (Session × Str)) : Run (Session × Str) := do
  let (_, ipport) ← locals.ipport.sscanf input (commandFormat name)
  withAddress locals s ipport.chars use

def connectCommand : Run (Session × Str) := addressCommand locals input s "CONNECT" (connectTo env s)

def disconnectCommand : Run (Session × Str) :=
  addressCommand locals input s "DISCONNECT" (disconnectFrom s)

/-! ## The dispatch -/

/-- The branches of `process_command`. -/
inductive Command
  | quit
  | peers
  | addPackage
  | packages
  | remPackage
  | connect
  | disconnect
  | invalid
deriving DecidableEq

/-- The branch for a line: the comparisons, in order. That for `DISCONNECT` is of seven characters. -/
def commandOf (line : Str) : Command :=
  if strncmpEq 4 line (bytes "QUIT") then .quit
  else if strncmpEq 5 line (bytes "PEERS") then .peers
  else if strncmpEq 10 line (bytes "ADDPACKAGE") then .addPackage
  else if strncmpEq 8 line (bytes "PACKAGES") then .packages
  else if strncmpEq 10 line (bytes "REMPACKAGE") then .remPackage
  else if strncmpEq 7 line (bytes "CONNECT") then .connect
  else if strncmpEq 7 line (bytes "DISCONNECT") then .disconnect
  else .invalid

/-- The body of `process_command` once the line is in the array `input`. -/
def runCommand : Run (Session × Str) :=
  match commandOf (cString input) with
  | .quit => quit fuel s
  | .peers => peersCommand s
  | .addPackage => addCommand fuel env locals input s
  | .packages => packagesCommand fuel s
  | .remPackage => remCommand fuel locals input s
  | .connect => connectCommand env locals input s
  | .disconnect => disconnectCommand locals input s
  | .invalid => .ok (s, bytes "Invalid Input.\n")

/-- `process_command`: the new state, and what it has printed. -/
def processCommand : Run (Session × Str) := do
  match ← locals.input.fgets s.stdin with
  | none => .error (.exit [] 0)
  | some (input, stdin) => runCommand fuel env locals input.chars { s with stdin := stdin }

end Commands

/-! ## What selects a branch -/

/-- The beginning of a line that selects a branch. -/
def Command.shortest : Command → Str
  | .quit => bytes "QUIT"
  | .peers => bytes "PEERS"
  | .addPackage => bytes "ADDPACKAGE"
  | .packages => bytes "PACKAGES"
  | .remPackage => bytes "REMPACKAGE"
  | .connect => bytes "CONNECT"
  | .disconnect => bytes "DISCONN"
  | .invalid => []

theorem take_prefix_of_strncmpEq {n : Nat} {line name : Str} (h : strncmpEq n line name = true) :
    name.take n <+: line := by
  rw [strncmpEq_iff] at h
  rw [← h]
  exact List.take_prefix n line

theorem shortest_prefix (line : Str) : (commandOf line).shortest <+: line := by
  unfold commandOf
  split_ifs with h₁ h₂ h₃ h₄ h₅ h₆ h₇
  · exact take_prefix_of_strncmpEq h₁
  · exact take_prefix_of_strncmpEq h₂
  · exact take_prefix_of_strncmpEq h₃
  · exact take_prefix_of_strncmpEq h₄
  · exact take_prefix_of_strncmpEq h₅
  · exact take_prefix_of_strncmpEq h₆
  · exact take_prefix_of_strncmpEq h₇
  · exact List.nil_prefix

/-- The order of the comparisons makes no difference. -/
theorem commandOf_eq_iff {line : Str} {c : Command} (hc : c ≠ .invalid) :
    commandOf line = c ↔ c.shortest <+: line := by
  constructor
  · rintro rfl
    exact shortest_prefix line
  · rintro ⟨rest, rfl⟩
    cases c with
    | invalid => exact absurd rfl hc
    | _ => rfl

theorem prefix_of_word {name : String} {line w : Str} (h : word name line = some w) :
    bytes name <+: line := by
  unfold word at h
  split at h
  · next hp => exact List.isPrefixOf_iff_prefix.mp hp
  · cases h

/-! ## What the commands make of a line -/

/-- The string that `fgets` stores. -/
def inputLine (stdin : Str) : Str := cString (firstLine (MAX_INPUT - 2 + 1) stdin)

/-- The state once the line has been read. -/
def Session.read (s : Session) : Session :=
  { s with stdin := s.stdin.drop (firstLine (MAX_INPUT - 2 + 1) s.stdin).length }

section Rules

variable {fuel : Nat} {env : Env} {locals : Locals} {input w : Str} {s : Session}

/-- The line always fits `input`. -/
theorem processCommand_line (fuel : Nat) (env : Env) (locals : Locals) (h : s.stdin ≠ []) :
    ∃ input, processCommand fuel env locals s = runCommand fuel env locals input s.read ∧
      cString input = inputLine s.stdin := by
  obtain ⟨b, hb, _, hstr⟩ := locals.input.fgets_ok (by decide) h
  refine ⟨b.chars, ?_, hstr⟩
  unfold processCommand
  rw [hb, Run.ok_bind]
  rfl

/-- The branch for a line that begins with a command's name. -/
theorem processCommand_selects (fuel : Nat) (env : Env) (locals : Locals) {c : Command}
    (hc : c ≠ .invalid) (h : c.shortest <+: inputLine s.stdin) :
    ∃ input, processCommand fuel env locals s = runCommand fuel env locals input s.read ∧
      cString input = inputLine s.stdin ∧ commandOf (cString input) = c := by
  have hstdin : s.stdin ≠ [] := by
    intro hnil
    rw [hnil] at h
    have hempty := List.prefix_nil.mp h
    cases c <;> first | exact hc rfl | cases hempty
  obtain ⟨input, hrun, hline⟩ := processCommand_line fuel env locals hstdin
  refine ⟨input, hrun, hline, ?_⟩
  rw [hline]
  exact (commandOf_eq_iff hc).mpr h

theorem processCommand_eof (h : s.stdin = []) :
    processCommand fuel env locals s = .error (.exit [] 0) := by
  unfold processCommand
  rw [h]
  rfl

/-- `ADDPACKAGE` without an argument. -/
theorem addCommand_none (h : word "ADDPACKAGE" (cString input) = none) :
    addCommand fuel env locals input s = .ok (s, missingFile) := by
  unfold addCommand
  rw [Buffer.sscanf_none h, Run.ok_bind]
  rfl

/-- `ADDPACKAGE` adds the package file whose name is what `extract_file` keeps of the argument. -/
theorem addCommand_some (h : word "ADDPACKAGE" (cString input) = some w) :
    addCommand fuel env locals input s
      = if MAX_BUFFER ≤ w.length then .error .bufferOverflow
        else if kept none w = [] then .ok (s, missingFile)
        else addPackage fuel env.pageSize env.junk env.directory (kept none w) s.managed >>= fun r =>
          .ok ({ s with managed := r.1 }, r.2.getD []) := by
  unfold addCommand
  rw [Buffer.sscanf_some h]
  by_cases hfit : w.length < MAX_BUFFER
  · obtain ⟨b, hb, hzero, hstr⟩ := locals.processedfile.put_ok hfit
    rw [cString_eq (zero_notMem_word h)] at hstr
    have hshort : (kept none w).length < MAX_BUFFER :=
      Nat.lt_of_le_of_lt (kept_sublist none w).length_le hfit
    obtain ⟨b', hb', hzero', hstr'⟩ := locals.file.put_ok hshort
    rw [cString_eq zero_notMem_kept] at hstr'
    have hextract : extractFile b.chars locals.file = .ok b' := by
      unfold extractFile
      rw [readStr_ok hzero, Run.ok_bind, hstr, extractChars_eq_kept, hb']
    rw [hb, Run.ok_bind, Run.ok_bind, if_neg (by omega)]
    show (if (1 : Int) ≠ 1 then _ else extractFile b.chars locals.file >>= fun file => _) = _
    rw [if_neg (by simp), hextract, Run.ok_bind, strlen_ok hzero', Run.ok_bind, hstr']
    simp only [List.length_eq_zero_iff]
    split
    · rfl
    · rw [readStr_ok hzero', Run.ok_bind, hstr']
  · rw [Buffer.put_overflow _ (by omega), Run.error_bind, Run.error_bind, if_pos (by omega)]

theorem remCommand_none (h : word "REMPACKAGE" (cString input) = none) :
    remCommand fuel locals input s = .ok (s, missingIdentifier) := by
  unfold remCommand
  rw [Buffer.sscanf_none h, Run.ok_bind]
  rfl

/-- `REMPACKAGE` looks for its argument. -/
theorem remCommand_some (h : word "REMPACKAGE" (cString input) = some w) :
    remCommand fuel locals input s
      = if identifierSize ≤ w.length then .error .bufferOverflow
        else s.managed.removePackage fuel w >>= fun r => .ok ({ s with managed := r.1 }, r.2) := by
  unfold remCommand
  rw [Buffer.sscanf_some h]
  by_cases hfit : w.length < identifierSize
  · obtain ⟨b, hb, hzero, hstr⟩ := locals.identifier.put_ok hfit
    rw [cString_eq (zero_notMem_word h)] at hstr
    have hpos : w.length ≠ 0 := fun he => word_ne_nil h (List.length_eq_zero_iff.mp he)
    rw [hb, Run.ok_bind, Run.ok_bind, if_neg (by omega)]
    show (if (1 : Int) ≠ 1 then _ else strlen b.chars >>= fun length => _) = _
    rw [if_neg (by simp), strlen_ok hzero, Run.ok_bind, hstr, if_neg hpos, readStr_ok hzero,
      Run.ok_bind, hstr]
  · rw [Buffer.put_overflow _ (by omega), Run.error_bind, Run.error_bind, if_pos (by omega)]

/-- What `CONNECT` and `DISCONNECT` do with a text. -/
def onAddress (w : Str) (s : Session) (use : Str → Int32 → Run (Session × Str)) :
    Run (Session × Str) := do
  let valid ← checkAddress w
  if valid = 0 then .ok (s, missingAddress)
  else
    match splitAddress w with
    | none => .error .wildPointer
    | some (ip, port) => use ip (Int32.ofInt (leadingNumber port))

theorem withAddress_text {ipport : Str} {use : Str → Int32 → Run (Session × Str)} (h : 0 ∈ ipport) :
    withAddress locals s ipport use = onAddress (cString ipport) s use := by
  unfold withAddress onAddress
  rw [validIP_text h]
  cases hcheck : checkAddress (cString ipport) with
  | error e => rfl
  | ok valid =>
      rw [Run.ok_bind, Run.ok_bind]
      by_cases hvalid : valid = 0
      · rw [if_pos hvalid, if_pos hvalid]
      · have hone : valid = 1 := (checkAddress_eq_ok hcheck).resolve_left hvalid
        subst hone
        obtain ⟨ip, port, hacc⟩ := checkAddress_eq_one.mp hcheck
        rw [if_neg hvalid, if_neg hvalid, readAddress_text h hacc, hacc.split]
        rfl

/-- An argument that `validIP` accepts is used. -/
theorem onAddress_accepted {ip port : Str} {use : Str → Int32 → Run (Session × Str)}
    (h : Accepted w ip port) : onAddress w s use = use ip (Int32.ofInt (leadingNumber port)) := by
  unfold onAddress
  rw [checkAddress_eq_one.mpr ⟨ip, port, h⟩, h.split]
  rfl

section Address

variable {name : String} {use : Str → Int32 → Run (Session × Str)}

/-- An argument is used, is reported as no address, or has a part that is too long. -/
theorem onAddress_cases (w : Str) (s : Session) (use : Str → Int32 → Run (Session × Str)) :
    (∃ ip port, Accepted w ip port ∧ onAddress w s use = use ip (Int32.ofInt (leadingNumber port))) ∨
    ((¬ ∃ ip port, Accepted w ip port) ∧
      (∀ ip port, splitAddress w = some (ip, port) → PartsFit ip port) ∧
      onAddress w s use = .ok (s, missingAddress)) ∨
    ((∃ ip port, splitAddress w = some (ip, port) ∧ ¬ PartsFit ip port) ∧
      onAddress w s use = .error .bufferOverflow) := by
  by_cases hacc : ∃ ip port, Accepted w ip port
  · obtain ⟨ip, port, hacc⟩ := hacc
    exact Or.inl ⟨ip, port, hacc, onAddress_accepted hacc⟩
  · refine Or.inr ?_
    by_cases hfits : ∀ ip port, splitAddress w = some (ip, port) → PartsFit ip port
    · refine Or.inl ⟨hacc, hfits, ?_⟩
      obtain ⟨valid, hvalid⟩ : ∃ valid, checkAddress w = .ok valid := by
        unfold checkAddress
        cases hsplit : splitAddress w with
        | none => exact ⟨0, rfl⟩
        | some parts => exact ⟨_, if_pos (hfits parts.1 parts.2 hsplit)⟩
      obtain rfl : valid = 0 := by
        rcases checkAddress_eq_ok hvalid with hzero | rfl
        · exact hzero
        · exact absurd (checkAddress_eq_one.mp hvalid) hacc
      unfold onAddress
      rw [hvalid, Run.ok_bind, if_pos rfl]
    · refine Or.inr ?_
      simp only [not_forall] at hfits
      obtain ⟨ip, port, hsplit, hlong⟩ := hfits
      refine ⟨⟨ip, port, hsplit, hlong⟩, ?_⟩
      unfold onAddress checkAddress
      simp only [hsplit, if_neg hlong, Run.error_bind]

/-- With an argument the array is a terminated one. -/
theorem addressCommand_some (h : word name (cString input) = some w) :
    addressCommand locals input s name use
      = if MAX_BUFFER ≤ w.length then .error .bufferOverflow else onAddress w s use := by
  unfold addressCommand
  rw [Buffer.sscanf_some h]
  by_cases hfit : w.length < MAX_BUFFER
  · obtain ⟨b, hb, hzero, hstr⟩ := locals.ipport.put_ok hfit
    rw [hb, Run.ok_bind, Run.ok_bind, if_neg (by omega)]
    show withAddress locals s b.chars use = _
    rw [withAddress_text hzero, hstr, cString_eq (zero_notMem_word h)]
  · rw [Buffer.put_overflow _ (by omega), Run.error_bind, Run.error_bind, if_pos (by omega)]

/-- Without one it is used as it is. -/
theorem addressCommand_none (h : word name (cString input) = none) :
    addressCommand locals input s name use = withAddress locals s locals.ipport.chars use := by
  unfold addressCommand
  rw [Buffer.sscanf_none h, Run.ok_bind]

end Address

theorem runCommand_connect (h : commandOf (cString input) = .connect) :
    runCommand fuel env locals input s
      = addressCommand locals input s "CONNECT" (connectTo env s) := by
  unfold runCommand
  rw [h]
  rfl

theorem runCommand_disconnect (h : commandOf (cString input) = .disconnect) :
    runCommand fuel env locals input s
      = addressCommand locals input s "DISCONNECT" (disconnectFrom s) := by
  unfold runCommand
  rw [h]
  rfl

theorem Accepted.length_lt {ip text : Str} (h : Accepted w ip text) : w.length < MAX_BUFFER := by
  obtain ⟨rfl, _⟩ := splitAddress_eq_some.mp h.split
  have hip := h.fits.ip
  have hport := h.fits.port
  unfold MAX_IP at hip
  unfold MAX_PORT at hport
  unfold MAX_BUFFER
  rw [List.length_append, List.length_cons]
  omega

/-- `CONNECT` with an accepted argument. -/
theorem processCommand_connect (fuel : Nat) (env : Env) (locals : Locals)
    (hw : word "CONNECT" (inputLine s.stdin) = some w) {ip text : Str} (h : Accepted w ip text) :
    processCommand fuel env locals s
      = connectTo env s.read ip (Int32.ofInt (leadingNumber text)) := by
  obtain ⟨input, hrun, hline, hcommand⟩ :=
    @processCommand_selects s fuel env locals .connect (by simp) (prefix_of_word hw)
  have hshort := h.length_lt
  rw [← hline] at hw
  rw [hrun, runCommand_connect hcommand, addressCommand_some hw, if_neg (by omega), onAddress_accepted h]

/-- A peer that is not in the list is recorded, and a thread is started for it. -/
theorem connectTo_new {ip : Str} {port : Int32} (hfit : ip.length < MAX_IP)
    (hnew : getPeer s.net.peerList ip port = none) :
    connectTo env s ip port
      = if env.created then .ok ({ s with net := s.net.connect ip port true }, [])
        else .error .uninitRead := by
  unfold connectTo
  rw [hnew]
  show (storeStr MAX_IP ip >>= fun ip => _) = _
  rw [storeStr_ok hfit, Run.ok_bind]

theorem connectTo_created {ip : Str} {port : Int32} (hfit : ip.length < MAX_IP)
    (hnew : getPeer s.net.peerList ip port = none) (hcreated : env.created = true) :
    connectTo env s ip port = .ok ({ s with net := s.net.connect ip port true }, []) := by
  rw [connectTo_new hfit hnew, if_pos hcreated]

end Rules

end Btide
