import Btide.Command.Process

/-!
# `Command.Tracker` — what the commands are for

The program as its user sees it. The managed packages are a list of names with a status; there are no
trees and no memory. A line of input is one of the cases of `Does`, each of which says what is printed.

A package's status is settled when it is added: it says how much of the data file was there at that moment
(`completeAt`). Nothing that happens to the file later changes it (`Does.packages`).
-/

namespace Btide

open LevelOrder

/-! ## What is listed -/

/-- A line of the list of packages. -/
structure Listed where
  identifier : Str
  filename : Str
  complete : Bool
deriving DecidableEq

/-- One line for each text, numbered from `counter` on. -/
def linesFrom (counter : Nat) (texts : List Str) : Str :=
  (texts.zipIdx counter).flatMap fun (text, i) => decimal i ++ bytes ". " ++ text ++ bytes "\n"

def PeerInfo.text (peer : PeerInfo) : Str := peer.ip ++ bytes ":" ++ decimalInt peer.port.toInt

def peersText (peers : List PeerInfo) : Str :=
  if peers = [] then bytes "Not connected to any peers\n"
  else bytes "Connected to:\n\n" ++ linesFrom 1 (peers.map PeerInfo.text)

def Listed.text (entry : Listed) : Str :=
  entry.identifier.take 32 ++ bytes ", " ++ entry.filename ++ bytes " : " ++
    if entry.complete then bytes "COMPLETED" else bytes "INCOMPLETE"

def packagesText (packages : List Listed) : Str :=
  if packages = [] then bytes "No packages managed\n"
  else linesFrom 1 (packages.map Listed.text)

/-! ## What is added -/

/-- Exactly one node of the tree is topmost among those whose expected hash is that of the data. -/
def completeAt (pageSize : Nat) (hs : List Str) (cs : List ChunkInfo) (data : Str) : Bool :=
  decide ((topmost (Nat.log 2 cs.length) (Agree
    (computed (Nat.log 2 cs.length) (fileHashes pageSize data cs)) (expected hs cs))).length = 1)

/-- The package file `contents` is added with the directory `dir`: the data file is as `data` says, if need
    be after it has been created, and the status is the one of that moment. -/
inductive Adds (pageSize : Nat) (junk : Junk) (dir contents : Str) (files : Files) :
    Listed → Files → Prop
  | intro {obj hs cs data} : bpkgLoad junk (some contents) = .ok obj → obj.Lists hs cs →
      (files.data (dir ++ obj.filename)).Holds obj.size data →
      Adds pageSize junk dir contents files
        { identifier := obj.identifier
          filename := dir ++ obj.filename
          complete := completeAt pageSize hs cs data }
        (files.setData (dir ++ obj.filename) (.present true true data))

/-! ## The commands -/

/-- The program as its user sees it. -/
structure Tracker where
  stdin : Str
  net : Net
  files : Files
  packages : List Listed
  running : Bool

/-- The state once a line has been read. -/
def Tracker.read (t : Tracker) : Tracker :=
  { t with stdin := t.stdin.drop (firstLine (MAX_INPUT - 2 + 1) t.stdin).length }

/-- The address that the argument of a command gives. Without an argument it may be any. -/
def Gives (name : String) (line ip : Str) (port : Int32) : Prop :=
  ∀ w, word name line = some w →
    ∃ text, Accepted w ip text ∧ port = Int32.ofInt (leadingNumber text)

/-- The command has no argument, or one that gives no address. -/
def GivesNone (name : String) (line : Str) : Prop :=
  ∀ w, word name line = some w → ¬ ∃ ip text, Accepted w ip text

/-- What a line makes of the tracker, and what is printed. -/
inductive Tracker.Does (env : Env) (line : Str) (t : Tracker) : Tracker → Str → Prop
  | quit : commandOf line = .quit →
      Does env line t { t with
        net := { t.net with peerList := [] }
        packages := []
        running := false } []
  | peers : commandOf line = .peers → Does env line t t (peersText t.net.peerList)
  | packages : commandOf line = .packages → Does env line t t (packagesText t.packages)
  | missingFile : commandOf line = .addPackage →
      (∀ w, word "ADDPACKAGE" line = some w → kept none w = []) → Does env line t t Btide.missingFile
  | unreadable {w} : word "ADDPACKAGE" line = some w → kept none w ≠ [] →
      t.files.text (directory env.directory ++ kept none w) = none →
      Does env line t t (bytes "Cannot open file\n")
  | added {w contents entry files} : word "ADDPACKAGE" line = some w → kept none w ≠ [] →
      t.files.text (directory env.directory ++ kept none w) = some contents →
      Adds env.pageSize env.junk (directory env.directory) contents t.files entry files →
      Does env line t { t with
        files := files
        packages := t.packages ++ [entry] } []
  | missingIdentifier : commandOf line = .remPackage → word "REMPACKAGE" line = none →
      Does env line t t Btide.missingIdentifier
  | remove {w} : word "REMPACKAGE" line = some w →
      Does env line t
        { t with packages := t.packages.eraseP fun entry => w.isPrefixOf entry.identifier }
        (if t.packages.any fun entry => w.isPrefixOf entry.identifier
          then bytes "Package has been removed\n"
          else bytes "Identifier provided does not match managed packages\n")
  | connect {ip port} : commandOf line = .connect → Gives "CONNECT" line ip port →
      Does env line t { t with net := t.net.connect ip port env.created }
        (if (ip, port) ∈ addrs t.net.peerList then bytes "Error: Connection already made\n" else [])
  | disconnect {ip port} : commandOf line = .disconnect → Gives "DISCONNECT" line ip port →
      Does env line t { t with net := t.net.disconnect ip port }
        (if (ip, port) ∈ addrs t.net.peerList then bytes "Disconnected from peer\n"
          else bytes "Unknown peer, not connected\n")
  | missingAddress : commandOf line = .connect ∧ GivesNone "CONNECT" line ∨
        commandOf line = .disconnect ∧ GivesNone "DISCONNECT" line →
      Does env line t t Btide.missingAddress
  | invalid : commandOf line = .invalid → Does env line t t (bytes "Invalid Input.\n")

end Btide
