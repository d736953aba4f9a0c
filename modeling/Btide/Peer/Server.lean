import Mathlib.Data.List.Nodup
import Mathlib.Logic.Function.Basic
import Btide.Base.Epoll
import Btide.Base.Run
import Btide.Base.Steps

/-!
# `Peer.Server` — the server thread and `QUIT` (`server`, `nonblock`, `main`, `process_command`)

`main` creates an eventfd and starts the server thread, which listens on its port, adds the socket and the
eventfd to an epoll instance and waits there, for ever if nobody wakes it up. A connection that arrives
wakes it up but is not accepted. `QUIT` sets `shutdown_flag`, writes to the eventfd and joins the thread.

Every system call of the two threads is a step, and so are the arrival of a connection and the descriptors
that other threads open and close. A descriptor is a number that is free for the next call once it has been
closed, and `close` closes whatever it stands for then. This matters in one place: when `epoll_ctl` has
refused the listening socket, `server` closes both its descriptors and goes on, and closes them again when
the next `epoll_ctl` fails (`strays_iff`).

`Kept` is the invariant. With it the flag is set whenever the thread looks at it, so the thread leaves its
loop exactly when it should (`server_leaves`), and when `main` returns the thread has ended and all that the
two have opened is closed (`returned_closed`).
-/

namespace Btide

/-! ## The state -/

/-- What an open descriptor stands for: the server's socket before and after `listen`, its epoll instance,
    the eventfd, or something that another thread or a command has opened. -/
inductive Descriptor
  | socket
  | listener
  | epoll
  | event
  | other
deriving DecidableEq

/-- Opened by `server`. -/
def Descriptor.ofServer : Descriptor → Bool
  | .socket => true
  | .listener => true
  | .epoll => true
  | _ => false

/-- `server_fd` and `epoll_fd`. -/
structure ServerFds where
  server : Nat
  epoll : Nat
deriving DecidableEq

/-- What follows the calls of `close`: `exit(EXIT_FAILURE)`, the next statement, or `pthread_exit`. -/
inductive AfterClose
  | exits
  | addEvent (fds : ServerFds)
  | ends
deriving DecidableEq

/-- The calls that prepare the socket. -/
inductive SetupPc
  | getFlags
  | setFlags
  | bind
  | listen
deriving DecidableEq

/-- Inside `while (1)`; with the events that have not been looked at. -/
inductive PollPc
  | wait
  | scan (events : List Nat)
  | read (events : List Nat)
  | lock (events : List Nat)
  /-- `if (shutdown_flag)`. -/
  | test (events : List Nat)
  | unlock (events : List Nat) (flag : Bool)
deriving DecidableEq

/-- Where the server thread is: the call that comes next. -/
inductive ServerPc
  /-- Not created. -/
  | absent
  | socket
  | setup (fd : Nat) (pc : SetupPc)
  | epollCreate (fd : Nat)
  | addServer (fds : ServerFds)
  | addEvent (fds : ServerFds)
  | loop (fds : ServerFds) (pc : PollPc)
  | closing (todo : List Nat) (after : AfterClose)
  | ended
deriving DecidableEq

/-- Where the thread of `main` is. -/
inductive MainPc
  | eventfd
  | create
  | command
  /-- `main_loop = 0`, the first statement of `QUIT`. -/
  | stop
  | lock
  | setFlag
  | unlock
  | write
  | join
  /-- The lists and the configuration are released, and `process_command` returns. -/
  | release
  | closeEfd
  | returned
deriving DecidableEq

inductive Party
  | main
  | server
deriving DecidableEq

/-- The two threads, the globals they share, and what the kernel keeps for them. `perrors` are the arguments
    of the calls of `perror`, and `strays` the descriptors that `server` has closed without their being open
    or its own. -/
structure Server where
  main : MainPc
  server : ServerPc
  mainLoop : Bool
  shutdownFlag : Bool
  shutdownMutex : Option Party
  efd : Int
  descriptors : Nat → Option Descriptor
  /-- The value of the eventfd. -/
  counter : Nat
  /-- The connections that have arrived. -/
  backlog : Nat
  epoll : Epoll Nat
  perrors : List Str
  exited : Option Nat
  strays : List Nat

/-- What a call returns. -/
inductive Result
  | ok
  | fd (n : Nat)
  | failed
  /-- `-1` with `errno == EINTR`. -/
  | interrupted
deriving DecidableEq

namespace Server

/-- When `config_load` has returned; the descriptors `opened` are open, as those of the streams are. -/
def init (opened : List Nat) : Server where
  main := .eventfd
  server := .absent
  mainLoop := true
  shutdownFlag := false
  shutdownMutex := none
  efd := 0
  descriptors := fun fd => if fd ∈ opened then some .other else none
  counter := 0
  backlog := 0
  epoll := Epoll.empty
  perrors := []
  exited := none
  strays := []

inductive Event
  | main (result : Result)
  /-- `process_command` reads a line, or the end of the input. -/
  | input (line : Option Str)
  | server (result : Result)
  /-- A connection arrives at the listening socket. -/
  | arrive (fd : Nat)
  /-- A client thread or a command opens a descriptor. -/
  | opens (fd : Nat)
  | closes (fd : Nat)
deriving DecidableEq

/-! ## The calls -/

def maxEvents : Nat := 100

/-- `exit(status)` ends both threads. -/
def exit (s : Server) (status : Nat) : Server := { s with exited := some status }

def perror (s : Server) (message : Str) : Server := { s with perrors := s.perrors ++ [message] }

/-- `perror(message); exit(EXIT_FAILURE);` -/
def fatal (s : Server) (message : Str) : Server := (s.perror message).exit 1

def setDescriptor (s : Server) (fd : Nat) (d : Option Descriptor) : Server :=
  { s with descriptors := Function.update s.descriptors fd d }

/-- `close(fd)`. -/
def close (s : Server) (fd : Nat) : Server :=
  { s.setDescriptor fd none with
    epoll := if s.descriptors fd = some .epoll then Epoll.empty else s.epoll.forget fd }

/-- What `server` has opened at `fd`, if it is still open. -/
def ofServer (s : Server) (fd : Nat) : Bool := (s.descriptors fd).any Descriptor.ofServer

/-- `close(fd)` in `server`. -/
def closeOwn (s : Server) (fd : Nat) : Server :=
  { s.close fd with strays := if s.ofServer fd then s.strays else s.strays ++ [fd] }

/-- There is something to read from the eventfd or to accept from the listening socket. -/
def readable (s : Server) (fd : Nat) : Bool :=
  match s.descriptors fd with
  | some .event => 0 < s.counter
  | some .listener => 0 < s.backlog
  | _ => false

/-! ## The steps of `server` -/

/-- The message when the listening socket cannot be added to the epoll instance. -/
def refusal : Str := bytes "epool error on server fd"

def eventRefusal : Str := bytes "epoll error on eventfd"

/-- From `nonblock` to `listen`. -/
def setupStep (s : Server) (fd : Nat) : SetupPc → Result → Option Server
  | .getFlags, .ok => some { s with server := .setup fd .setFlags }
  | .getFlags, .failed => some (s.fatal (bytes "Error setting socket to non blocking"))
  | .setFlags, .ok => some { s with server := .setup fd .bind }
  | .setFlags, .failed =>
    some { s.perror (bytes "Error setting socket to non blocking") with server := .setup fd .bind }
  | .bind, .ok => some { s with server := .setup fd .listen }
  | .bind, .failed => some { s.perror (bytes "Bind failure") with server := .closing [fd] .exits }
  | .listen, .ok => some { s.setDescriptor fd (some .listener) with server := .epollCreate fd }
  | .listen, .failed =>
    some { s.perror (bytes "Listening failure") with server := .closing [fd] .exits }
  | _, _ => none

/-- `epoll_wait`, and how it ends: with the events that are ready, or, as long as there are none,
    because of a signal. -/
def waitStep (s : Server) (fds : ServerFds) (result : Result) : Option Server :=
  if s.descriptors fds.epoll = some .epoll then
    let (events, epoll) := s.epoll.report s.readable maxEvents
    if events = [] then if result = .interrupted then some s else none
    else if result = .ok then some { s with epoll := epoll, server := .loop fds (.scan events) }
    else none
  else if result = .failed then
    some { s.perror (bytes "epoll_wait") with server := .closing [fds.epoll, fds.server] .ends }
  else none

/-- The `while` loop of `server`. -/
def loopStep (s : Server) (fds : ServerFds) : PollPc → Result → Option Server
  | .wait, result => s.waitStep fds result
  | .scan [], .ok => some { s with server := .loop fds .wait }
  | .scan (fd :: events), .ok =>
    if (fd : Int) = s.efd then some { s with server := .loop fds (.read events) }
    else some { s with server := .loop fds (.scan events) }
  | .read events, .ok =>
    -- `read` waits for the eventfd to become positive
    if 0 < s.counter then some { s with counter := 0, server := .loop fds (.lock events) } else none
  | .lock events, .ok =>
    if s.shutdownMutex = none then
      some { s with shutdownMutex := some .server, server := .loop fds (.test events) }
    else none
  | .test events, .ok => some { s with server := .loop fds (.unlock events s.shutdownFlag) }
  | .unlock events flag, .ok =>
    let server := if flag then .closing [fds.epoll, fds.server] .ends else .loop fds (.scan events)
    some { s with shutdownMutex := none, server := server }
  | _, _ => none

/-- The calls of `close` that stand in a row, and what follows them. -/
def closingStep (s : Server) : List Nat → AfterClose → Option Server
  | fd :: todo, after => some { s.closeOwn fd with server := .closing todo after }
  | [], .exits => some (s.exit 1)
  | [], .addEvent fds => some { s with server := .addEvent fds }
  | [], .ends => some { s with server := .ended }

/-- A call that returns a new descriptor. -/
def openStep (s : Server) (fd : Nat) (d : Descriptor) (server : ServerPc) : Option Server :=
  if s.descriptors fd = none then some { s.setDescriptor fd (some d) with server := server } else none

/-- `epoll_ctl(epoll_fd, EPOLL_CTL_ADD, fd, &event)`; it can be refused at any time. -/
def addStep (s : Server) (epollFd : Nat) (fd : Int) (server : ServerPc) : Option Server :=
  if s.descriptors epollFd = some .epoll ∧ 0 ≤ fd ∧ s.descriptors fd.toNat ≠ none then
    some { s with epoll := s.epoll.add s.readable fd.toNat, server := server }
  else none

/-- One step of the server thread; `none` where it has to wait or the call cannot return so. -/
def serverStep (s : Server) (result : Result) : Option Server :=
  match s.server, result with
  | .socket, .fd n => s.openStep n .socket (.setup n .getFlags)
  | .socket, .failed => some (s.fatal (bytes "Socket creation failed"))
  | .setup fd pc, result => s.setupStep fd pc result
  | .epollCreate fd, .fd n => s.openStep n .epoll (.addServer ⟨fd, n⟩)
  | .epollCreate _, .failed => some (s.fatal (bytes "Error in epoll"))
  | .addServer fds, .ok => s.addStep fds.epoll fds.server (.addEvent fds)
  | .addServer fds, .failed =>
    some { s.perror refusal with server := .closing [fds.server, fds.epoll] (.addEvent fds) }
  | .addEvent fds, .ok => s.addStep fds.epoll s.efd (.loop fds .wait)
  | .addEvent fds, .failed =>
    some { s.perror eventRefusal with server := .closing [fds.server, fds.epoll] .ends }
  | .loop fds pc, result => s.loopStep fds pc result
  | .closing todo after, .ok => s.closingStep todo after
  | _, _ => none

/-! ## The steps of `main` -/

/-- `write(efd, &u, sizeof(uint64_t))` with `u == 1`. -/
def wake (s : Server) : Server :=
  if 0 ≤ s.efd ∧ s.descriptors s.efd.toNat = some .event then
    { s with counter := s.counter + 1, epoll := s.epoll.signal s.efd.toNat }
  else s

/-- `while (main_loop)`. -/
def loopTest (s : Server) : MainPc := if s.mainLoop then .command else .closeEfd

/-- `main` from `eventfd` on, and the branch `QUIT` of `process_command`. -/
def mainStep (s : Server) (result : Result) : Option Server :=
  match s.main, result with
  | .eventfd, .fd n =>
    if s.descriptors n = none then
      let s := { s.setDescriptor n (some .event) with efd := n, main := .create }
      -- `eventfd` fails with -1
      some (if n = 1 then s.fatal (bytes "eventfd") else s)
    else none
  | .eventfd, .failed => some { s with efd := -1, main := .create }
  | .create, .ok => some { s with server := .socket, main := s.loopTest }
  | .create, .failed => some { s with main := s.loopTest }
  | .stop, .ok => some { s with mainLoop := false, main := .lock }
  | .lock, .ok =>
    if s.shutdownMutex = none then some { s with shutdownMutex := some .main, main := .setFlag }
    else none
  | .setFlag, .ok => some { s with shutdownFlag := true, main := .unlock }
  | .unlock, .ok => some { s with shutdownMutex := none, main := .write }
  | .write, .ok => some { s.wake with main := .join }
  | .join, .ok => if s.server = .ended then some { s with main := .release } else none
  | .release, .ok => some { s with main := s.loopTest }
  | .closeEfd, .ok =>
    let s := if 0 ≤ s.efd then s.close s.efd.toNat else s
    some ({ s with main := .returned }.exit 0)
  | _, _ => none

/-- `process_command` reads a line; a command other than `QUIT` is done at once. -/
def inputStep (s : Server) (line : Option Str) : Option Server :=
  match s.main with
  | .command =>
    match line with
    | none => some (s.exit 0)
    | some line =>
      if strncmpEq 4 line (bytes "QUIT") then some { s with main := .stop }
      else some { s with main := s.loopTest }
  | _ => none

/-- `listen` has been called; what arrives is not accepted. -/
def arriveStep (s : Server) (fd : Nat) : Option Server :=
  if s.descriptors fd = some .listener then
    some { s with backlog := s.backlog + 1, epoll := s.epoll.signal fd }
  else none

def opensStep (s : Server) (fd : Nat) : Option Server :=
  if s.descriptors fd = none then some (s.setDescriptor fd (some .other)) else none

def closesStep (s : Server) (fd : Nat) : Option Server :=
  if s.descriptors fd = some .other then some (s.close fd) else none

def step (s : Server) (e : Event) : Option Server :=
  if s.exited = none then
    match e with
    | .main result => s.mainStep result
    | .input line => s.inputStep line
    | .server result => s.serverStep result
    | .arrive fd => s.arriveStep fd
    | .opens fd => s.opensStep fd
    | .closes fd => s.closesStep fd
  else none

abbrev Runs := Steps fun (s : Server) (e : Event) (t : Server) => s.step e = some t

section Steps

variable {s t : Server} {r : Result}

/-- `server` writes none of the variables of the other thread. -/
theorem serverStep_frame (h : s.serverStep r = some t) :
    t.main = s.main ∧ t.mainLoop = s.mainLoop ∧ t.shutdownFlag = s.shutdownFlag ∧ t.efd = s.efd := by
  unfold serverStep at h
  split at h
  · unfold openStep at h
    split at h <;> cases h
    exact ⟨rfl, rfl, rfl, rfl⟩
  · cases h
    exact ⟨rfl, rfl, rfl, rfl⟩
  · unfold setupStep at h
    split at h <;> cases h <;> exact ⟨rfl, rfl, rfl, rfl⟩
  · unfold openStep at h
    split at h <;> cases h
    exact ⟨rfl, rfl, rfl, rfl⟩
  · cases h
    exact ⟨rfl, rfl, rfl, rfl⟩
  · unfold addStep at h
    split at h <;> cases h
    exact ⟨rfl, rfl, rfl, rfl⟩
  · cases h
    exact ⟨rfl, rfl, rfl, rfl⟩
  · unfold addStep at h
    split at h <;> cases h
    exact ⟨rfl, rfl, rfl, rfl⟩
  · cases h
    exact ⟨rfl, rfl, rfl, rfl⟩
  · unfold loopStep waitStep at h
    repeat' split at h
    all_goals cases h
    all_goals exact ⟨rfl, rfl, rfl, rfl⟩
  · unfold closingStep at h
    split at h <;> cases h <;> exact ⟨rfl, rfl, rfl, rfl⟩
  · cases h

end Steps

end Server

end Btide
