import Mathlib.Logic.Function.Basic
import Btide.Peer.Life

/-!
# `Peer.Threads` — the threads at the peer list (`add_peer`, `remove_peer`, `client_thread`)

`Peer.Life` lets every list operation run to its end. Here the command loop and the client threads take
turns after each single access to a link of the list and after each call that locks or unlocks a mutex. The
command loop locks `peer_list_mutex`. A client thread locks the mutex in its package, and that is a copy:
`package -> peer_list_mutex = peer_list_mutex`. So no lock call ever waits for another thread, and two
critical sections can overlap. Two threads that both find the list empty then both store their peer in its
head, and one peer is lost (`peer_lost`).

The other way round, the missing exclusion is all that is wrong. In a run in which a mutex is only locked
while all others are open, as it would be with one mutex, no peer is lost (`no_peer_lost`). The invariant
`Kept` says for every program counter what its thread knows about the list.

`QUIT`, which releases the list, is not among the commands here, nor is `PEERS`, which only reads it.
-/

namespace Btide

/-! ## Program counters -/

/-- Where a client thread is, from the call of `client` on. -/
inductive ClientPc
  | connecting
  | locking
  /-- `*peer_list == NULL`. -/
  | testHead
  /-- `*peer_list = peer`. -/
  | storeHead
  /-- `current = *peer_list`. -/
  | loadHead
  /-- `current->next != NULL`. -/
  | testNext (current : Nat)
  /-- `current = current->next`. -/
  | loadNext (current : Nat)
  /-- `current->next = peer`. -/
  | storeNext (current : Nat)
  | unlocking
  | ended (connected : Bool)
deriving DecidableEq

/-- Where the command loop is, with the arguments of its command. -/
inductive LoopPc
  | command
  | connectLock (ip : Str) (port : Int32)
  /-- `get_peer(*peer_list, ip, port)`. -/
  | getHead (ip : Str) (port : Int32)
  | getTest (ip : Str) (port : Int32) (current : Option Nat)
  | getNext (ip : Str) (port : Int32) (current : Nat)
  | connectUnlock (ip : Str) (port : Int32) (existing : Bool)
  /-- The new record, its package and its thread. -/
  | create (ip : Str) (port : Int32)
  | disconnectLock (ip : Str) (port : Int32)
  /-- `current = *peer_list`. -/
  | removeHead (ip : Str) (port : Int32)
  | removeTest (ip : Str) (port : Int32) (previous current : Option Nat)
  /-- `previous = current; current = current->next`. -/
  | removeNext (ip : Str) (port : Int32) (current : Nat)
  /-- The value `current->next`. -/
  | removeRead (previous : Option Nat) (current : Nat)
  /-- It is stored in `*peer_list` or in `previous->next`. -/
  | removeWrite (previous : Option Nat) (current : Nat) (next : Option Nat)
  | removeFree (current : Nat)
  | disconnectUnlock
deriving DecidableEq

/-- Between the calls that lock and unlock. -/
def ClientPc.inside : ClientPc → Bool
  | .connecting => false
  | .locking => false
  | .ended _ => false
  | _ => true

def LoopPc.inside : LoopPc → Bool
  | .command => false
  | .connectLock _ _ => false
  | .create _ _ => false
  | .disconnectLock _ _ => false
  | _ => true

/-- The next step is a call that locks. -/
def LoopPc.locks : LoopPc → Bool
  | .connectLock _ _ => true
  | .disconnectLock _ _ => true
  | _ => false

/-- The peer has been linked. -/
def ClientPc.linked : ClientPc → Bool
  | .unlocking => true
  | .ended connected => connected
  | _ => false

/-! ## The state -/

/-- A client thread: whether the mutex in its package is locked, and where it is. -/
structure Client where
  mutex : Bool
  pc : ClientPc
deriving DecidableEq

/-- The records and the list, `peer_list_mutex`, the command loop, the client threads by their records,
    and the records that `remove_peer` has released. -/
structure Threads where
  peers : Heap (Node PeerInfo)
  peerList : Option Nat
  mutex : Bool
  loop : LoopPc
  clients : Nat → Option Client
  closed : List Nat

namespace Threads

def init : Threads where
  peers := Heap.empty
  peerList := none
  mutex := false
  loop := .command
  clients := fun _ => none
  closed := []

inductive Command
  | connect (ip : Str) (port : Int32)
  | disconnect (ip : Str) (port : Int32)
deriving DecidableEq

inductive Event
  /-- The command loop reads a command. -/
  | read (command : Command)
  /-- It takes a step; whether `pthread_create` succeeds, should this be the step. -/
  | loop (created : Bool)
  /-- The client thread of the record `peer` takes a step; the socket, if `client` connects. -/
  | client (peer : Nat) (sockfd : Option Int)
deriving DecidableEq

def setClient (s : Threads) (peer : Nat) (c : Client) : Threads :=
  { s with clients := Function.update s.clients peer (some c) }

/-! ## The steps

A step is `none` where the thread has to wait, has ended, or reads a record that has been released. -/

def readStep (s : Threads) (command : Command) : Option Threads :=
  match s.loop with
  | .command =>
    match command with
    | .connect ip port => some { s with loop := .connectLock ip port }
    | .disconnect ip port => some { s with loop := .disconnectLock ip port }
  | _ => none

/-- The commands `CONNECT` and `DISCONNECT` of `process_command`, with `get_peer` and `remove_peer`. -/
def loopStep (s : Threads) (created : Bool) : Option Threads :=
  match s.loop with
  | .command => none
  | .connectLock ip port =>
    if s.mutex then none else some { s with mutex := true, loop := .getHead ip port }
  | .getHead ip port => some { s with loop := .getTest ip port s.peerList }
  | .getTest ip port none => some { s with loop := .connectUnlock ip port false }
  | .getTest ip port (some current) => do
    let n ← s.peers.cells current
    if Life.isPeer ip port n.val then some { s with loop := .connectUnlock ip port true }
    else some { s with loop := .getNext ip port current }
  | .getNext ip port current => do
    let n ← s.peers.cells current
    some { s with loop := .getTest ip port n.next }
  | .connectUnlock ip port existing =>
    some { s with mutex := false, loop := if existing then .command else .create ip port }
  | .create ip port =>
    let peer := s.peers.next
    let peers := s.peers.alloc { val := { ip := ip, port := port, socketFd := none }, next := none }
    if created then
      -- the package gets a copy of the mutex
      let c := { mutex := s.mutex, pc := .connecting }
      some ({ s with peers := peers, loop := .command }.setClient peer c)
    else some { s with peers := peers.free peer, loop := .command }
  | .disconnectLock ip port =>
    if s.mutex then none else some { s with mutex := true, loop := .removeHead ip port }
  | .removeHead ip port => some { s with loop := .removeTest ip port none s.peerList }
  | .removeTest _ _ _ none => some { s with loop := .disconnectUnlock }
  | .removeTest ip port previous (some current) => do
    let n ← s.peers.cells current
    if Life.isPeer ip port n.val then some { s with loop := .removeRead previous current }
    else some { s with loop := .removeNext ip port current }
  | .removeNext ip port current => do
    let n ← s.peers.cells current
    some { s with loop := .removeTest ip port (some current) n.next }
  | .removeRead previous current => do
    let n ← s.peers.cells current
    some { s with loop := .removeWrite previous current n.next }
  | .removeWrite none current next => some { s with peerList := next, loop := .removeFree current }
  | .removeWrite (some previous) current next =>
    some { s with peers := setNext s.peers previous next, loop := .removeFree current }
  | .removeFree current =>
    some { s with
      peers := s.peers.free current
      closed := s.closed ++ [current]
      loop := .disconnectUnlock }
  | .disconnectUnlock => some { s with mutex := false, loop := .command }

/-- `client_thread`, with `add_peer`. -/
def clientStep (s : Threads) (peer : Nat) (sockfd : Option Int) : Option Threads := do
  let c ← s.clients peer
  match c.pc with
  | .connecting =>
    match sockfd with
    | none => some ({ s with peers := s.peers.free peer }.setClient peer { c with pc := .ended false })
    | some fd =>
      let peers := s.peers.modify peer fun n => { n with val := { n.val with socketFd := some fd } }
      some ({ s with peers := peers }.setClient peer { c with pc := .locking })
  | .locking => if c.mutex then none else some (s.setClient peer { mutex := true, pc := .testHead })
  | .testHead =>
    match s.peerList with
    | none => some (s.setClient peer { c with pc := .storeHead })
    | some _ => some (s.setClient peer { c with pc := .loadHead })
  | .storeHead => some ({ s with peerList := some peer }.setClient peer { c with pc := .unlocking })
  | .loadHead => do
    let current ← s.peerList
    some (s.setClient peer { c with pc := .testNext current })
  | .testNext current => do
    let n ← s.peers.cells current
    match n.next with
    | none => some (s.setClient peer { c with pc := .storeNext current })
    | some _ => some (s.setClient peer { c with pc := .loadNext current })
  | .loadNext current => do
    let n ← s.peers.cells current
    let next ← n.next
    some (s.setClient peer { c with pc := .testNext next })
  | .storeNext current => do
    let _ ← s.peers.cells current
    let peers := setNext s.peers current (some peer)
    some ({ s with peers := peers }.setClient peer { c with pc := .unlocking })
  | .unlocking => some (s.setClient peer { mutex := false, pc := .ended true })
  | .ended _ => none

def step (s : Threads) : Event → Option Threads
  | .read command => s.readStep command
  | .loop created => s.loopStep created
  | .client peer sockfd => s.clientStep peer sockfd

abbrev Runs := Steps fun (s : Threads) (e : Event) (t : Threads) => s.step e = some t

/-! ## What should hold -/

/-- The command loop is between two commands and every client thread has ended. -/
structure Finished (s : Threads) : Prop where
  loop : s.loop = .command
  clients : ∀ peer c, s.clients peer = some c → ∃ connected, c.pc = .ended connected

/-- Every peer that was connected and not removed is in the list exactly once. -/
def NoPeerLost (s : Threads) : Prop :=
  ∃ L, Chain (links s.peers) s.peerList L ∧
    ∀ peer c, s.clients peer = some c → c.pc = .ended true → peer ∉ s.closed → L.count peer = 1

/-- No mutex is locked, neither `peer_list_mutex` nor one of its copies. -/
structure Unlocked (s : Threads) : Prop where
  loop : s.mutex = false
  clients : ∀ peer c, s.clients peer = some c → c.mutex = false

/-- If the event locks a mutex, all of them are open. -/
def Careful (s : Threads) : Event → Prop
  | .read _ => True
  | .loop _ => s.loop.locks = true → s.Unlocked
  | .client peer _ => ∀ c, s.clients peer = some c → c.pc = .locking → s.Unlocked

/-- Every mutex that is locked in the run is locked while all are open. -/
def CarefulRun (es : List Event) : Prop :=
  EachStep (fun (s : Threads) (e : Event) (t : Threads) => s.step e = some t) Careful init es

/-! ## The invariant -/

/-- The record is alive, links to nothing and is not in the list. -/
def Unlinked (s : Threads) (L : List Nat) (peer : Nat) : Prop :=
  links s.peers peer = some none ∧ peer ∉ L

/-- What the client thread of `peer` knows about the list `L`. -/
def ClientKnows (s : Threads) (L : List Nat) (peer : Nat) : ClientPc → Prop
  | .connecting => s.Unlinked L peer
  | .locking => s.Unlinked L peer
  | .testHead => s.Unlinked L peer
  | .storeHead => s.Unlinked L peer ∧ L = []
  | .loadHead => s.Unlinked L peer ∧ L ≠ []
  | .testNext current => s.Unlinked L peer ∧ current ∈ L
  | .loadNext current => s.Unlinked L peer ∧ ∃ M next N, L = M ++ current :: next :: N
  | .storeNext current => s.Unlinked L peer ∧ ∃ M, L = M ++ [current]
  | .unlocking => peer ∈ L
  | .ended true => peer ∈ L ∨ peer ∈ s.closed ∨ s.loop = .removeFree peer
  | .ended false => peer ∉ L

/-- What the command loop knows about the list `L`. -/
def LoopKnows (s : Threads) (L : List Nat) : LoopPc → Prop
  | .getTest _ _ current => ∀ a, current = some a → a ∈ L
  | .getNext _ _ current => current ∈ L
  | .removeTest _ _ previous current =>
    ∃ M N, L = M ++ N ∧ previous = M.getLast? ∧ current = N.head?
  | .removeNext _ _ current => current ∈ L
  | .removeRead previous current => ∃ M N, L = M ++ current :: N ∧ previous = M.getLast?
  | .removeWrite previous current next =>
    ∃ M N, L = M ++ current :: N ∧ previous = M.getLast? ∧ next = N.head?
  | .removeFree current =>
    current ∉ L ∧ ∃ c, s.clients current = some c ∧ c.pc = .ended true
  | _ => True

/-- The parties: the command loop is `none`, a client thread is known by its record. -/
def Inside (s : Threads) : Option Nat → Prop
  | none => s.loop.inside = true
  | some peer => ∃ c, s.clients peer = some c ∧ c.pc.inside = true

/-- `L` is the list, a mutex is locked by the party inside its critical section only, at most one party is
    there, and every party is right about the list. -/
structure Kept (s : Threads) (L : List Nat) : Prop where
  chain : Chain (links s.peers) s.peerList L
  mutex : s.mutex = s.loop.inside
  mutexes : ∀ peer c, s.clients peer = some c → c.mutex = c.pc.inside
  alone : ∀ p q, s.Inside p → s.Inside q → p = q
  loopKnows : s.LoopKnows L s.loop
  clientKnows : ∀ peer c, s.clients peer = some c → s.ClientKnows L peer c.pc
  members : ∀ peer ∈ L, ∃ c, s.clients peer = some c ∧ c.pc.linked = true
  fresh : ∀ peer, s.peers.next ≤ peer → s.clients peer = none

section Kept

variable {s t : Threads} {L M : List Nat} {peer : Nat} {c c' : Client}

theorem setClient_self (s : Threads) (peer : Nat) (c : Client) :
    (s.setClient peer c).clients peer = some c := Function.update_self ..

theorem setClient_ne {other : Nat} (h : other ≠ peer) (s : Threads) (c : Client) :
    (s.setClient peer c).clients other = s.clients other := Function.update_of_ne h ..

/-- What holds of all client threads after one of them has moved. -/
theorem forall_setClient {P : Nat → Client → Prop} (hself : P peer c)
    (hother : ∀ a d, a ≠ peer → s.clients a = some d → P a d) :
    ∀ a d, (s.setClient peer c).clients a = some d → P a d := by
  intro a d hd
  by_cases ha : a = peer
  · subst ha
    rw [setClient_self] at hd
    cases hd
    exact hself
  · rw [setClient_ne ha] at hd
    exact hother a d ha hd

theorem init_kept : init.Kept [] where
  chain := chain_nil.mpr rfl
  mutex := rfl
  mutexes := fun _ _ h => by cases h
  alone := by
    intro p q hp hq
    cases p with
    | none => cases hp
    | some peer =>
        obtain ⟨c, hc, _⟩ := hp
        cases hc
  loopKnows := trivial
  clientKnows := fun _ _ h => by cases h
  members := fun _ h => by cases h
  fresh := fun _ _ => rfl

/-- If all mutexes are open nobody is in a critical section. -/
theorem Kept.nobody (h : s.Kept L) (hopen : s.Unlocked) (p : Option Nat) : ¬ s.Inside p := by
  intro hp
  cases p with
  | none =>
      have hloop : s.loop.inside = true := hp
      rw [← h.mutex, hopen.loop] at hloop
      cases hloop
  | some peer =>
      obtain ⟨c, hc, hin⟩ := hp
      rw [← h.mutexes peer c hc, hopen.clients peer c hc] at hin
      cases hin

/-- At most one party stays inside if parties enter only while nobody is. -/
theorem Kept.alone_of (h : s.Kept L) {x : Option Nat}
    (hinside : ∀ p, t.Inside p → s.Inside p ∨ (p = x ∧ s.Unlocked)) :
    ∀ p q, t.Inside p → t.Inside q → p = q := by
  intro p q hp hq
  rcases hinside p hp with hp | ⟨rfl, hopen⟩
  · rcases hinside q hq with hq | ⟨_, hopen⟩
    · exact h.alone p q hp hq
    · exact absurd hp (h.nobody hopen p)
  · rcases hinside q hq with hq | ⟨rfl, _⟩
    · exact absurd hq (h.nobody hopen q)
    · rfl

/-- What a client thread knows stays true if the list and the record do not change. -/
theorem ClientKnows.congr {pc : ClientPc} (h : s.ClientKnows L peer pc)
    (hlink : peer ∉ L → links t.peers peer = links s.peers peer)
    (hclosed : peer ∈ s.closed → peer ∈ t.closed)
    (hloop : s.loop = .removeFree peer → t.loop = .removeFree peer ∨ peer ∈ t.closed) :
    t.ClientKnows L peer pc := by
  have hunlinked : s.Unlinked L peer → t.Unlinked L peer := by
    rintro ⟨hu, hL⟩
    exact ⟨(hlink hL).trans hu, hL⟩
  cases pc with
  | connecting => exact hunlinked h
  | locking => exact hunlinked h
  | testHead => exact hunlinked h
  | storeHead => exact ⟨hunlinked h.1, h.2⟩
  | loadHead => exact ⟨hunlinked h.1, h.2⟩
  | testNext current => exact ⟨hunlinked h.1, h.2⟩
  | loadNext current => exact ⟨hunlinked h.1, h.2⟩
  | storeNext current => exact ⟨hunlinked h.1, h.2⟩
  | unlocking => exact h
  | ended connected =>
      cases connected with
      | false => exact h
      | true =>
          rcases h with hL | hgone | hfree
          · exact Or.inl hL
          · exact Or.inr (Or.inl (hclosed hgone))
          · exact Or.inr ((hloop hfree).symm)

/-- Outside its critical section a client thread knows only whether its own peer is in the list. -/
theorem ClientKnows.outside {pc : ClientPc} (h : s.ClientKnows L peer pc) (hpc : pc.inside = false)
    (hlink : peer ∉ L → links t.peers peer = links s.peers peer) (hout : peer ∉ L → peer ∉ M)
    (hin : peer ∈ L → pc = .ended true → peer ∈ M ∨ t.loop = .removeFree peer)
    (hclosed : t.closed = s.closed) (hloop : s.loop = .removeFree peer → t.loop = .removeFree peer) :
    t.ClientKnows M peer pc := by
  have hunlinked : s.Unlinked L peer → t.Unlinked M peer := by
    rintro ⟨hu, hL⟩
    exact ⟨(hlink hL).trans hu, hout hL⟩
  cases pc with
  | connecting => exact hunlinked h
  | locking => exact hunlinked h
  | ended connected =>
      cases connected with
      | false => exact hout h
      | true =>
          rcases h with hL | hgone | hfree
          · exact (hin hL rfl).imp id Or.inr
          · exact Or.inr (Or.inl (hclosed ▸ hgone))
          · exact Or.inr (Or.inr (hloop hfree))
  | _ => cases hpc

/-- Outside its critical sections the command loop knows nothing. -/
theorem loopKnows_outside {pc : LoopPc} (hpc : pc.inside = false) (s : Threads) (L : List Nat) :
    s.LoopKnows L pc := by
  cases pc with
  | command => trivial
  | connectLock ip port => trivial
  | create ip port => trivial
  | disconnectLock ip port => trivial
  | _ => cases hpc

/-- What the loop knows mentions no client thread but the one whose peer it has taken out. -/
theorem LoopKnows.congr {pc : LoopPc} (h : s.LoopKnows L pc)
    (hclients : ∀ a c, s.clients a = some c → c.pc = .ended true → t.clients a = some c) :
    t.LoopKnows L pc := by
  cases pc with
  | removeFree current =>
      obtain ⟨hL, c, hc, hpc⟩ := h
      exact ⟨hL, c, hclients current c hc hpc, hpc⟩
  | _ => exact h

/-- A step of the command loop that changes neither list nor threads. -/
theorem Kept.loopOnly (h : s.Kept L) {pc₀ pc : LoopPc} (hloop : s.loop = pc₀)
    (hfree : ∀ a, pc₀ ≠ .removeFree a) (henter : pc.inside = true → pc₀.inside = true ∨ s.Unlocked)
    (hknows : s.LoopKnows L pc) :
    Kept { s with mutex := pc.inside, loop := pc } L where
  chain := h.chain
  mutex := rfl
  mutexes := h.mutexes
  alone := by
    refine h.alone_of (x := none) fun p hp => ?_
    cases p with
    | none => exact (henter hp).imp (fun hin => (congrArg _ hloop).trans hin) fun hopen => ⟨rfl, hopen⟩
    | some a => exact Or.inl hp
  loopKnows := hknows.congr fun _ _ hc _ => hc
  clientKnows := fun a c hc =>
    (h.clientKnows a c hc).congr (fun _ => rfl) id fun heq => absurd (hloop.symm.trans heq) (hfree a)
  members := h.members
  fresh := h.fresh

/-- The parties inside after a step of the client thread of `peer`. -/
theorem inside_setClient (henter : c'.pc.inside = true → c.pc.inside = true ∨ s.Unlocked)
    (hc : s.clients peer = some c) (hclients : t.clients = Function.update s.clients peer (some c'))
    (hloop : t.loop = s.loop) (p : Option Nat) (hp : t.Inside p) :
    s.Inside p ∨ (p = some peer ∧ s.Unlocked) := by
  cases p with
  | none =>
      have hin : t.loop.inside = true := hp
      rw [hloop] at hin
      exact Or.inl hin
  | some a =>
      obtain ⟨d, hd, hin⟩ := hp
      rw [hclients] at hd
      by_cases ha : a = peer
      · subst ha
        rw [Function.update_self] at hd
        cases hd
        exact (henter hin).imp (fun hin => ⟨c, hc, hin⟩) fun hopen => ⟨rfl, hopen⟩
      · rw [Function.update_of_ne ha] at hd
        exact Or.inl ⟨d, hd, hin⟩

/-- The records of the client threads, and so those of the list, have been handed out. -/
theorem Kept.client_lt (h : s.Kept L) {a : Nat} {d : Client} (hd : s.clients a = some d) :
    a < s.peers.next := by
  by_contra hge
  rw [h.fresh a (Nat.le_of_not_lt hge)] at hd
  cases hd

theorem Kept.member_lt (h : s.Kept L) {a : Nat} (ha : a ∈ L) : a < s.peers.next := by
  obtain ⟨d, hd, _⟩ := h.members a ha
  exact h.client_lt hd

theorem Kept.fresh_setClient (h : s.Kept L) (hc : s.clients peer = some c)
    {peers : Heap (Node PeerInfo)} (hnext : peers.next = s.peers.next) {a : Nat}
    (ha : peers.next ≤ a) : (s.setClient peer c').clients a = none := by
  rw [hnext] at ha
  rw [setClient_ne (Nat.ne_of_gt (Nat.lt_of_lt_of_le (h.client_lt hc) ha))]
  exact h.fresh a ha

/-- A step of the client thread of `peer` that leaves the list as it is. -/
theorem Kept.clientOnly (h : s.Kept L) (hc : s.clients peer = some c) {peers : Heap (Node PeerInfo)}
    (hchain : Chain (links peers) s.peerList L) (hnext : peers.next = s.peers.next)
    (hlinks : ∀ a, a ≠ peer → a ∉ L → links peers a = links s.peers a)
    (hmutex : c'.mutex = c'.pc.inside)
    (henter : c'.pc.inside = true → c.pc.inside = true ∨ s.Unlocked)
    (hended : ∀ b, c.pc ≠ .ended b) (hlinked : c.pc.linked = true → c'.pc.linked = true)
    (hknows : Threads.ClientKnows { s with peers := peers } L peer c'.pc) :
    Kept ({ s with peers := peers }.setClient peer c') L where
  chain := hchain
  mutex := h.mutex
  mutexes := forall_setClient hmutex fun a d _ hd => h.mutexes a d hd
  alone := h.alone_of (inside_setClient henter hc rfl rfl)
  loopKnows := by
    refine h.loopKnows.congr fun a d hd hpc => ?_
    have ha : a ≠ peer := by
      rintro rfl
      rw [hc] at hd
      cases hd
      exact hended true hpc
    rw [setClient_ne ha]
    exact hd
  clientKnows := by
    refine forall_setClient (hknows.congr (fun _ => rfl) id Or.inl) fun a d ha hd => ?_
    exact (h.clientKnows a d hd).congr (hlinks a ha) id Or.inl
  members := by
    intro a ha
    obtain ⟨d, hd, hlink⟩ := h.members a ha
    by_cases hap : a = peer
    · subst hap
      rw [hc] at hd
      cases hd
      exact ⟨c', setClient_self _ _ _, hlinked hlink⟩
    · exact ⟨d, by rw [setClient_ne hap]; exact hd, hlink⟩
  fresh := fun _ ha => h.fresh_setClient hc hnext ha

/-- The client thread of `peer` links it behind the list. -/
theorem Kept.clientAppend (h : s.Kept L) (hc : s.clients peer = some c) (hin : c.pc.inside = true)
    {peers : Heap (Node PeerInfo)} {peerList : Option Nat}
    (hchain : Chain (links peers) peerList (L ++ [peer])) (hnext : peers.next = s.peers.next)
    (hlinks : ∀ a, a ∉ L → links peers a = links s.peers a) :
    Kept ({ s with peers := peers, peerList := peerList }.setClient peer { c with pc := .unlocking })
      (L ++ [peer]) where
  chain := hchain
  mutex := h.mutex
  mutexes := by
    refine forall_setClient ?_ fun a d _ hd => h.mutexes a d hd
    show c.mutex = true
    rw [h.mutexes peer c hc, hin]
  alone := h.alone_of (inside_setClient (fun _ => Or.inl hin) hc rfl rfl)
  loopKnows := by
    -- the command loop is outside
    refine loopKnows_outside ?_ _ _
    rw [← Bool.not_eq_true]
    intro hloop
    cases h.alone none (some peer) hloop ⟨c, hc, hin⟩
  clientKnows := by
    refine forall_setClient (List.mem_append_right L List.mem_cons_self) fun a d ha hd => ?_
    have hout : d.pc.inside = false := by
      rw [← Bool.not_eq_true]
      intro hd'
      exact ha (Option.some.inj (h.alone (some a) (some peer) ⟨d, hd, hd'⟩ ⟨c, hc, hin⟩))
    refine (h.clientKnows a d hd).outside hout (hlinks a) ?_ ?_ rfl id
    · intro haL hmem
      rcases List.mem_append.mp hmem with hmem | hmem
      · exact haL hmem
      · exact ha (List.mem_singleton.mp hmem)
    · intro haL _
      exact Or.inl (List.mem_append_left _ haL)
  members := by
    intro a ha
    by_cases hap : a = peer
    · subst hap
      exact ⟨_, setClient_self _ _ _, rfl⟩
    · rcases List.mem_append.mp ha with ha | ha
      · obtain ⟨d, hd, hlink⟩ := h.members a ha
        exact ⟨d, by rw [setClient_ne hap]; exact hd, hlink⟩
      · exact absurd (List.mem_singleton.mp ha) hap
  fresh := fun _ ha => h.fresh_setClient hc hnext ha

/-- A step that only moves the client thread of `peer`. -/
theorem Kept.clientMoves (h : s.Kept L) (hc : s.clients peer = some c)
    (hmutex : c'.mutex = c'.pc.inside)
    (henter : c'.pc.inside = true → c.pc.inside = true ∨ s.Unlocked)
    (hended : ∀ b, c.pc ≠ .ended b) (hlinked : c.pc.linked = true → c'.pc.linked = true)
    (hknows : s.ClientKnows L peer c'.pc) : (s.setClient peer c').Kept L :=
  h.clientOnly hc h.chain rfl (fun _ _ _ => rfl) hmutex henter hended hlinked hknows

/-- The same within its critical section. -/
theorem Kept.movesInside (h : s.Kept L) (hc : s.clients peer = some c) (hin : c.pc.inside = true)
    (hnot : c.pc.linked = false) {pc : ClientPc} (hin' : pc.inside = true)
    (hknows : s.ClientKnows L peer pc) : (s.setClient peer { c with pc := pc }).Kept L := by
  refine h.clientMoves hc ?_ (fun _ => Or.inl hin) ?_ ?_ hknows
  · show c.mutex = pc.inside
    rw [h.mutexes peer c hc, hin, hin']
  · intro b hb
    rw [hb] at hin
    cases hin
  · intro hlinked
    rw [hnot] at hlinked
    cases hlinked

/-- What a record of the list links to. -/
theorem Kept.cell (h : s.Kept L) {current : Nat} {M N : List Nat} (hL : L = M ++ current :: N) :
    ∃ n, s.peers.cells current = some n ∧ n.next = N.head? := by
  subst hL
  exact links_eq_some h.chain.link_eq

/-- A client thread that is still connecting: its record is linked to nothing. -/
theorem Kept.unlinked (h : s.Kept L) (hc : s.clients peer = some c) (hpc : c.pc = .connecting) :
    s.Unlinked L peer := by
  have hknows := h.clientKnows peer c hc
  rw [hpc] at hknows
  exact hknows

/-- The client thread of `peer` leaves `connecting`, having changed the record of `peer` alone. -/
theorem Kept.leavesConnecting (h : s.Kept L) (hc : s.clients peer = some c)
    (hpc : c.pc = .connecting) {peers : Heap (Node PeerInfo)} {pc : ClientPc}
    (hnext : peers.next = s.peers.next) (hlinks : ∀ a, a ≠ peer → links peers a = links s.peers a)
    (hout : pc.inside = false) (hknows : Threads.ClientKnows { s with peers := peers } L peer pc) :
    Kept ({ s with peers := peers }.setClient peer { c with pc := pc }) L := by
  have hmutex := h.mutexes peer c hc
  have hL : peer ∉ L := (h.unlinked hc hpc).2
  rw [hpc] at hmutex
  refine h.clientOnly hc ?_ hnext (fun a ha _ => hlinks a ha) ?_ ?_ ?_ ?_ hknows
  · exact h.chain.congr fun a ha => hlinks a (ne_of_mem_of_not_mem ha hL)
  · rw [hout]
    exact hmutex
  · intro hin
    rw [hout] at hin
    cases hin
  · intro b hb
    rw [hpc] at hb
    cases hb
  · intro hlinked
    rw [hpc] at hlinked
    cases hlinked

theorem Kept.notConnected (h : s.Kept L) (hc : s.clients peer = some c) (hpc : c.pc = .connecting) :
    Kept ({ s with peers := s.peers.free peer }.setClient peer { c with pc := .ended false }) L :=
  h.leavesConnecting hc hpc rfl (fun _ ha => links_free_ne ha) rfl (h.unlinked hc hpc).2

theorem Kept.connected (h : s.Kept L) (hc : s.clients peer = some c) (hpc : c.pc = .connecting)
    (fd : Int) :
    Kept ({ s with peers := s.peers.modify peer fun n =>
      { n with val := { n.val with socketFd := some fd } } }.setClient peer { c with pc := .locking })
      L := by
  -- the socket is stored, and no link changes
  let store := fun n : Node PeerInfo => { n with val := { n.val with socketFd := some fd } }
  have hlinks := links_modify (f := store) (fun _ => rfl) s.peers peer
  obtain ⟨hlink, hL⟩ := h.unlinked hc hpc
  refine h.leavesConnecting hc hpc rfl (fun a _ => hlinks a) rfl ⟨?_, hL⟩
  exact (hlinks peer).trans hlink

/-- The client thread of `peer` sets the link of the last record. -/
theorem Kept.storesNext (h : s.Kept L) {current : Nat} (hc : s.clients peer = some c)
    (hpc : c.pc = .storeNext current) :
    ∃ M, Kept ({ s with peers := setNext s.peers current (some peer) }.setClient peer
      { c with pc := .unlocking }) M := by
  have hknows := h.clientKnows peer c hc
  rw [hpc] at hknows
  obtain ⟨⟨hlink, hnot⟩, M, hL⟩ := hknows
  obtain ⟨n, hn, _⟩ := h.cell hL
  have hin : c.pc.inside = true := congrArg ClientPc.inside hpc
  have hcur : current ∈ L := by simp [hL]
  refine ⟨L ++ [peer], h.clientAppend hc hin ?_ rfl fun a ha => links_setNext_ne ?_ _⟩
  · have hchain := h.chain
    have hne : peer ≠ current := (ne_of_mem_of_not_mem hcur hnot).symm
    subst hL
    rw [List.append_assoc]
    apply hchain.append (links_setNext_self hn _) ((links_setNext_ne hne _).trans hlink)
    intro x hx
    apply links_setNext_ne
    rintro rfl
    exact (List.disjoint_of_nodup_append hchain.nodup) hx List.mem_cons_self
  · exact (ne_of_mem_of_not_mem hcur ha).symm

/-- **Step lemma of the client threads.** -/
theorem clientStep_kept {sockfd : Option Int} (h : s.Kept L)
    (hcareful : s.Careful (.client peer sockfd)) (hstep : s.clientStep peer sockfd = some t) :
    ∃ M, t.Kept M := by
  obtain ⟨c, hc, hstep⟩ := Option.bind_eq_some_iff.mp hstep
  obtain ⟨mutex, pc⟩ := c
  have hmutex := h.mutexes peer _ hc
  have hknows := h.clientKnows peer _ hc
  cases pc with
  | connecting =>
      cases sockfd with
      | none =>
          cases hstep
          exact ⟨L, h.notConnected hc rfl⟩
      | some fd =>
          cases hstep
          exact ⟨L, h.connected hc rfl fd⟩
  | locking =>
      have hopen : s.Unlocked := hcareful _ hc rfl
      have hfalse : mutex = false := hmutex
      subst hfalse
      cases hstep
      refine ⟨L, h.clientMoves hc rfl (fun _ => Or.inr hopen) ?_ ?_ hknows⟩
      · intro b hb
        cases hb
      · intro hb
        cases hb
  | testHead =>
      cases L with
      | nil =>
          have hlist : s.peerList = none := h.chain
          simp only [hlist] at hstep
          cases hstep
          exact ⟨[], h.movesInside hc rfl rfl rfl ⟨hknows, rfl⟩⟩
      | cons a L =>
          have hlist : s.peerList = some a := h.chain.1
          simp only [hlist] at hstep
          cases hstep
          exact ⟨a :: L, h.movesInside hc rfl rfl rfl ⟨hknows, List.cons_ne_nil a L⟩⟩
  | storeHead =>
      obtain ⟨⟨hlink, hL⟩, rfl⟩ := hknows
      cases hstep
      refine ⟨[] ++ [peer], h.clientAppend hc rfl ?_ rfl fun a _ => rfl⟩
      exact ⟨rfl, none, hlink, rfl⟩
  | loadHead =>
      obtain ⟨hu, hL⟩ := hknows
      obtain ⟨a, L, rfl⟩ := List.exists_cons_of_ne_nil hL
      have hlist : s.peerList = some a := h.chain.1
      simp only [hlist] at hstep
      cases hstep
      exact ⟨a :: L, h.movesInside hc rfl rfl rfl ⟨hu, List.mem_cons_self⟩⟩
  | testNext current =>
      obtain ⟨hu, hcur⟩ := hknows
      obtain ⟨M, N, hL⟩ := List.append_of_mem hcur
      obtain ⟨n, hn, hnext⟩ := h.cell hL
      cases N with
      | nil =>
          simp only [hn, Option.bind_eq_bind, Option.bind_some, hnext, List.head?_nil] at hstep
          cases hstep
          exact ⟨L, h.movesInside hc rfl rfl rfl ⟨hu, M, hL⟩⟩
      | cons b N =>
          simp only [hn, Option.bind_eq_bind, Option.bind_some, hnext, List.head?_cons] at hstep
          cases hstep
          exact ⟨L, h.movesInside hc rfl rfl rfl ⟨hu, M, b, N, hL⟩⟩
  | loadNext current =>
      obtain ⟨hu, M, b, N, hL⟩ := hknows
      obtain ⟨n, hn, hnext⟩ := h.cell hL
      simp only [hn, Option.bind_eq_bind, Option.bind_some, hnext, List.head?_cons] at hstep
      cases hstep
      exact ⟨L, h.movesInside hc rfl rfl rfl ⟨hu, by simp [hL]⟩⟩
  | storeNext current =>
      obtain ⟨_, M, hL⟩ := hknows
      obtain ⟨n, hn, _⟩ := h.cell hL
      simp only [hn, Option.bind_eq_bind, Option.bind_some] at hstep
      cases hstep
      exact h.storesNext hc rfl
  | unlocking =>
      cases hstep
      refine ⟨L, h.clientMoves hc rfl ?_ ?_ (fun _ => rfl) (Or.inl hknows)⟩
      · intro hin
        cases hin
      · intro b hb
        cases hb
  | ended b => cases hstep

/-- A step of the command loop within a critical section that leaves list and records as they are. -/
theorem Kept.loopMoves (h : s.Kept L) {pc₀ pc : LoopPc} (hloop : s.loop = pc₀)
    (hin : pc₀.inside = true) (hfree : ∀ a, pc₀ ≠ .removeFree a) (hin' : pc.inside = true)
    (hknows : s.LoopKnows L pc) : Kept { s with loop := pc } L := by
  have hkept := h.loopOnly hloop hfree (fun _ => Or.inl hin) hknows
  rw [hin', ← hin, ← hloop, ← h.mutex] at hkept
  exact hkept

/-- A step of the command loop that leaves a critical section, or stays outside of one. -/
theorem Kept.loopLeaves (h : s.Kept L) {pc₀ pc : LoopPc} (hloop : s.loop = pc₀)
    (hfree : ∀ a, pc₀ ≠ .removeFree a) (hout : pc.inside = false) :
    Kept { s with mutex := false, loop := pc } L := by
  have henter : pc.inside = true → pc₀.inside = true ∨ s.Unlocked := by
    intro hin
    rw [hout] at hin
    cases hin
  have hkept := h.loopOnly hloop hfree henter (loopKnows_outside hout s L)
  rw [hout] at hkept
  exact hkept

/-- While the command loop is in a critical section no client thread is. -/
theorem Kept.clientOutside (h : s.Kept L) (hin : s.loop.inside = true) {a : Nat} {d : Client}
    (hd : s.clients a = some d) : d.pc.inside = false := by
  rw [← Bool.not_eq_true]
  intro hd'
  cases h.alone none (some a) hin ⟨d, hd, hd'⟩

/-- The command loop takes the record `current` out of the list. -/
theorem Kept.removed (h : s.Kept L) {previous next : Option Nat} {current : Nat} {N K : List Nat}
    (hL : L = N ++ current :: K) (hloop : s.loop = .removeWrite previous current next)
    {peers : Heap (Node PeerInfo)} {peerList : Option Nat}
    (hchain : Chain (links peers) peerList (N ++ K)) (hnext : peers.next = s.peers.next)
    (hlinks : ∀ a, a ∉ L → links peers a = links s.peers a) :
    Kept { s with peers := peers, peerList := peerList, loop := .removeFree current } (N ++ K) := by
  have hin : s.loop.inside = true := congrArg LoopPc.inside hloop
  have hnodup := h.chain.nodup
  subst hL
  have hgone : current ∉ N ++ K := (List.nodup_middle.mp hnodup).notMem
  have hsub : ∀ a ∈ N ++ K, a ∈ N ++ current :: K := by
    intro a ha
    rw [List.mem_append] at ha ⊢
    exact ha.imp id (List.mem_cons_of_mem current)
  refine ⟨hchain, h.mutex.trans hin, h.mutexes, ?_, ?_, ?_, ?_, ?_⟩
  · refine h.alone_of (x := none) fun p hp => Or.inl ?_
    cases p with
    | none => exact hin
    | some a => exact hp
  · obtain ⟨c, hc, hlinked⟩ := h.members current (by simp)
    refine ⟨hgone, c, hc, ?_⟩
    -- the thread of a linked peer that is not inside has ended
    have hout := h.clientOutside hin hc
    cases hpc : c.pc with
    | ended connected =>
        rw [hpc] at hlinked
        rw [show connected = true from hlinked]
    | unlocking =>
        rw [hpc] at hout
        cases hout
    | _ =>
        rw [hpc] at hlinked
        cases hlinked
  · intro a d hd
    refine (h.clientKnows a d hd).outside (h.clientOutside hin hd) (hlinks a) ?_ ?_ rfl ?_
    · intro ha hmem
      exact ha (hsub a hmem)
    · intro ha _
      by_cases hac : a = current
      · exact Or.inr (by rw [hac])
      · apply Or.inl
        rw [List.mem_append, List.mem_cons] at ha
        rw [List.mem_append]
        exact ha.imp id fun ha => ha.resolve_left hac
    · intro heq
      cases hloop.symm.trans heq
  · intro a ha
    exact h.members a (hsub a ha)
  · intro a ha
    exact h.fresh a (hnext ▸ ha)

/-- It stores the link of the first record in `*peer_list`. -/
theorem Kept.removesHead (h : s.Kept L) {current : Nat} {next : Option Nat}
    (hloop : s.loop = .removeWrite none current next) :
    ∃ M, Kept { s with peerList := next, loop := .removeFree current } M := by
  have hknows := h.loopKnows
  rw [hloop] at hknows
  obtain ⟨M, N, hL, hprevious, hnext⟩ := hknows
  obtain rfl : M = [] := List.getLast?_eq_none_iff.mp hprevious.symm
  refine ⟨[] ++ N, h.removed hL hloop ?_ rfl fun _ _ => rfl⟩
  have hchain := h.chain
  rw [hL] at hchain
  apply hchain.tail
  rw [hnext]
  exact hchain.link_eq (L := [])

/-- It stores the link of `current` in the record before it. -/
theorem Kept.removesBehind (h : s.Kept L) {previous current : Nat} {next : Option Nat}
    (hloop : s.loop = .removeWrite (some previous) current next) :
    ∃ M, Kept { s with peers := setNext s.peers previous next, loop := .removeFree current } M := by
  have hknows := h.loopKnows
  rw [hloop] at hknows
  obtain ⟨M, N, hL, hprevious, hnext⟩ := hknows
  obtain ⟨K, rfl⟩ : ∃ K, M = K ++ [previous] := List.getLast?_eq_some_iff.mp hprevious.symm
  have hb : previous ∈ L := by simp [hL]
  refine ⟨K ++ [previous] ++ N, h.removed hL hloop ?_ rfl fun a ha => ?_⟩
  · have hchain := h.chain
    rw [hL] at hchain
    have hcurrent : links s.peers current = some next := by
      rw [hnext]
      exact hchain.link_eq
    rw [List.append_assoc, List.singleton_append] at hchain ⊢
    obtain ⟨n, hn, _⟩ := links_eq_some hchain.link_eq
    apply hchain.unlink
    · rw [links_setNext_self hn, hcurrent]
    · intro x hx
      exact links_setNext_ne hx next
  · exact links_setNext_ne (ne_of_mem_of_not_mem hb ha).symm next

/-- It releases the record. -/
theorem Kept.released (h : s.Kept L) {current : Nat} (hloop : s.loop = .removeFree current) :
    Kept { s with
      peers := s.peers.free current
      closed := s.closed ++ [current]
      loop := .disconnectUnlock } L := by
  have hin : s.loop.inside = true := congrArg LoopPc.inside hloop
  have hknows := h.loopKnows
  rw [hloop] at hknows
  obtain ⟨hL, c, hc, hpc⟩ := hknows
  refine ⟨?_, h.mutex.trans hin, h.mutexes, ?_, trivial, ?_, h.members, h.fresh⟩
  · exact h.chain.congr fun a ha => links_free_ne (ne_of_mem_of_not_mem ha hL)
  · refine h.alone_of (x := none) fun p hp => Or.inl ?_
    cases p with
    | none => exact hin
    | some a => exact hp
  · intro a d hd
    by_cases ha : a = current
    · subst ha
      rw [hc] at hd
      cases hd
      rw [hpc]
      exact Or.inr (Or.inl (List.mem_append_right _ List.mem_cons_self))
    · refine (h.clientKnows a d hd).congr (fun _ => links_free_ne ha) (List.mem_append_left _)
        fun heq => ?_
      rw [hloop] at heq
      exact absurd (LoopPc.removeFree.inj heq).symm ha

/-- The command loop starts a client thread. -/
theorem Kept.created (h : s.Kept L) {ip : Str} {port : Int32} (hloop : s.loop = .create ip port)
    (v : PeerInfo) :
    Kept ({ s with peers := s.peers.alloc { val := v, next := none }, loop := .command }.setClient
      s.peers.next { mutex := s.mutex, pc := .connecting }) L := by
  have hmutex : s.mutex = false := by rw [h.mutex, hloop]; rfl
  have hchain := h.chain.congr fun a ha => links_alloc_lt (n := ⟨v, none⟩) (h.member_lt ha)
  refine ⟨hchain, hmutex, ?_, ?_, trivial, ?_, ?_, ?_⟩
  · exact forall_setClient hmutex fun a d _ hd => h.mutexes a d hd
  · refine h.alone_of (x := none) fun p hp => Or.inl ?_
    cases p with
    | none => cases hp
    | some a =>
        obtain ⟨d, hd, hin⟩ := hp
        by_cases ha : a = s.peers.next
        · subst ha
          rw [setClient_self] at hd
          cases hd
          cases hin
        · rw [setClient_ne ha] at hd
          exact ⟨d, hd, hin⟩
  · refine forall_setClient ⟨links_alloc_self _ _, fun hmem => ?_⟩ fun a d _ hd => ?_
    · exact absurd (h.member_lt hmem) (Nat.lt_irrefl _)
    · refine (h.clientKnows a d hd).congr (fun _ => links_alloc_lt (h.client_lt hd)) id fun heq => ?_
      rw [hloop] at heq
      cases heq
  · intro a ha
    obtain ⟨d, hd, hlinked⟩ := h.members a ha
    exact ⟨d, by rw [setClient_ne (Nat.ne_of_lt (h.client_lt hd))]; exact hd, hlinked⟩
  · intro a ha
    have hlt : s.peers.next < a := ha
    rw [setClient_ne (Nat.ne_of_gt hlt)]
    exact h.fresh a (Nat.le_of_lt hlt)

/-- No thread can be created, and the new record is released. -/
theorem Kept.notCreated (h : s.Kept L) {ip : Str} {port : Int32} (hloop : s.loop = .create ip port)
    (v : PeerInfo) :
    Kept { s with
      peers := (s.peers.alloc { val := v, next := none }).free s.peers.next
      loop := .command } L := by
  have hkeep : ∀ a, a < s.peers.next →
      links ((s.peers.alloc { val := v, next := none }).free s.peers.next) a = links s.peers a := by
    intro a ha
    rw [links_free_ne (Nat.ne_of_lt ha), links_alloc_lt ha]
  refine ⟨h.chain.congr fun a ha => hkeep a (h.member_lt ha), ?_, h.mutexes, ?_, trivial, ?_,
    h.members, ?_⟩
  · show s.mutex = false
    rw [h.mutex, hloop]
    rfl
  · refine h.alone_of (x := none) fun p hp => Or.inl ?_
    cases p with
    | none => cases hp
    | some a => exact hp
  · intro a d hd
    refine (h.clientKnows a d hd).congr (fun _ => hkeep a (h.client_lt hd)) id fun heq => ?_
    rw [hloop] at heq
    cases heq
  · intro a ha
    exact h.fresh a (Nat.le_of_lt ha)

/-- **Step lemma of the command loop.** -/
theorem loopStep_kept {created : Bool} (h : s.Kept L) (hcareful : s.Careful (.loop created))
    (hstep : s.loopStep created = some t) : ∃ M, t.Kept M := by
  have hknows := h.loopKnows
  -- the pointers to the list and to a record of it are known
  have hhead := h.chain.head?
  unfold loopStep at hstep
  cases hloop : s.loop with
  | command =>
      simp only [hloop] at hstep
      cases hstep
  | connectLock ip port =>
      have hopen : s.Unlocked := hcareful (congrArg LoopPc.locks hloop)
      have hinside : s.LoopKnows L (.getHead ip port) := trivial
      simp only [hloop, hopen.loop, Bool.false_eq_true, if_false] at hstep
      cases hstep
      exact ⟨L, h.loopOnly hloop nofun (fun _ => Or.inr hopen) hinside⟩
  | getHead ip port =>
      simp only [hloop] at hstep
      cases hstep
      refine ⟨L, h.loopMoves hloop rfl nofun rfl fun a ha => ?_⟩
      rw [hhead] at ha
      exact List.mem_of_head? ha
  | getTest ip port current =>
      rw [hloop] at hknows
      cases current with
      | none =>
          simp only [hloop] at hstep
          cases hstep
          exact ⟨L, h.loopMoves hloop rfl nofun rfl trivial⟩
      | some current =>
          have hcur : current ∈ L := hknows current rfl
          obtain ⟨M, N, hL⟩ := List.append_of_mem hcur
          obtain ⟨n, hn, _⟩ := h.cell hL
          simp only [hloop, hn, Option.bind_eq_bind, Option.bind_some] at hstep
          split at hstep
          · cases hstep
            exact ⟨L, h.loopMoves hloop rfl nofun rfl trivial⟩
          · cases hstep
            exact ⟨L, h.loopMoves hloop rfl nofun rfl hcur⟩
  | getNext ip port current =>
      rw [hloop] at hknows
      obtain ⟨M, N, hL⟩ := List.append_of_mem hknows
      obtain ⟨n, hn, hnext⟩ := h.cell hL
      simp only [hloop, hn, Option.bind_eq_bind, Option.bind_some] at hstep
      cases hstep
      refine ⟨L, h.loopMoves hloop rfl nofun rfl fun a ha => ?_⟩
      rw [hnext] at ha
      rw [hL]
      exact List.mem_append_right _ (List.mem_cons_of_mem _ (List.mem_of_head? ha))
  | connectUnlock ip port existing =>
      simp only [hloop] at hstep
      cases hstep
      cases existing with
      | true => exact ⟨L, h.loopLeaves hloop nofun rfl⟩
      | false => exact ⟨L, h.loopLeaves hloop nofun rfl⟩
  | create ip port =>
      simp only [hloop] at hstep
      cases created with
      | true =>
          cases hstep
          exact ⟨L, h.created hloop _⟩
      | false =>
          cases hstep
          exact ⟨L, h.notCreated hloop _⟩
  | disconnectLock ip port =>
      have hopen : s.Unlocked := hcareful (congrArg LoopPc.locks hloop)
      have hinside : s.LoopKnows L (.removeHead ip port) := trivial
      simp only [hloop, hopen.loop, Bool.false_eq_true, if_false] at hstep
      cases hstep
      exact ⟨L, h.loopOnly hloop nofun (fun _ => Or.inr hopen) hinside⟩
  | removeHead ip port =>
      simp only [hloop] at hstep
      cases hstep
      exact ⟨L, h.loopMoves hloop rfl nofun rfl ⟨[], L, rfl, rfl, hhead⟩⟩
  | removeTest ip port previous current =>
      rw [hloop] at hknows
      obtain ⟨M, N, hL, hprevious, hcurrent⟩ := hknows
      cases current with
      | none =>
          simp only [hloop] at hstep
          cases hstep
          exact ⟨L, h.loopMoves hloop rfl nofun rfl trivial⟩
      | some current =>
          obtain ⟨K, rfl⟩ : ∃ K, N = current :: K := by
            cases N with
            | nil => cases hcurrent
            | cons a K =>
                cases hcurrent
                exact ⟨K, rfl⟩
          obtain ⟨n, hn, _⟩ := h.cell hL
          simp only [hloop, hn, Option.bind_eq_bind, Option.bind_some] at hstep
          split at hstep
          · cases hstep
            exact ⟨L, h.loopMoves hloop rfl nofun rfl ⟨M, K, hL, hprevious⟩⟩
          · cases hstep
            exact ⟨L, h.loopMoves hloop rfl nofun rfl (by simp [hL, LoopKnows])⟩
  | removeNext ip port current =>
      rw [hloop] at hknows
      obtain ⟨M, N, hL⟩ := List.append_of_mem hknows
      obtain ⟨n, hn, hnext⟩ := h.cell hL
      simp only [hloop, hn, Option.bind_eq_bind, Option.bind_some] at hstep
      cases hstep
      refine ⟨L, h.loopMoves hloop rfl nofun rfl ⟨M ++ [current], N, ?_, ?_, hnext⟩⟩
      · rw [hL, List.append_assoc]
        rfl
      · rw [List.getLast?_concat]
  | removeRead previous current =>
      rw [hloop] at hknows
      obtain ⟨M, N, hL, hprevious⟩ := hknows
      obtain ⟨n, hn, hnext⟩ := h.cell hL
      simp only [hloop, hn, Option.bind_eq_bind, Option.bind_some] at hstep
      cases hstep
      exact ⟨L, h.loopMoves hloop rfl nofun rfl ⟨M, N, hL, hprevious, hnext⟩⟩
  | removeWrite previous current next =>
      cases previous with
      | none =>
          simp only [hloop] at hstep
          cases hstep
          exact h.removesHead hloop
      | some previous =>
          simp only [hloop] at hstep
          cases hstep
          exact h.removesBehind hloop
  | removeFree current =>
      simp only [hloop] at hstep
      cases hstep
      exact ⟨L, h.released hloop⟩
  | disconnectUnlock =>
      simp only [hloop] at hstep
      cases hstep
      exact ⟨L, h.loopLeaves hloop nofun rfl⟩

theorem readStep_kept {command : Command} (h : s.Kept L) (hstep : s.readStep command = some t) :
    t.Kept L := by
  unfold readStep at hstep
  split at hstep
  · next hloop =>
      have hmutex : s.mutex = false := by rw [h.mutex, hloop]; rfl
      have hmove : ∀ pc : LoopPc, pc.inside = false → Kept { s with loop := pc } L := by
        intro pc hout
        have hkept := h.loopLeaves hloop nofun hout
        rw [← hmutex] at hkept
        exact hkept
      cases command with
      | connect ip port =>
          cases hstep
          exact hmove _ rfl
      | disconnect ip port =>
          cases hstep
          exact hmove _ rfl
  · cases hstep

/-- **Step lemma.** -/
theorem step_kept (s : Threads) (e : Event) (t : Threads) (hcareful : s.Careful e)
    (hs : ∃ L, s.Kept L) (hstep : s.step e = some t) : ∃ M, t.Kept M := by
  obtain ⟨L, h⟩ := hs
  cases e with
  | read command => exact ⟨L, readStep_kept h hstep⟩
  | loop created => exact loopStep_kept h hcareful hstep
  | client peer sockfd => exact clientStep_kept h hcareful hstep

end Kept

/-! ## Runs -/

/-- **Run lemma.** -/
theorem CarefulRun.kept {es : List Event} {s : Threads} (hcareful : CarefulRun es)
    (h : Runs init es s) : ∃ L, s.Kept L :=
  EachStep.invariant (fun s => ∃ L, s.Kept L) step_kept hcareful h ⟨[], init_kept⟩

/-- **No peer is lost** in a run in which a mutex is only locked while all mutexes are open: when all
    threads have ended, every peer that was connected and not removed is in the list exactly once. -/
theorem no_peer_lost {es : List Event} {s : Threads} (h : Runs init es s) (hcareful : CarefulRun es)
    (hfinished : s.Finished) : s.NoPeerLost := by
  obtain ⟨L, hL⟩ := hcareful.kept h
  refine ⟨L, hL.chain, fun peer c hc hpc hclosed => ?_⟩
  have hknows := hL.clientKnows peer c hc
  rw [hpc] at hknows
  have hmem : peer ∈ L := by
    rcases hknows with hmem | hgone | hfree
    · exact hmem
    · exact absurd hgone hclosed
    · rw [hfinished.loop] at hfree
      cases hfree
  exact List.count_eq_one_of_mem hL.chain.nodup hmem

/-- A client thread that does not lock. -/
theorem careful_client {s : Threads} {peer : Nat} {c : Client} (hc : s.clients peer = some c)
    (hpc : c.pc ≠ .locking) (sockfd : Option Int) : s.Careful (.client peer sockfd) := by
  intro d hd hlocking
  rw [hc] at hd
  cases hd
  exact absurd hlocking hpc

theorem unlocked_of_one {s : Threads} {c : Client} (hmutex : s.mutex = false)
    (h₀ : s.clients 0 = some c) (hc : c.mutex = false) (hnone : ∀ peer, s.clients (peer + 1) = none) :
    s.Unlocked := by
  refine ⟨hmutex, fun peer d hd => ?_⟩
  cases peer with
  | zero =>
      rw [h₀] at hd
      cases hd
      exact hc
  | succ peer =>
      rw [hnone peer] at hd
      cases hd

theorem careful_cons {s t : Threads} {e : Event} {es : List Event} (hcareful : s.Careful e)
    (hstep : s.step e = some t)
    (h : EachStep (fun (s : Threads) (e : Event) (t : Threads) => s.step e = some t) Careful t es) :
    EachStep (fun (s : Threads) (e : Event) (t : Threads) => s.step e = some t) Careful s (e :: es) := by
  refine EachStep.cons hcareful fun u hu => ?_
  obtain rfl : t = u := Option.some.inj (hstep.symm.trans hu)
  exact h

/-- A `CONNECT` up to the start of its thread, when the list is empty. -/
def connectSteps (port : Int32) : List Event :=
  .read (.connect (bytes "127.0.0.1") port) :: List.replicate 5 (.loop true)

/-- One peer is connected. -/
theorem no_peer_lost_one : ∃ s, Runs init
      (connectSteps 8080 ++ [.client 0 (some 5), .client 0 none, .client 0 none, .client 0 none,
        .client 0 none]) s ∧
    s.clients 0 = some { mutex := false, pc := .ended true } ∧ s.NoPeerLost := by
  obtain ⟨s, hs, hloop, h₀, hnone⟩ : ∃ s, runFrom step init (connectSteps 8080 ++
      [.client 0 (some 5), .client 0 none, .client 0 none, .client 0 none, .client 0 none]) = some s ∧
      s.loop = .command ∧ s.clients 0 = some { mutex := false, pc := .ended true } ∧
      ∀ peer, s.clients (peer + 1) = none := ⟨_, rfl, rfl, rfl, fun _ => rfl⟩
  refine ⟨s, runFrom_steps hs, h₀, no_peer_lost (runFrom_steps hs) ?_ ⟨hloop, ?_⟩⟩
  · refine careful_cons trivial rfl ?_
    refine careful_cons (fun _ => ⟨rfl, fun _ _ h => by cases h⟩) rfl ?_
    iterate 4 refine careful_cons (fun h => by cases h) rfl ?_
    apply careful_cons (careful_client rfl (by decide) _) rfl
    refine careful_cons (fun _ _ _ => unlocked_of_one rfl rfl rfl fun _ => rfl) rfl ?_
    iterate 3 refine careful_cons (careful_client rfl (by decide) _) rfl ?_
    exact EachStep.nil
  · intro peer c hc
    match peer with
    | 0 =>
        rw [h₀] at hc
        cases hc
        exact ⟨true, rfl⟩
    | peer + 1 =>
        rw [hnone peer] at hc
        cases hc

/-! ## Two threads at an empty list -/

/-- Both threads are connected and find the list empty before one of them stores its peer. -/
def bothFindEmpty : List Event :=
  connectSteps 8080 ++ connectSteps 8081 ++
    [.client 0 (some 5), .client 0 none, .client 0 none,
      .client 1 (some 6), .client 1 none, .client 1 none,
      .client 0 none, .client 0 none, .client 1 none, .client 1 none]

/-- Its final state. -/
theorem bothFindEmpty_run : ∃ s, runFrom step init bothFindEmpty = some s ∧ s.loop = .command ∧
    s.clients 0 = some { mutex := false, pc := .ended true } ∧
    s.clients 1 = some { mutex := false, pc := .ended true } ∧ (∀ peer, s.clients (peer + 2) = none) ∧
    s.closed = [] ∧ Chain (links s.peers) s.peerList [1] :=
  ⟨_, rfl, rfl, rfl, rfl, fun _ => rfl, rfl, rfl, none, rfl, rfl⟩

/-- **The first peer is lost.** -/
theorem peer_lost : ∃ s, Runs init bothFindEmpty s ∧ s.Finished ∧
    s.clients 0 = some { mutex := false, pc := .ended true } ∧ s.closed = [] ∧
    Chain (links s.peers) s.peerList [1] ∧ ¬ s.NoPeerLost := by
  obtain ⟨s, hs, hloop, h₀, h₁, hnone, hclosed, hchain⟩ := bothFindEmpty_run
  refine ⟨s, runFrom_steps hs, ⟨hloop, ?_⟩, h₀, hclosed, hchain, ?_⟩
  · intro peer c hc
    match peer with
    | 0 =>
        rw [h₀] at hc
        cases hc
        exact ⟨true, rfl⟩
    | 1 =>
        rw [h₁] at hc
        cases hc
        exact ⟨true, rfl⟩
    | peer + 2 =>
        rw [hnone peer] at hc
        cases hc
  · rintro ⟨L, hL, hall⟩
    obtain rfl : L = [1] := hL.unique hchain
    have hcount := hall 0 _ h₀ rfl (by rw [hclosed]; exact List.not_mem_nil)
    exact absurd hcount (by decide)

end Threads

end Btide
