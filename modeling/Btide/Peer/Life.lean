import Btide.Peer.Net
import Btide.Theory.Chain

/-!
# `Peer.Life` — who releases a peer record (`peer.c`, `process_command`)

A `CONNECT` allocates a record, and from then on somebody has to release it: the command loop if no
thread can be created, the client thread if it cannot connect, `remove_peer` or `free_peer` if it has got
into the list. The model keeps the records in a heap and a log of all calls of `free` on them.

As long as every record has one owner, the log, the records of the client threads and the list together
are the allocated records, each exactly once (`Owned`). Two steps break this. A client thread whose
`socket` call fails releases its record in `client` and again in `client_thread`; and `QUIT` releases the
list but leaves the pointer to it, which client threads still use. No other step does, so a run is sound
exactly when it has neither (`life_sound_iff`).
-/

namespace Btide

/-! ## The state -/

/-- The peer records, the list, the records of the client threads that have not ended, and every call of
    `free` on a record, in order. -/
structure Life where
  peers : Heap (Node PeerInfo)
  peerList : Option Nat
  pending : List Nat
  released : List Nat
  mainLoop : Bool

namespace Life

def init : Life where
  peers := Heap.empty
  peerList := none
  pending := []
  released := []
  mainLoop := true

/-- What the calls in `client` return. -/
inductive Outcome
  | socketFailed
  | ptonFailed
  | connectFailed
  | connected (sockfd : Int)
deriving DecidableEq

/-- The socket, if the connection has been established. -/
def Outcome.sockfd : Outcome → Option Int
  | .connected sockfd => some sockfd
  | _ => none

inductive Event
  /-- A `CONNECT` command; whether `pthread_create` succeeds, should it come to that. -/
  | connect (ip : Str) (port : Int32) (created : Bool)
  | disconnect (ip : Str) (port : Int32)
  | quit
  /-- The client thread of the record `peer` runs to its end. -/
  | finished (peer : Nat) (outcome : Outcome)
deriving DecidableEq

/-! ## The functions of `peer.c` -/

/-- `strcmp(current->ip, ip) == 0 && current->port == port`. -/
def isPeer (ip : Str) (port : Int32) (current : PeerInfo) : Bool := current.ip = ip ∧ current.port = port

/-- `get_peer`, whose loop is that of `remove_peer` without `previous`. -/
def getPeer (fuel : Nat) (s : Life) (ip : Str) (port : Int32) : Run (Option Nat) := do
  let (_, current) ← search (isPeer ip port) s.peers fuel s.peerList
  .ok current

def addPeer (fuel : Nat) (s : Life) (peer : Nat) : Run Life := do
  let (peers, peerList) ← appendRecord s.peers fuel s.peerList peer
  .ok { s with peers := peers, peerList := peerList }

def removePeer (fuel : Nat) (s : Life) (ip : Str) (port : Int32) : Run Life := do
  let (peers, peerList, removed) ← removeRecord (isPeer ip port) s.peers fuel s.peerList
  .ok { s with peers := peers, peerList := peerList, released := s.released ++ removed.toList }

/-- `free_peer(*peer_list)`. -/
def freePeer (fuel : Nat) (s : Life) : Run Life := do
  let (peers, released) ← releaseAll s.peers fuel s.peerList
  .ok { s with peers := peers, released := s.released ++ released }

/-- `free(peer)`. A second one for the same record has no meaning in C; here it is in the log. -/
def free (s : Life) (peer : Nat) : Life :=
  { s with peers := s.peers.free peer, released := s.released ++ [peer] }

/-- `client`, and the value it returns. -/
def client (s : Life) (peer : Nat) : Outcome → Run (Life × Int)
  | .socketFailed => .ok (s.free peer, 0)
  | .ptonFailed => do
    let _ ← load s.peers peer
    .ok (s, 0)
  | .connectFailed => do
    let _ ← load s.peers peer
    .ok (s, 0)
  | .connected sockfd => do
    let _ ← load s.peers peer
    let peers := s.peers.modify peer fun n => { n with val := { n.val with socketFd := some sockfd } }
    .ok ({ s with peers := peers }, 1)

def clientThread (fuel : Nat) (s : Life) (peer : Nat) (outcome : Outcome) : Run Life := do
  let (s, connected) ← s.client peer outcome
  let s := { s with pending := s.pending.erase peer }
  if connected = 1 then s.addPeer fuel peer else .ok (s.free peer)

/-! ## The branches of `process_command` -/

def connect (fuel : Nat) (s : Life) (ip : Str) (port : Int32) (created : Bool) : Run Life := do
  match ← s.getPeer fuel ip port with
  | some _ => .ok s
  | none =>
    let peer := s.peers.next
    let node := { val := { ip := ip, port := port, socketFd := none }, next := none }
    let s := { s with peers := s.peers.alloc node }
    if created then .ok { s with pending := s.pending ++ [peer] } else .ok (s.free peer)

def quit (fuel : Nat) (s : Life) : Run Life := do
  let s ← s.freePeer fuel
  .ok { s with mainLoop := false }

def exec (fuel : Nat) (s : Life) : Event → Run Life
  | .connect ip port created => s.connect fuel ip port created
  | .disconnect ip port => s.removePeer fuel ip port
  | .quit => s.quit fuel
  | .finished peer outcome => s.clientThread fuel peer outcome

/-- Commands are read until `QUIT`; a client thread can end at any time. -/
def Enabled (s : Life) : Event → Prop
  | .finished peer _ => peer ∈ s.pending
  | _ => s.mainLoop = true

/-- One event that runs to its end. -/
def Step (s : Life) (e : Event) (t : Life) : Prop :=
  s.Enabled e ∧ Settles (fun fuel => s.exec fuel e) (.ok t)

abbrev Runs := Steps Step

/-! ## What should hold -/

/-- No record has been released twice, and the list does not reach a released one. -/
structure Sound (s : Life) : Prop where
  once : s.released.Nodup
  gone : ∀ peer ∈ s.released, ¬ Reaches (links s.peers) s.peerList peer

/-- The event is not one of the two that go wrong. -/
def Careful (s : Life) : Event → Prop
  | .finished _ .socketFailed => False
  | .quit => s.peerList = none
  | _ => True

/-! ## The ledger

Every record that was ever allocated is in the list, with a client thread or released, and in one of
these places only. -/

/-- `L` is the list, and each allocated record has one owner; those of the client threads are not linked
    to anything. -/
structure Owned (s : Life) (L : List Nat) : Prop where
  chain : Chain (links s.peers) s.peerList L
  ledger : (L ++ s.pending ++ s.released).Perm (List.range s.peers.next)
  unlinked : ∀ peer ∈ s.pending, links s.peers peer = some none

/-- What the records hold: the peers of the list and those of the client threads. -/
def shown (s : Life) (L : List Nat) : Net where
  peerList := contents s.peers L
  pending := contents s.peers s.pending

theorem getPeer_eq_none (peers : List PeerInfo) (ip : Str) (port : Int32) :
    Btide.getPeer peers ip port = none ↔ ∀ v ∈ peers, isPeer ip port v = false := by
  induction peers with
  | nil => exact iff_of_true rfl fun v hv => absurd hv List.not_mem_nil
  | cons current rest ih =>
      rw [Btide.getPeer, List.forall_mem_cons]
      by_cases h : current.ip = ip ∧ current.port = port
      · rw [if_pos h]
        exact iff_of_false (by simp) fun hall => by simp [isPeer, h] at hall
      · rw [if_neg h, ih]
        exact (and_iff_right (decide_eq_false h)).symm

theorem removePeer_eq_eraseP (peers : List PeerInfo) (ip : Str) (port : Int32) :
    (Btide.removePeer peers ip port).1 = peers.eraseP (isPeer ip port) := by
  induction peers with
  | nil => rfl
  | cons current rest ih =>
      rw [Btide.removePeer]
      by_cases h : current.ip = ip ∧ current.port = port
      · rw [if_pos h, List.eraseP_cons_of_pos (by simpa [isPeer] using h)]
      · rw [if_neg h, List.eraseP_cons_of_neg (by simpa [isPeer] using h), ← ih]

section Owned

variable {s t : Life} {L : List Nat} {peer : Nat} {n : Node PeerInfo} {ip : Str} {port : Int32}

theorem Owned.nodup (h : s.Owned L) : (L ++ s.pending ++ s.released).Nodup :=
  h.ledger.nodup_iff.mpr List.nodup_range

theorem Owned.lt_next (h : s.Owned L) (hpeer : peer ∈ L ++ s.pending ++ s.released) :
    peer < s.peers.next := List.mem_range.mp (h.ledger.mem_iff.mp hpeer)

theorem Owned.notMem_list (h : s.Owned L) (hpeer : peer ∈ s.pending) : peer ∉ L := by
  intro hL
  exact List.disjoint_of_nodup_append (List.nodup_append.mp h.nodup).1 hL hpeer

theorem Owned.nodup_pending (h : s.Owned L) : s.pending.Nodup :=
  (List.nodup_append.mp (List.nodup_append.mp h.nodup).1).2.1

/-- With one owner for each record nothing is wrong. -/
theorem Owned.sound (h : s.Owned L) : s.Sound := by
  obtain ⟨_, hreleased, hdisj⟩ := List.nodup_append.mp h.nodup
  refine ⟨hreleased, fun peer hpeer hreach => ?_⟩
  have hL := h.chain.mem_of_reaches hreach
  exact hdisj peer (List.mem_append_left _ hL) peer hpeer rfl

theorem init_owned : init.Owned [] where
  chain := rfl
  ledger := List.Perm.refl _
  unlinked := fun _ hpeer => by cases hpeer

theorem Owned.pending_lt (h : s.Owned L) (hpeer : peer ∈ s.pending) : peer < s.peers.next :=
  h.lt_next (List.mem_append_left _ (List.mem_append_right _ hpeer))

theorem Owned.list_lt (h : s.Owned L) (hpeer : peer ∈ L) : peer < s.peers.next :=
  h.lt_next (List.mem_append_left _ (List.mem_append_left _ hpeer))

theorem Owned.notMem_erase (h : s.Owned L) : peer ∉ s.pending.erase peer := fun hmem =>
  (h.nodup_pending.mem_erase_iff.mp hmem).1 rfl

/-- A record that nothing links to changes the owner: from a client thread to the log. -/
theorem Owned.free (h : s.Owned L) (hpeer : peer ∈ s.pending) :
    (Life.free { s with pending := s.pending.erase peer } peer).Owned L where
  chain := h.chain.congr fun x hx =>
    links_free_ne fun he => h.notMem_list hpeer (he ▸ hx)
  ledger := by
    refine List.Perm.trans ?_ h.ledger
    rw [List.perm_iff_count]
    intro x
    have hcount := List.perm_iff_count.mp (List.perm_cons_erase hpeer) x
    simp only [Life.free, List.count_append, List.count_cons, List.count_nil] at hcount ⊢
    omega
  unlinked := by
    intro x hx
    obtain ⟨hne, hx⟩ := h.nodup_pending.mem_erase_iff.mp hx
    exact (links_free_ne hne).trans (h.unlinked x hx)

/-- A new record, for a client thread. -/
theorem Owned.alloc (h : s.Owned L) (v : PeerInfo) :
    Owned { s with
      peers := s.peers.alloc { val := v, next := none }
      pending := s.pending ++ [s.peers.next] } L where
  chain := h.chain.congr fun x hx => links_alloc_lt (h.list_lt hx)
  ledger := by
    rw [Heap.alloc_next, List.range_succ, List.perm_iff_count]
    intro x
    have hcount := List.perm_iff_count.mp h.ledger x
    simp only [List.count_append] at hcount ⊢
    omega
  unlinked := by
    intro x hx
    rcases List.mem_append.mp hx with hx | hx
    · exact (links_alloc_lt (h.pending_lt hx)).trans (h.unlinked x hx)
    · rw [List.mem_singleton.mp hx]
      exact links_alloc_self _ _

/-- It holds the new peer, and no other record changes. -/
theorem Owned.alloc_shown (h : s.Owned L) (v : PeerInfo) :
    Life.shown { s with
      peers := s.peers.alloc { val := v, next := none }
      pending := s.pending ++ [s.peers.next] } L =
    { s.shown L with pending := (s.shown L).pending ++ [v] } := by
  unfold shown
  congr 1
  · exact contents_alloc fun x hx => h.list_lt hx
  · rw [contents_append, contents_cons (Heap.alloc_cells_self _ _),
      contents_alloc fun x hx => h.pending_lt hx]
    rfl

/-- `get_peer` finds a peer if there is one. -/
theorem getPeer_settles (h : s.Owned L) (ip : Str) (port : Int32) :
    ∃ current, Settles (fun fuel => s.getPeer fuel ip port) (.ok current) ∧
      (Btide.getPeer (s.shown L).peerList ip port = none ↔ current = none) := by
  rcases exists_first_match h.chain (isPeer ip port) with hnone | ⟨M, a, n, N, rfl, hn, hp, hfail⟩
  · refine ⟨none, (search_none h.chain hnone).map Prod.snd, ?_⟩
    exact iff_of_true ((getPeer_eq_none _ ip port).mpr hnone) rfl
  · refine ⟨some a, (search_found h.chain hfail hn hp).map Prod.snd, iff_of_false ?_ (by simp)⟩
    intro hget
    have hnot := (getPeer_eq_none _ ip port).mp hget n.val (mem_contents (by simp) hn)
    rw [hp] at hnot
    cases hnot

theorem connect_owned (h : s.Owned L) (ip : Str) (port : Int32) (created : Bool) :
    ∃ t, Settles (fun fuel => s.connect fuel ip port created) (.ok t) ∧ t.Owned L ∧
      t.shown L = (s.shown L).connect ip port created := by
  obtain ⟨current, hrun, hcurrent⟩ := getPeer_settles h ip port
  cases current with
  | some current =>
      obtain ⟨v, hv⟩ := Option.ne_none_iff_exists'.mp fun hget => by simpa using hcurrent.mp hget
      refine ⟨s, hrun.bind (Settles.const _), h, ?_⟩
      unfold Net.connect
      rw [hv]
  | none =>
      have hget := hcurrent.mpr rfl
      have hnew := h.alloc { ip := ip, port := port, socketFd := none }
      have hshown := h.alloc_shown { ip := ip, port := port, socketFd := none }
      unfold Net.connect
      rw [hget]
      cases created with
      | true => exact ⟨_, hrun.bind (Settles.const _), hnew, hshown⟩
      | false =>
          -- no thread: the record goes from the command loop to the log
          have hmem : s.peers.next ∈ s.pending ++ [s.peers.next] :=
            List.mem_append_right _ List.mem_cons_self
          have hfree : Owned (Life.free { s with
              peers := s.peers.alloc { val := ⟨ip, port, none⟩, next := none }
              pending := (s.pending ++ [s.peers.next]).erase s.peers.next } s.peers.next) L :=
            hnew.free hmem
          have hnotL : s.peers.next ∉ L := fun hin => absurd (h.list_lt hin) (Nat.lt_irrefl _)
          have hnot : s.peers.next ∉ s.pending := fun hin => absurd (h.pending_lt hin) (Nat.lt_irrefl _)
          rw [List.erase_append_right _ hnot, List.erase_cons_head, List.append_nil] at hfree
          refine ⟨_, hrun.bind (Settles.const _), hfree, ?_⟩
          unfold shown
          congr 1
          · exact (contents_free hnotL).trans (contents_alloc fun x hx => h.list_lt hx)
          · exact (contents_free hnot).trans (contents_alloc fun x hx => h.pending_lt hx)

/-- Without the record of one client thread, its peer is missing. -/
theorem pending_perm (hpeer : peer ∈ s.pending) (hn : s.peers.cells peer = some n) :
    (contents s.peers (s.pending.erase peer)).Perm ((contents s.peers s.pending).erase n.val) := by
  have hcons := contents_perm (h := s.peers) (List.perm_cons_erase hpeer)
  rw [contents_cons hn] at hcons
  have herase := hcons.erase n.val
  rw [List.erase_cons_head] at herase
  exact herase.symm

theorem Owned.free_shown (h : s.Owned L) (hpeer : peer ∈ s.pending)
    (hn : s.peers.cells peer = some n) :
    (Life.shown (Life.free { s with pending := s.pending.erase peer } peer) L).Same
      ((s.shown L).finished n.val none) where
  peerList := contents_free (h.notMem_list hpeer)
  pending := by
    show (contents (s.peers.free peer) (s.pending.erase peer)).Perm _
    rw [contents_free h.notMem_erase]
    exact pending_perm hpeer hn

/-- A client thread appends its record or releases it. -/
theorem finished_owned (h : s.Owned L) (hpeer : peer ∈ s.pending) (hn : s.peers.cells peer = some n)
    {outcome : Outcome} (hsocket : outcome ≠ .socketFailed) :
    ∃ t, Settles (fun fuel => s.clientThread fuel peer outcome) (.ok t) ∧
      ∃ M, t.Owned M ∧ (t.shown M).Same ((s.shown L).finished n.val outcome.sockfd) := by
  have hload := load_ok hn
  have hfail : ∃ t, Settles (fun _ => (.ok (Life.free { s with pending := s.pending.erase peer } peer)
      : Run Life)) (.ok t) ∧ ∃ M, t.Owned M ∧ (t.shown M).Same ((s.shown L).finished n.val none) :=
    ⟨_, Settles.const _, L, h.free hpeer, h.free_shown hpeer hn⟩
  cases outcome with
  | socketFailed => exact absurd rfl hsocket
  | ptonFailed =>
      simp only [clientThread, client, hload, Run.ok_bind]
      exact hfail
  | connectFailed =>
      simp only [clientThread, client, hload, Run.ok_bind]
      exact hfail
  | connected sockfd =>
      simp only [clientThread, client, hload, Run.ok_bind, if_true]
      -- the socket is stored, and no link changes
      let store := fun n : Node PeerInfo => { n with val := { n.val with socketFd := some sockfd } }
      have hlinks := links_modify (f := store) (fun _ => rfl) s.peers peer
      have hchain := h.chain.congr fun x _ => hlinks x
      have hnot := h.notMem_list hpeer
      obtain ⟨peers, peerList, hrun, hchain', hnext', hval, hframe⟩ :=
        appendRecord_chain hchain ((hlinks peer).trans (h.unlinked peer hpeer)) hnot
      refine ⟨_, hrun.bind (Settles.const _), L ++ [peer], ⟨hchain', ?_, ?_⟩, ⟨?_, ?_⟩⟩
      · show ((L ++ [peer]) ++ s.pending.erase peer ++ s.released).Perm (List.range peers.next)
        rw [hnext', Heap.modify_next]
        refine List.Perm.trans ?_ h.ledger
        rw [List.perm_iff_count]
        intro x
        have hcount := List.perm_iff_count.mp (List.perm_cons_erase hpeer) x
        simp only [List.count_append, List.count_cons, List.count_nil] at hcount ⊢
        omega
      · intro x hx
        have hx' := List.mem_of_mem_erase hx
        show (peers.cells x).map Node.next = _
        rw [hframe x (h.notMem_list hx')]
        exact (hlinks x).trans (h.unlinked x hx')
      · show contents peers (L ++ [peer]) = contents s.peers L ++ [{ n.val with socketFd := some sockfd }]
        rw [contents_congr fun x _ => hval x, contents_append, contents_modify hnot]
        refine congrArg (contents s.peers L ++ ·) (contents_cons (n := ⟨_, n.next⟩) ?_)
        rw [Heap.modify_cells_self, hn]
        rfl
      · show (contents peers (s.pending.erase peer)).Perm _
        rw [contents_congr fun x _ => hval x, contents_modify h.notMem_erase]
        exact pending_perm hpeer hn

theorem disconnect_owned (h : s.Owned L) (ip : Str) (port : Int32) :
    ∃ t, Settles (fun fuel => s.removePeer fuel ip port) (.ok t) ∧
      ∃ M, t.Owned M ∧ t.shown M = (s.shown L).disconnect ip port := by
  unfold Net.disconnect
  rw [removePeer_eq_eraseP]
  rcases exists_first_match h.chain (isPeer ip port) with hnone | ⟨M, a, n, N, rfl, hn, hp, hfail⟩
  · refine ⟨_, (removeRecord_none h.chain hnone).bind (Settles.const _), L, ⟨h.chain, ?_, h.unlinked⟩, ?_⟩
    · show (L ++ s.pending ++ (s.released ++ [])).Perm _
      rw [List.append_nil]
      exact h.ledger
    · exact congrArg (Net.mk · _) (contents_not_removed hnone)
  · obtain ⟨peers, peerList, hrun, hchain, hnext, _, hval, hframe⟩ :=
      removeRecord_found h.chain hfail hn hp
    -- only records of the list change
    have hkeep : ∀ x ∈ s.pending, peers.cells x = s.peers.cells x := by
      intro x hx
      have hnot := h.notMem_list hx
      rw [List.mem_append, List.mem_cons, not_or, not_or] at hnot
      exact hframe x hnot.2.1 hnot.1
    refine ⟨_, hrun.bind (Settles.const _), M ++ N, ⟨hchain, ?_, ?_⟩, ?_⟩
    · show (M ++ N ++ s.pending ++ (s.released ++ [a])).Perm (List.range peers.next)
      rw [hnext]
      refine List.Perm.trans ?_ h.ledger
      rw [List.perm_iff_count]
      intro x
      simp only [List.count_append, List.count_cons, List.count_nil]
      omega
    · intro x hx
      exact (links_congr (hkeep x hx)).trans (h.unlinked x hx)
    · unfold shown
      congr 1
      · exact contents_removed h.chain hfail hn hp hval
      · exact contents_congr fun x hx => by rw [hkeep x hx]

/-- `QUIT` releases the list and nothing else; the pointer to the list stays. -/
theorem quit_settles (h : s.Owned L) :
    ∃ t, Settles (fun fuel => s.quit fuel) (.ok t) ∧ t.peerList = s.peerList ∧
      t.pending = s.pending ∧ t.released = s.released ++ L ∧ t.mainLoop = false ∧
      t.peers = s.peers.freeAll L := by
  have hfree : Settles (fun fuel => s.freePeer fuel) (.ok _) :=
    (releaseAll_chain h.chain).bind (Settles.const _)
  exact ⟨_, hfree.bind (Settles.const _), rfl, rfl, rfl, rfl, rfl⟩

theorem quit_owned (h : s.Owned L) (hlist : s.peerList = none) :
    ∃ t, Settles (fun fuel => s.quit fuel) (.ok t) ∧ t.Owned L ∧ t.shown L = s.shown L := by
  have hempty := h.chain
  rw [hlist] at hempty
  obtain rfl : L = [] := hempty.unique (chain_nil.mpr rfl)
  obtain ⟨t, hrun, hlist', hpending, hreleased, _, hpeers⟩ := quit_settles h
  have hsame : t.peers = s.peers := hpeers
  refine ⟨t, hrun, ⟨?_, ?_, ?_⟩, ?_⟩
  · rw [hlist', hlist]
    exact chain_nil.mpr rfl
  · rw [hpending, hreleased, hsame, List.append_nil]
    exact h.ledger
  · rw [hpending, hsame]
    exact h.unlinked
  · unfold shown
    rw [hpending, hsame]

/-- What an event means for the peers that are shown. -/
def netEvents (s : Life) : Event → List NetEvent
  | .connect ip port created => [.connect ip port created]
  | .disconnect ip port => [.disconnect ip port]
  | .quit => []
  | .finished peer outcome =>
    match s.peers.cells peer with
    | none => []
    | some n => [.finished n.val outcome.sockfd]

/-- **Step lemma.** An event that can happen runs to its end, keeps the ledger and does to the peers what
    it does in `Net`, unless it is one of the two that go wrong. -/
theorem step_owned {e : Event} (h : s.Owned L) (henabled : s.Enabled e) (hcareful : s.Careful e) :
    ∃ t, s.Step e t ∧ ∃ M net, t.Owned M ∧ NetSteps (s.shown L) (s.netEvents e) net ∧
      (t.shown M).Same net := by
  cases e with
  | connect ip port created =>
      obtain ⟨t, hrun, ht, hshown⟩ := connect_owned h ip port created
      refine ⟨t, ⟨henabled, hrun⟩, L, _, ht, Steps.single_iff.mpr rfl, ?_⟩
      rw [hshown]
      exact .refl _
  | disconnect ip port =>
      obtain ⟨t, hrun, M, ht, hshown⟩ := disconnect_owned h ip port
      refine ⟨t, ⟨henabled, hrun⟩, M, _, ht, Steps.single_iff.mpr rfl, ?_⟩
      rw [hshown]
      exact .refl _
  | quit =>
      obtain ⟨t, hrun, ht, hshown⟩ := quit_owned h hcareful
      refine ⟨t, ⟨henabled, hrun⟩, L, _, ht, .nil, ?_⟩
      rw [hshown]
      exact .refl _
  | finished peer outcome =>
      have hsocket : outcome ≠ .socketFailed := by
        rintro rfl
        exact hcareful
      obtain ⟨n, hn, _⟩ := links_eq_some (h.unlinked peer henabled)
      obtain ⟨t, hrun, M, ht, hshown⟩ := finished_owned h henabled hn hsocket
      have hmem : n.val ∈ (s.shown L).pending := mem_contents henabled hn
      refine ⟨t, ⟨henabled, hrun⟩, M, _, ht, ?_, hshown⟩
      rw [netEvents, hn]
      exact Steps.single_iff.mpr (if_pos hmem)

/-- An event has one result at most. -/
theorem Step.unique {e : Event} {t' : Life} (h : s.Step e t) (h' : s.Step e t') : t = t' :=
  Except.ok.inj (h.2.unique h'.2)

/-- **The two steps that go wrong.** -/
theorem step_unsound {e : Event} (h : s.Owned L) (hstep : s.Step e t) (hcareful : ¬ s.Careful e) :
    ¬ t.Sound := by
  intro hsound
  cases e with
  | connect ip port created => exact hcareful trivial
  | disconnect ip port => exact hcareful trivial
  | quit =>
      -- the pointer to the list still leads to its first record
      obtain ⟨t', hrun, hlist, _, hreleased, _⟩ := quit_settles h
      obtain rfl : t' = t := Except.ok.inj (hrun.unique hstep.2)
      cases L with
      | nil => exact hcareful h.chain
      | cons a L =>
          have hhead : s.peerList = some a := h.chain.1
          apply hsound.gone a
          · rw [hreleased]
            exact List.mem_append_right _ List.mem_cons_self
          · rw [hlist, hhead]
            exact .here
  | finished peer outcome =>
      cases outcome with
      | socketFailed =>
          -- `client` and `client_thread` release the record
          have hrun : Settles (fun fuel => s.clientThread fuel peer .socketFailed) (.ok
              (Life.free { s.free peer with pending := s.pending.erase peer } peer)) := Settles.const _
          cases hrun.unique hstep.2
          have honce : (s.released ++ [peer] ++ [peer]).Nodup := hsound.once
          exact (List.nodup_append.mp honce).2.2 peer (by simp) peer List.mem_cons_self rfl
      | ptonFailed => exact hcareful trivial
      | connectFailed => exact hcareful trivial
      | connected sockfd => exact hcareful trivial

end Owned

/-! ## Runs -/

/-- Every state that is reached in the course of the run is sound. -/
def SoundRun (es : List Event) : Prop := ∀ pre post s, es = pre ++ post → Runs init pre s → s.Sound

/-- No event of the run is one of the two that go wrong. -/
def CarefulRun (es : List Event) : Prop := EachStep Step Careful init es

/-- What a careful step keeps up: every record has one owner. -/
theorem careful_step_owned (s : Life) (e : Event) (t : Life) (hcareful : s.Careful e)
    (hs : ∃ L, s.Owned L) (hstep : s.Step e t) : ∃ M, t.Owned M := by
  obtain ⟨L, hL⟩ := hs
  obtain ⟨t', hstep', M, _, hM, _⟩ := step_owned hL hstep.1 hcareful
  obtain rfl := hstep.unique hstep'
  exact ⟨M, hM⟩

/-- **Run lemma.** Every record has one owner in the states of a careful run. -/
theorem CarefulRun.owned {es : List Event} {s : Life} (hcareful : CarefulRun es) (h : Runs init es s) :
    ∃ L, s.Owned L :=
  EachStep.invariant (fun s => ∃ L, s.Owned L) careful_step_owned hcareful h ⟨[], init_owned⟩

/-- A run without `QUIT` in which no call of `socket` fails is careful. -/
theorem carefulRun_of_forall {es : List Event}
    (h : ∀ e ∈ es, e ≠ .quit ∧ ∀ peer, e ≠ .finished peer .socketFailed) : CarefulRun es := by
  rintro pre e post s rfl _
  obtain ⟨hquit, hsocket⟩ := h e (by simp)
  cases e with
  | connect ip port created => trivial
  | disconnect ip port => trivial
  | quit => exact absurd rfl hquit
  | finished peer outcome =>
      cases outcome with
      | socketFailed => exact absurd rfl (hsocket peer)
      | ptonFailed => trivial
      | connectFailed => trivial
      | connected sockfd => trivial

theorem step_of_exec {s t : Life} {e : Event} (n : Nat) (henabled : s.Enabled e)
    (h : ∀ k, s.exec (k + n) e = .ok t) : s.Step e t :=
  ⟨henabled, Settles.of_add n h⟩

/-- **When no record is released twice or used after its release.** For every run of commands and ending
    client threads, with every outcome of the system calls, the states reached are sound if and only if no
    client thread's `socket` call fails and `QUIT` finds an empty list. -/
theorem life_sound_iff {es : List Event} {s : Life} (h : Runs init es s) :
    SoundRun es ↔ CarefulRun es := by
  constructor
  · intro hsound
    -- the first step that is not careful would leave an unsound state
    refine EachStep.of_forall_reached (fun _ _ _ _ hstep => hstep.unique) careful_step_owned ?_ h
      ⟨[], init_owned⟩ hsound
    rintro s e t ⟨L, hL⟩ hstep hcareful
    exact step_unsound hL hstep hcareful
  · rintro hcareful pre post t rfl ht
    obtain ⟨L, hL⟩ := CarefulRun.owned hcareful.of_append ht
    exact hL.sound

/-- The connection is refused. -/
theorem life_sound_iff_refused :
    SoundRun [.connect (bytes "127.0.0.1") 8080 true, .finished 0 .connectFailed] := by
  have hone : Runs init [.connect (bytes "127.0.0.1") 8080 true] _ :=
    Steps.nil.snoc (step_of_exec 1 rfl fun k => rfl)
  have htwo := hone.snoc (step_of_exec (e := .finished 0 .connectFailed) 0 List.mem_cons_self fun k => rfl)
  exact (life_sound_iff htwo).mpr (carefulRun_of_forall (by simp))

/-- In the course of a careful run no event reads a released record: each runs to its end. -/
theorem CarefulRun.progress {es : List Event} {s : Life} {e : Event} (hcareful : CarefulRun (es ++ [e]))
    (h : Runs init es s) (henabled : s.Enabled e) : ∃ t, s.Step e t := by
  obtain ⟨L, hL⟩ := CarefulRun.owned hcareful.of_append h
  obtain ⟨t, hstep, _⟩ := step_owned hL henabled (hcareful.last h)
  exact ⟨t, hstep⟩

/-! ## The two ways to go wrong -/

theorem client_connected {s : Life} {peer : Nat} {n : Node PeerInfo} (hn : s.peers.cells peer = some n)
    (sockfd : Int) :
    s.client peer (.connected sockfd) = .ok ({ s with peers := s.peers.modify peer fun n =>
      { n with val := { n.val with socketFd := some sockfd } } }, 1) := by
  unfold client
  simp only [load_ok hn, Run.ok_bind]

theorem addPeer_dangling {s : Life} {a : Nat} (hlist : s.peerList = some a)
    (hgone : s.peers.cells a = none) (fuel peer : Nat) :
    s.addPeer (fuel + 1) peer = .error .wildPointer := by
  have hbody : lastBody s.peers a = .error .wildPointer := by
    unfold lastBody load
    rw [hgone]
    rfl
  have hlast : last s.peers (fuel + 1) a = .error .wildPointer := by
    unfold last
    exact whileLoop_error rfl hbody fuel
  unfold addPeer appendRecord
  simp only [hlist, hlast, Run.error_bind]

/-- A client thread that connects after `QUIT` has released the list reads a released record. -/
theorem finished_after_quit {s t : Life} {L : List Nat} {peer : Nat} (h : s.Owned L) (hL : L ≠ [])
    (hquit : s.Step .quit t) (hpeer : peer ∈ t.pending) (sockfd : Int) :
    Settles (fun fuel => t.exec fuel (.finished peer (.connected sockfd))) (.error .wildPointer) := by
  obtain ⟨t', hrun, hlist, hpending, _, _, hpeers⟩ := quit_settles h
  obtain rfl : t' = t := Except.ok.inj (hrun.unique hquit.2)
  obtain ⟨a, L, rfl⟩ := List.exists_cons_of_ne_nil hL
  rw [hpending] at hpeer
  obtain ⟨n, hn, _⟩ := links_eq_some (h.unlinked peer hpeer)
  have hn' : t'.peers.cells peer = some n := by
    rw [hpeers, Heap.freeAll_cells_of_notMem (h.notMem_list hpeer), hn]
  have hne : a ≠ peer := fun he => h.notMem_list hpeer (he ▸ List.mem_cons_self)
  apply Settles.of_add 1
  intro k
  show t'.clientThread (k + 1) peer (.connected sockfd) = _
  unfold clientThread
  rw [client_connected hn', Run.ok_bind]
  refine addPeer_dangling (a := a) ?_ ?_ k peer
  · exact hlist.trans h.chain.1
  · rw [Heap.modify_cells_ne hne, hpeers]
    exact Heap.freeAll_cells_of_mem List.mem_cons_self

/-- The call of `socket` fails. -/
def socketFails : List Event :=
  [.connect (bytes "127.0.0.1") 8080 true, .finished 0 .socketFailed]

/-- `QUIT` while one peer is connected and another connection is pending. -/
def quitWhilePending : List Event :=
  [.connect (bytes "127.0.0.1") 8080 true, .connect (bytes "127.0.0.1") 8081 true,
    .finished 0 (.connected 5), .quit]

/-- **A double release, and a thread that follows a released list.** -/
theorem life_unsound :
    (∃ s, Runs init socketFails s ∧ s.released = [0, 0] ∧ ¬ s.Sound) ∧
    ∃ s, Runs init quitWhilePending s ∧ s.released = [0] ∧ s.peerList = some 0 ∧
      s.Enabled (.finished 1 (.connected 6)) ∧
      Settles (fun fuel => s.exec fuel (.finished 1 (.connected 6))) (.error .wildPointer) := by
  have hone : Runs init [.connect (bytes "127.0.0.1") 8080 true] _ :=
    Steps.nil.snoc (step_of_exec 1 rfl fun k => rfl)
  constructor
  · refine ⟨_, hone.snoc (step_of_exec 0 List.mem_cons_self fun k => rfl), rfl, fun hsound => ?_⟩
    exact absurd hsound.once (by decide)
  · have htwo := hone.snoc (step_of_exec (e := .connect (bytes "127.0.0.1") 8081 true) 1 rfl fun k => rfl)
    have hthree := htwo.snoc
      (step_of_exec (e := .finished 0 (.connected 5)) 1 List.mem_cons_self fun k => rfl)
    obtain ⟨L, hL⟩ := (carefulRun_of_forall (by simp)).owned hthree
    obtain rfl : L = [0] := hL.chain.unique ⟨rfl, none, rfl, rfl⟩
    obtain ⟨t, hrun, hlist, hpending, hreleased, _⟩ := quit_settles hL
    have hpeer : 1 ∈ t.pending := by
      rw [hpending]
      exact List.mem_cons_self
    have hquit : Step _ .quit t := ⟨by rfl, hrun⟩
    refine ⟨t, hthree.snoc hquit, hreleased, hlist, hpeer, ?_⟩
    exact finished_after_quit hL (List.cons_ne_nil 0 []) hquit hpeer 6

end Life

end Btide
