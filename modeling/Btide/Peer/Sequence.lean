import Btide.Peer.Life

/-!
# `Peer.Sequence` — the linked list is a sequence of records

`add_peer` and `remove_peer` on the records in memory, called in any order from an empty list on. The
abstract list is the sequence of the records that were added and have not been removed, in the order in
which they were added (`listed`); the calls update it through the head pointer and the links, and after
each of them the chain from the head is that sequence (`chain_listed`). What `get_peer` finds is the first
matching record of the sequence, and `remove_peer` takes out this one and no other.

A record is allocated before it is added, at any address that is not in use. An address can be used again
when its record has been released.
-/

namespace Btide

namespace Life

/-- The calls; `removed` is the record that `remove_peer` has released. -/
inductive Call
  | alloc (peer : Nat) (value : PeerInfo)
  | add (peer : Nat)
  | remove (ip : Str) (port : Int32) (removed : Option Nat)

/-- A record that is not in the list and whose `next` is null. -/
def Fresh (s : Life) (peer : Nat) : Prop :=
  links s.peers peer = some none ∧ ¬ Reaches (links s.peers) s.peerList peer

/-- A call that runs to its end. -/
def CallStep (s : Life) (call : Call) (t : Life) : Prop :=
  match call with
  | .alloc peer value =>
    s.peers.cells peer = none ∧ t = { s with peers := s.peers.put peer { val := value, next := none } }
  | .add peer => s.Fresh peer ∧ Settles (fun fuel => s.addPeer fuel peer) (.ok t)
  | .remove ip port removed =>
    Settles (fun fuel => s.removePeer fuel ip port) (.ok t) ∧
      t.released = s.released ++ removed.toList

abbrev Calls := Steps CallStep

/-! ## The sequence -/

/-- Added records come last, and removed ones are taken out. -/
def record (L : List Nat) : Call → List Nat
  | .alloc _ _ => L
  | .add peer => L ++ [peer]
  | .remove _ _ none => L
  | .remove _ _ (some peer) => L.erase peer

/-- The records that were added and not yet removed, in order of addition. -/
def listed (calls : List Call) : List Nat := calls.foldl record []

/-- The record at `peer` has this address. -/
def Matches (s : Life) (ip : Str) (port : Int32) (peer : Nat) : Bool :=
  (s.peers.cells peer).any fun n => isPeer ip port n.val

/-! ## The calls on a chain -/

section Chain

variable {s t : Life} {L M N : List Nat} {peer : Nat} {n : Node PeerInfo} {ip : Str} {port : Int32}

theorem not_matches (hfail : ∀ v ∈ contents s.peers L, isPeer ip port v = false) (hpeer : peer ∈ L) :
    s.Matches ip port peer = false := by
  unfold Matches
  cases hn : s.peers.cells peer with
  | none => rfl
  | some n => exact hfail n.val (mem_contents hpeer hn)

/-- The first match of the list, as a search over the sequence. -/
theorem find?_first (hn : s.peers.cells peer = some n) (hp : isPeer ip port n.val = true)
    (hfail : ∀ v ∈ contents s.peers M, isPeer ip port v = false) :
    (M ++ peer :: N).find? (s.Matches ip port) = some peer := by
  have hpeer : s.Matches ip port peer = true := by
    unfold Matches
    rw [hn]
    exact hp
  have hM : M.find? (s.Matches ip port) = none := by
    rw [List.find?_eq_none]
    intro x hx
    simp [not_matches hfail hx]
  rw [List.find?_append, hM, Option.none_or, List.find?_cons_of_pos hpeer]

theorem find?_none (hfail : ∀ v ∈ contents s.peers L, isPeer ip port v = false) :
    L.find? (s.Matches ip port) = none := by
  rw [List.find?_eq_none]
  intro x hx
  simp [not_matches hfail hx]

/-- `get_peer` returns the first match. -/
theorem getPeer_find? (h : Chain (links s.peers) s.peerList L) (ip : Str) (port : Int32) :
    Settles (fun fuel => s.getPeer fuel ip port) (.ok (L.find? (s.Matches ip port))) := by
  rcases exists_first_match h (isPeer ip port) with hnone | ⟨M, peer, n, N, rfl, hn, hp, hfail⟩
  · rw [find?_none hnone]
    exact (search_none h hnone).map Prod.snd
  · rw [find?_first hn hp hfail]
    exact (search_found h hfail hn hp).map Prod.snd

/-- `add_peer` puts a fresh record at the end. -/
theorem addPeer_chain (h : Chain (links s.peers) s.peerList L) (hfresh : s.Fresh peer) :
    ∃ t, Settles (fun fuel => s.addPeer fuel peer) (.ok t) ∧
      Chain (links t.peers) t.peerList (L ++ [peer]) ∧ t.released = s.released := by
  obtain ⟨hlink, hreach⟩ := hfresh
  have hnew : peer ∉ L := fun hmem => hreach (h.reaches hmem)
  obtain ⟨peers, peerList, hrun, hchain, -⟩ := appendRecord_chain h hlink hnew
  exact ⟨_, hrun.bind (Settles.const _), hchain, rfl⟩

/-- `remove_peer` finds nothing: nothing changes. -/
theorem removePeer_none (h : Chain (links s.peers) s.peerList L)
    (hnone : L.find? (s.Matches ip port) = none) :
    Settles (fun fuel => s.removePeer fuel ip port) (.ok s) := by
  rcases exists_first_match h (isPeer ip port) with hfail | ⟨M, peer, n, N, rfl, hn, hp, hfail⟩
  · have hrun : Settles (fun fuel => s.removePeer fuel ip port)
        (.ok { s with released := s.released ++ [] }) :=
      (removeRecord_none h hfail).bind (Settles.const _)
    rwa [List.append_nil] at hrun
  · rw [find?_first hn hp hfail] at hnone
    cases hnone

/-- `remove_peer` finds a record: it is released, and the others keep their values and their order. -/
theorem removePeer_some (h : Chain (links s.peers) s.peerList L)
    (hsome : L.find? (s.Matches ip port) = some peer) :
    ∃ t, Settles (fun fuel => s.removePeer fuel ip port) (.ok t) ∧
      Chain (links t.peers) t.peerList (L.erase peer) ∧ t.released = s.released ++ [peer] ∧
      t.peers.cells peer = none ∧
      ∀ x, x ≠ peer → (t.peers.cells x).map Node.val = (s.peers.cells x).map Node.val := by
  rcases exists_first_match h (isPeer ip port) with hfail | ⟨M, a, n, N, rfl, hn, hp, hfail⟩
  · rw [find?_none hfail] at hsome
    cases hsome
  · rw [find?_first hn hp hfail] at hsome
    obtain rfl : a = peer := Option.some.inj hsome
    obtain ⟨peers, peerList, hrun, hchain, -, hgone, hval, -⟩ := removeRecord_found h hfail hn hp
    have hnot : a ∉ M := fun hmem =>
      List.disjoint_of_nodup_append h.nodup hmem List.mem_cons_self
    refine ⟨_, hrun.bind (Settles.const _), ?_, rfl, hgone, hval⟩
    rw [List.erase_append_right _ hnot, List.erase_cons_head]
    exact hchain

/-- **Step lemma.** A call does to the chain what it does to the sequence. -/
theorem CallStep.chain {call : Call} (hstep : s.CallStep call t)
    (h : Chain (links s.peers) s.peerList L) : Chain (links t.peers) t.peerList (record L call) := by
  cases call with
  | alloc peer value =>
      obtain ⟨hfree, rfl⟩ := hstep
      refine h.congr fun x hx => links_congr (Heap.put_cells_ne ?_)
      rintro rfl
      obtain ⟨r, hr⟩ := h.exists_link hx
      obtain ⟨n, hn, -⟩ := links_eq_some hr
      rw [hn] at hfree
      cases hfree
  | add peer =>
      obtain ⟨hfresh, hrun⟩ := hstep
      obtain ⟨t', hrun', hchain, -⟩ := addPeer_chain h hfresh
      obtain rfl : t' = t := Except.ok.inj (hrun'.unique hrun)
      exact hchain
  | remove ip port removed =>
      obtain ⟨hrun, hreleased⟩ := hstep
      cases hfind : L.find? (s.Matches ip port) with
      | none =>
          obtain rfl : s = t := Except.ok.inj ((removePeer_none h hfind).unique hrun)
          cases removed with
          | none => exact h
          | some peer => simp at hreleased
      | some peer =>
          obtain ⟨t', hrun', hchain, hreleased', -⟩ := removePeer_some h hfind
          obtain rfl : t' = t := Except.ok.inj (hrun'.unique hrun)
          rw [hreleased'] at hreleased
          have hremoved : [peer] = removed.toList := List.append_cancel_left hreleased
          cases removed with
          | none => cases hremoved
          | some a =>
              obtain rfl : peer = a := by simpa using hremoved
              exact hchain

/-- **Run lemma.** After any calls the chain from the head is the sequence. -/
theorem chain_listed {calls : List Call} (hempty : s.peerList = none) (h : Calls s calls t) :
    Chain (links t.peers) t.peerList (listed calls) := by
  induction h with
  | nil => exact chain_nil.mpr hempty
  | snoc _ hstep ih =>
      unfold listed
      rw [List.foldl_append]
      exact hstep.chain ih

end Chain

/-! ## The list over a run -/

/-- What a call of `get_peer` and a call of `remove_peer` do to the list `L`. -/
structure SearchesFirst (s : Life) (L : List Nat) (ip : Str) (port : Int32) : Prop where
  found : Settles (fun fuel => s.getPeer fuel ip port) (.ok (L.find? (s.Matches ip port)))
  unchanged : L.find? (s.Matches ip port) = none →
    Settles (fun fuel => s.removePeer fuel ip port) (.ok s)
  unlinked : ∀ peer, L.find? (s.Matches ip port) = some peer →
    ∃ t, Settles (fun fuel => s.removePeer fuel ip port) (.ok t) ∧
      Chain (links t.peers) t.peerList (L.erase peer) ∧ t.released = s.released ++ [peer] ∧
      ∀ x, x ≠ peer → (t.peers.cells x).map Node.val = (s.peers.cells x).map Node.val

/-- **The linked list is the sequence of its records.** After any calls from an empty list on, the chain
    from the head has no record twice, ends in a null pointer and consists of the records that were added
    and not yet removed, in order of addition. `get_peer` returns the first record with the given address
    or null; `remove_peer` unlinks that record and leaves the others alone, or changes nothing. A further
    record can always be added. -/
theorem peerList_sequence {s t : Life} {calls : List Call} (hempty : s.peerList = none)
    (h : Calls s calls t) :
    Chain (links t.peers) t.peerList (listed calls) ∧ (listed calls).Nodup ∧
    (∀ ip port, t.SearchesFirst (listed calls) ip port) ∧
    ∀ peer, t.Fresh peer → ∃ u, t.CallStep (.add peer) u := by
  have hchain := chain_listed hempty h
  refine ⟨hchain, hchain.nodup, fun ip port => ⟨getPeer_find? hchain ip port, ?_, ?_⟩, ?_⟩
  · exact removePeer_none hchain
  · intro peer hpeer
    obtain ⟨u, hrun, hrest, hreleased, -, hval⟩ := removePeer_some hchain hpeer
    exact ⟨u, hrun, hrest, hreleased, hval⟩
  · intro peer hfresh
    obtain ⟨u, hrun, -⟩ := addPeer_chain hchain hfresh
    exact ⟨u, hfresh, hrun⟩

/-- Two records for one address; the first of them is removed. -/
def twoRecords : List Call :=
  [.alloc 7 ⟨bytes "10.0.0.1", 80, none⟩, .add 7, .alloc 3 ⟨bytes "10.0.0.1", 80, none⟩, .add 3,
    .remove (bytes "10.0.0.1") 80 (some 7)]

theorem peerList_sequence_two :
    ∃ t, Calls init twoRecords t ∧ Chain (links t.peers) t.peerList [3] := by
  have hone : Calls init [.alloc 7 ⟨bytes "10.0.0.1", 80, none⟩] _ := Steps.nil.snoc ⟨rfl, rfl⟩
  have htwo := hone.snoc (show CallStep _ (.add 7) _ from
    ⟨⟨rfl, fun h => nomatch h⟩, Settles.of_add 0 fun k => rfl⟩)
  have hthree := htwo.snoc (show CallStep _ (.alloc 3 ⟨bytes "10.0.0.1", 80, none⟩) _ from ⟨rfl, rfl⟩)
  have hlist := chain_listed rfl hthree
  have hfour := hthree.snoc (show CallStep _ (.add 3) _ from
    ⟨⟨rfl, fun h => absurd (hlist.mem_of_reaches h) (by decide)⟩, Settles.of_add 1 fun k => rfl⟩)
  have hfive := hfour.snoc (show CallStep _ (.remove (bytes "10.0.0.1") 80 (some 7)) _ from
    ⟨Settles.of_add 1 fun k => rfl, rfl⟩)
  exact ⟨_, hfive, (peerList_sequence rfl hfive).1⟩

end Life

end Btide
