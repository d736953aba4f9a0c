import Mathlib.Data.List.Nodup
import Btide.Base.Run
import Btide.Base.Steps

/-!
# `Peer.Net` — connecting to peers (`peer.c`, `process_command`)

`CONNECT` looks for the peer in the list and, if it is not there, starts a detached thread. The thread
appends the peer when its connection has been established, without looking again. The parties of the
transition system are the command loop and the pending client threads; the duplicate check, `add_peer`
and `remove_peer` are one step each.

Within a run the entries of the list are determined by its events: an address is in the list after a
successful connection until it is disconnected (`mem_of_live`, `nodup_of_separated`). So the list has a
duplicate exactly when two connections to one address have succeeded with no `DISCONNECT` in between,
which the duplicate check does not prevent (`peers_nodup_iff`).
-/

namespace Btide

/-! ## The peer list -/

/-- `struct peer_info`; `socket_fd` is assigned when the connection has been established. -/
structure PeerInfo where
  ip : Str
  port : Int32
  socketFd : Option Int
deriving DecidableEq

/-- What identifies a peer. -/
def PeerInfo.addr (peer : PeerInfo) : Str × Int32 := (peer.ip, peer.port)

def getPeer : List PeerInfo → Str → Int32 → Option PeerInfo
  | [], _, _ => none
  | current :: rest, ip, port =>
    if current.ip = ip ∧ current.port = port then some current else getPeer rest ip port

def addPeer (peerList : List PeerInfo) (peer : PeerInfo) : List PeerInfo := peerList ++ [peer]

/-- `remove_peer`: the remaining list, and the peer that was closed and released. -/
def removePeer : List PeerInfo → Str → Int32 → List PeerInfo × Option PeerInfo
  | [], _, _ => ([], none)
  | current :: rest, ip, port =>
    if current.ip = ip ∧ current.port = port then (rest, some current)
    else
      let (rest, removed) := removePeer rest ip port
      (current :: rest, removed)

/-! ## The transition system -/

/-- The peer list, and the peers whose client threads have not finished. -/
structure Net where
  peerList : List PeerInfo
  pending : List PeerInfo
deriving DecidableEq

def Net.init : Net := { peerList := [], pending := [] }

inductive NetEvent
  /-- A `CONNECT` command; whether a thread can be created, should it come to that. -/
  | connect (ip : Str) (port : Int32) (created : Bool)
  /-- The client thread of `peer` ends; the socket, if the connection has been established. -/
  | finished (peer : PeerInfo) (sockfd : Option Int)
  | disconnect (ip : Str) (port : Int32)
deriving DecidableEq

/-- The `CONNECT` branch of `process_command`. -/
def Net.connect (net : Net) (ip : Str) (port : Int32) (created : Bool) : Net :=
  match getPeer net.peerList ip port with
  | some _ => net
  | none =>
    if created then
      { net with pending := net.pending ++ [{ ip := ip, port := port, socketFd := none }] }
    else net

/-- `client_thread` from the return of `client` on. -/
def Net.finished (net : Net) (peer : PeerInfo) (sockfd : Option Int) : Net :=
  match sockfd with
  | some fd =>
    { peerList := addPeer net.peerList { peer with socketFd := some fd }
      pending := net.pending.erase peer }
  | none => { net with pending := net.pending.erase peer }

/-- The `DISCONNECT` branch of `process_command`. -/
def Net.disconnect (net : Net) (ip : Str) (port : Int32) : Net :=
  { net with peerList := (removePeer net.peerList ip port).1 }

/-- One event; only a pending thread can finish. -/
def Net.step (net : Net) : NetEvent → Option Net
  | .connect ip port created => some (net.connect ip port created)
  | .finished peer sockfd => if peer ∈ net.pending then some (net.finished peer sockfd) else none
  | .disconnect ip port => some (net.disconnect ip port)

abbrev NetSteps := Steps fun (s : Net) (e : NetEvent) (t : Net) => s.step e = some t

/-- The states differ in the order of the pending peers at most. -/
structure Net.Same (a b : Net) : Prop where
  peerList : a.peerList = b.peerList
  pending : a.pending.Perm b.pending

theorem Net.Same.refl (a : Net) : a.Same a := ⟨rfl, List.Perm.refl _⟩

theorem Net.Same.trans {a b c : Net} (h : a.Same b) (h' : b.Same c) : a.Same c :=
  ⟨h.peerList.trans h'.peerList, h.pending.trans h'.pending⟩

/-- The order of the pending peers makes no difference to what can happen. -/
theorem Net.Same.step {a b a' : Net} {e : NetEvent} (h : a.Same b) (hstep : a.step e = some a') :
    ∃ b', b.step e = some b' ∧ a'.Same b' := by
  cases e with
  | connect ip port created =>
      cases hstep
      refine ⟨_, rfl, ?_⟩
      unfold Net.connect
      rw [h.peerList]
      split
      · exact h
      · split
        · exact ⟨rfl, h.pending.append_right _⟩
        · exact h
  | finished peer sockfd =>
      rw [Net.step] at hstep ⊢
      split at hstep
      · next hmem =>
          rw [if_pos (h.pending.mem_iff.mp hmem)]
          cases hstep
          refine ⟨_, rfl, ?_⟩
          cases sockfd with
          | none => exact ⟨h.peerList, h.pending.erase peer⟩
          | some fd => exact ⟨congrArg (addPeer · _) h.peerList, h.pending.erase peer⟩
      · cases hstep
  | disconnect ip port =>
      cases hstep
      refine ⟨_, rfl, ?_, h.pending⟩
      unfold Net.disconnect
      rw [h.peerList]

theorem Net.Same.steps {a b a' : Net} {es : List NetEvent} (h : a.Same b) (hrun : NetSteps a es a') :
    ∃ b', NetSteps b es b' ∧ a'.Same b' :=
  Steps.simulate (R := Net.Same) (fun _ _ _ _ hsame hstep => hsame.step hstep) hrun h

/-! ## What an event does to the addresses in the list -/

def addrs (peerList : List PeerInfo) : List (Str × Int32) := peerList.map PeerInfo.addr

/-- `remove_peer` removes the first entry with the address. -/
theorem addrs_removePeer (peerList : List PeerInfo) (ip : Str) (port : Int32) :
    addrs (removePeer peerList ip port).1 = (addrs peerList).erase (ip, port) := by
  induction peerList with
  | nil => rfl
  | cons current rest ih =>
      rw [removePeer]
      by_cases h : current.ip = ip ∧ current.port = port
      · have haddr : current.addr = (ip, port) := Prod.ext h.1 h.2
        rw [if_pos h, addrs, addrs, List.map_cons, haddr, List.erase_cons_head]
      · have hne : ¬ (current.addr == (ip, port)) = true := by
          rw [beq_iff_eq]
          exact fun he => h (Prod.mk.inj he)
        rw [if_neg h, addrs, addrs, List.map_cons, List.map_cons, List.erase_cons_tail hne]
        exact congrArg (current.addr :: ·) ih

/-- What one event does to the list of addresses. -/
theorem step_addrs {s t : Net} {e : NetEvent} (h : s.step e = some t) :
    (∃ ip port created, e = .connect ip port created ∧ addrs t.peerList = addrs s.peerList) ∨
    (∃ peer, e = .finished peer none ∧ addrs t.peerList = addrs s.peerList) ∨
    (∃ peer fd, e = .finished peer (some fd) ∧
      addrs t.peerList = addrs s.peerList ++ [peer.addr]) ∨
    (∃ ip port, e = .disconnect ip port ∧
      addrs t.peerList = (addrs s.peerList).erase (ip, port)) := by
  cases e with
  | connect ip port created =>
      refine Or.inl ⟨ip, port, created, rfl, ?_⟩
      obtain rfl : s.connect ip port created = t := Option.some.inj h
      rw [Net.connect]
      split
      · rfl
      · split <;> rfl
  | finished peer sockfd =>
      rw [Net.step] at h
      split at h
      · obtain rfl : s.finished peer sockfd = t := Option.some.inj h
        cases sockfd with
        | none => exact Or.inr (Or.inl ⟨peer, rfl, rfl⟩)
        | some fd =>
            refine Or.inr (Or.inr (Or.inl ⟨peer, fd, rfl, ?_⟩))
            show (s.peerList ++ [_]).map PeerInfo.addr = _
            rw [List.map_append]
            rfl
      · cases h
  | disconnect ip port =>
      obtain rfl : s.disconnect ip port = t := Option.some.inj h
      exact Or.inr (Or.inr (Or.inr ⟨ip, port, rfl, addrs_removePeer _ _ _⟩))

/-! ## Runs -/

/-- A connection to `addr` has succeeded, and no `DISCONNECT` of it came later. -/
def Live (addr : Str × Int32) (es : List NetEvent) : Prop :=
  ∃ pre post peer fd, es = pre ++ .finished peer (some fd) :: post ∧ peer.addr = addr ∧
    .disconnect addr.1 addr.2 ∉ post

/-- No two connections to one address succeed without a `DISCONNECT` of it in between. -/
def Separated (es : List NetEvent) : Prop :=
  ∀ pre mid post p q fd fd',
    es = pre ++ .finished p (some fd) :: (mid ++ .finished q (some fd') :: post) →
      p.addr = q.addr → .disconnect p.ip p.port ∈ mid

section Runs

variable {es : List NetEvent} {s t : Net} {addr : Str × Int32}

/-- An address stays in the list until it is disconnected. -/
theorem mem_of_no_disconnect (h : NetSteps s es t) (hes : .disconnect addr.1 addr.2 ∉ es)
    (hs : addr ∈ addrs s.peerList) : addr ∈ addrs t.peerList := by
  have hother : ∀ e ∈ es, e ≠ NetEvent.disconnect addr.1 addr.2 := fun e he heq => hes (heq ▸ he)
  have hkeep : ∀ (s : Net) e (t : Net), e ≠ NetEvent.disconnect addr.1 addr.2 →
      addr ∈ addrs s.peerList → s.step e = some t → addr ∈ addrs t.peerList := by
    intro s e t he hmem hstep
    rcases step_addrs hstep with ⟨_, _, _, _, ht⟩ | ⟨_, _, ht⟩ | ⟨_, _, _, ht⟩ |
      ⟨ip, port, rfl, ht⟩
    · rwa [ht]
    · rwa [ht]
    · rw [ht]
      exact List.mem_append_left _ hmem
    · have hne : addr ≠ (ip, port) := fun h => he (by rw [h])
      rw [ht]
      exact (List.mem_erase_of_ne hne).mpr hmem
  exact Steps.invariant_of_forall (fun s => addr ∈ addrs s.peerList) hkeep h hother hs

/-- A live address is in the list. -/
theorem mem_of_live (h : NetSteps s es t) (hlive : Live addr es) : addr ∈ addrs t.peerList := by
  obtain ⟨pre, post, peer, fd, rfl, rfl, hpost⟩ := hlive
  obtain ⟨u, _, hrest⟩ := h.of_append
  have hrest' : NetSteps u ([.finished peer (some fd)] ++ post) t := hrest
  obtain ⟨v, hone, hrest⟩ := hrest'.of_append
  apply mem_of_no_disconnect hrest hpost
  rcases step_addrs (Steps.single_iff.mp hone) with ⟨_, _, _, he, _⟩ | ⟨_, he, _⟩ |
    ⟨_, _, he, hv⟩ | ⟨_, _, he, _⟩
  · cases he
  · cases he
  · cases he
    rw [hv]
    exact List.mem_append_right _ List.mem_cons_self
  · cases he

/-- A later event keeps an address live unless it disconnects it. -/
theorem Live.snoc {e : NetEvent} (h : Live addr es) (he : e ≠ .disconnect addr.1 addr.2) :
    Live addr (es ++ [e]) := by
  obtain ⟨pre, post, peer, fd, rfl, hpeer, hpost⟩ := h
  refine ⟨pre, post ++ [e], peer, fd, by simp, hpeer, ?_⟩
  rw [List.mem_append, List.mem_singleton]
  rintro (hmem | heq)
  · exact hpost hmem
  · exact he heq.symm

theorem Separated.of_snoc {e : NetEvent} (h : Separated (es ++ [e])) : Separated es := by
  rintro pre mid post p q fd fd' rfl haddr
  exact h pre mid (post ++ [e]) p q fd fd' (by simp) haddr

theorem nodup_snoc {α : Type*} {xs : List α} {a : α} : (xs ++ [a]).Nodup ↔ xs.Nodup ∧ a ∉ xs := by
  rw [← List.concat_eq_append, List.nodup_concat, and_comm]

/-- A separated run reaches a list without duplicates, whose addresses are all live. -/
theorem nodup_of_separated (h : NetSteps .init es t) (hsep : Separated es) :
    (addrs t.peerList).Nodup ∧ ∀ addr ∈ addrs t.peerList, Live addr es := by
  induction h with
  | nil =>
      refine ⟨List.nodup_nil, fun addr h => ?_⟩
      cases h
  | @snoc t u es e _ hstep ih =>
      obtain ⟨hnodup, hlive⟩ := ih hsep.of_snoc
      have hkeep : ∀ addr ∈ addrs t.peerList, e ≠ .disconnect addr.1 addr.2 →
          Live addr (es ++ [e]) := fun addr hmem he => (hlive addr hmem).snoc he
      rcases step_addrs hstep with ⟨ip, port, created, rfl, hu⟩ | ⟨peer, rfl, hu⟩ |
        ⟨peer, fd, rfl, hu⟩ | ⟨ip, port, rfl, hu⟩
      · rw [hu]
        exact ⟨hnodup, fun addr hmem => hkeep addr hmem (by simp)⟩
      · rw [hu]
        exact ⟨hnodup, fun addr hmem => hkeep addr hmem (by simp)⟩
      · -- a second entry for a live address would have needed a `DISCONNECT`
        have hnew : peer.addr ∉ addrs t.peerList := by
          intro hmem
          obtain ⟨pre, post, p, fd', rfl, hp, hpost⟩ := hlive _ hmem
          have hdis := hsep pre post [] p peer fd' fd (by simp) hp
          rw [← hp] at hpost
          exact hpost hdis
        rw [hu]
        refine ⟨?_, fun addr hmem => ?_⟩
        · exact nodup_snoc.mpr ⟨hnodup, hnew⟩
        · rcases List.mem_append.mp hmem with hmem | hmem
          · exact hkeep addr hmem (by simp)
          · obtain rfl := List.mem_singleton.mp hmem
            exact ⟨es, [], peer, fd, rfl, rfl, List.not_mem_nil⟩
      · rw [hu]
        refine ⟨hnodup.erase _, fun addr hmem => ?_⟩
        obtain ⟨hne, hmem⟩ := (List.Nodup.mem_erase_iff hnodup).mp hmem
        refine hkeep addr hmem fun he => hne ?_
        injection he with hip hport
        exact Prod.ext hip.symm hport.symm

end Runs

/-- **When the list has no duplicate.** The states reached in the course of a run all have a list without
    duplicates if and only if no two connections to one address succeed without a `DISCONNECT` of it in
    between. -/
theorem peers_nodup_iff {es : List NetEvent} {s : Net} (h : NetSteps .init es s) :
    (∀ pre post t, es = pre ++ post → NetSteps .init pre t → (addrs t.peerList).Nodup) ↔
      Separated es := by
  constructor
  · rintro hall pre mid post p q fd fd' rfl haddr
    by_contra hdis
    -- cut the run before the second connection succeeds
    have hcut : pre ++ .finished p (some fd) :: (mid ++ .finished q (some fd') :: post)
        = (pre ++ .finished p (some fd) :: mid) ++ ([.finished q (some fd')] ++ post) := by simp
    rw [hcut] at h
    obtain ⟨t, ht, hrest⟩ := h.of_append
    obtain ⟨u, hone, _⟩ := hrest.of_append
    have hmem : p.addr ∈ addrs t.peerList := mem_of_live ht ⟨pre, mid, p, fd, rfl, rfl, hdis⟩
    have hnodup := hall (pre ++ .finished p (some fd) :: mid ++ [.finished q (some fd')]) post u
      (by simp) (ht.append hone)
    rcases step_addrs (Steps.single_iff.mp hone) with ⟨_, _, _, he, _⟩ | ⟨_, he, _⟩ |
      ⟨_, _, he, hu⟩ | ⟨_, _, he, _⟩
    · cases he
    · cases he
    · cases he
      rw [hu] at hnodup
      exact (nodup_snoc.mp hnodup).2 (haddr ▸ hmem)
    · cases he
  · rintro hsep pre post t rfl ht
    refine (nodup_of_separated ht ?_).1
    rintro pre' mid post' p q fd fd' rfl haddr
    exact hsep pre' mid (post' ++ post) p q fd fd' (by simp) haddr

/-! ## Two connections to one address -/

/-- A second `CONNECT` while the first connection is pending. -/
def connectTwice : List NetEvent :=
  [.connect (bytes "127.0.0.1") 8080 true, .connect (bytes "127.0.0.1") 8080 true,
    .finished ⟨bytes "127.0.0.1", 8080, none⟩ (some 5),
    .finished ⟨bytes "127.0.0.1", 8080, none⟩ (some 6)]

/-- The run of a list of events. -/
def Net.exec (s : Net) : List NetEvent → Option Net
  | [] => some s
  | e :: es => (s.step e).bind fun t => t.exec es

theorem Net.exec_steps {es : List NetEvent} {s t : Net} (h : s.exec es = some t) : NetSteps s es t := by
  induction es generalizing s with
  | nil =>
      obtain rfl : s = t := Option.some.inj h
      exact .nil
  | cons e es ih =>
      obtain ⟨u, hstep, hrest⟩ := Option.bind_eq_some_iff.mp h
      exact (Steps.single_iff.mpr hstep).append (ih hrest)

/-- **The peer ends up in the list twice.** -/
theorem connectTwice_duplicate :
    ∃ s, NetSteps .init connectTwice s ∧
      s.peerList = [⟨bytes "127.0.0.1", 8080, some 5⟩, ⟨bytes "127.0.0.1", 8080, some 6⟩] ∧
      ¬ (addrs s.peerList).Nodup := by
  refine ⟨{ peerList := _, pending := [] }, Net.exec_steps ?_, rfl, by decide⟩
  decide

/-- A connection, its end, and a second connection to the same peer. -/
def reconnect : List NetEvent :=
  [.connect (bytes "127.0.0.1") 8080 true, .finished ⟨bytes "127.0.0.1", 8080, none⟩ (some 5),
    .disconnect (bytes "127.0.0.1") 8080, .connect (bytes "127.0.0.1") 8080 true,
    .finished ⟨bytes "127.0.0.1", 8080, none⟩ (some 6)]

/-- Disconnecting in between keeps the list free of duplicates. -/
theorem peers_nodup_iff_reconnect :
    (∀ pre post t, reconnect = pre ++ post → NetSteps .init pre t → (addrs t.peerList).Nodup) ↔
      Separated reconnect :=
  peers_nodup_iff (s := { peerList := [⟨bytes "127.0.0.1", 8080, some 6⟩], pending := [] })
    (Net.exec_steps (by decide))

end Btide
