import Btide.Peer.Life

/-!
# `Peer.Refine` — the records show the peers of `Peer.Net`

`Peer.Net` keeps the peers in lists of values; `Peer.Life` keeps them in records that are linked, stored
to and released one by one. As long as every record has one owner, the second is an implementation of the
first: what the records hold (`Life.shown`) is a state of `Net` that the same events reach, up to the
order of the client threads (`refines_net`). `QUIT` finds an empty list there and has no counterpart in
`Net`.

What has been proved about the runs of `Net` so holds of the list in memory (`listed_nodup`,
`connected_listed`).
-/

namespace Btide

namespace Life

/-- The events of `Net` in the course of a run from the start over `es` to `s`. -/
inductive Trace : List Event → List NetEvent → Life → Prop
  | nil : Trace [] [] init
  | snoc {es fs s e t} : Trace es fs s → s.Step e t → Trace (es ++ [e]) (fs ++ s.netEvents e) t

section Trace

variable {es : List Event} {fs : List NetEvent} {s : Life} {L : List Nat}

theorem Trace.runs (h : Trace es fs s) : Runs init es s := by
  induction h with
  | nil => exact .nil
  | snoc _ hstep ih => exact ih.snoc hstep

theorem exists_trace (h : Runs init es s) : ∃ fs, Trace es fs s := by
  induction h with
  | nil => exact ⟨[], .nil⟩
  | snoc _ hstep ih =>
      obtain ⟨fs, hfs⟩ := ih
      exact ⟨_, hfs.snoc hstep⟩

/-- **Refinement.** In a careful run the records show the peers of a run of `Net` over the same events. -/
theorem refines_net (h : Trace es fs s) (hcareful : CarefulRun es) :
    ∃ L net, s.Owned L ∧ NetSteps .init fs net ∧ (s.shown L).Same net := by
  induction h with
  | nil => exact ⟨[], .init, init_owned, .nil, .refl _⟩
  | @snoc es fs s e t htrace hstep ih =>
      obtain ⟨L, net, hL, hnet, hsame⟩ := ih hcareful.of_append
      have hlast : s.Careful e := hcareful.last htrace.runs
      obtain ⟨t', hstep', M, net', hM, hnet', hsame'⟩ := step_owned hL hstep.1 hlast
      obtain rfl := hstep.unique hstep'
      -- the order of the pending peers differs in the two states of `Net`
      obtain ⟨net'', hrun, hsame''⟩ := hsame.steps hnet'
      exact ⟨M, net'', hM, hnet.append hrun, hsame'.trans hsame''⟩

theorem shown_peerList (h : Trace es fs s) (hcareful : CarefulRun es)
    (hL : Chain (links s.peers) s.peerList L) :
    ∃ net, NetSteps .init fs net ∧ contents s.peers L = net.peerList := by
  obtain ⟨M, net, hM, hnet, hsame⟩ := refines_net h hcareful
  obtain rfl := hL.unique hM.chain
  exact ⟨net, hnet, hsame.peerList⟩

/-- The list in memory has no duplicate if no two connections to one address succeed without a
    `DISCONNECT` in between. -/
theorem listed_nodup (h : Trace es fs s) (hcareful : CarefulRun es)
    (hL : Chain (links s.peers) s.peerList L) (hsep : Separated fs) :
    (addrs (contents s.peers L)).Nodup := by
  obtain ⟨net, hnet, hcontents⟩ := shown_peerList h hcareful hL
  rw [hcontents]
  exact (nodup_of_separated hnet hsep).1

/-- A peer that was connected and not disconnected since is in the list in memory. -/
theorem connected_listed (h : Trace es fs s) (hcareful : CarefulRun es)
    (hL : Chain (links s.peers) s.peerList L) {addr : Str × Int32} (hlive : Live addr fs) :
    addr ∈ addrs (contents s.peers L) := by
  obtain ⟨net, hnet, hcontents⟩ := shown_peerList h hcareful hL
  rw [hcontents]
  exact mem_of_live hnet hlive

end Trace

end Life

end Btide
