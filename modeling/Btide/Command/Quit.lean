import Btide.Command.Session
import Btide.Package.Remove
import Btide.Peer.Life

/-!
# `Command.Quit` — the two lists after `QUIT`

`free_peer` and `free_package` get the pointers to the two lists by value, so `QUIT` releases all records and
leaves the pointers to them. `quit` says the first, since its lists are the records in memory. Here the same
branch runs on linked records (`Records.quit`), the peers being those of `Peer.Life`: the records that the
two pointers led to still show the lists of the session afterwards, namely none (`Records.quit_holds`).

A client thread that ends later follows the pointer that has been left (`Life.finished_after_quit`).
-/

namespace Btide

/-- Peers, packages and tree nodes as records in memory, with the pointers to the two lists. -/
structure Records where
  life : Life
  packages : Packages
  mem : Mem

/-- The state is the heap, the current record and the tree nodes. -/
def freePackageBody (fuel : Nat) (s : Heap (Node BpkgObj) × Option Nat × Mem) :
    Run (Flow (Heap (Node BpkgObj) × Option Nat × Mem)) :=
  match s.2.1 with
  | none => .ok (.stop s)
  | some current => do
    let n ← load s.1 current
    let r ← freeTree fuel s.2.2 n.val.tree
    .ok (.next (s.1.free current, n.next, r.mem))

/-- `free_package(*bpkg_list)`. -/
def Packages.freePackage (fuel : Nat) (s : Packages) (mem : Mem) : Run (Packages × Mem) := do
  let (heap, _, mem) ←
    whileLoop (fun s => s.2.1.isSome) (freePackageBody fuel) fuel (s.heap, s.list, mem)
  .ok ({ s with heap := heap }, mem)

/-- The `QUIT` branch from the return of `pthread_join` on. -/
def Records.quit (fuel : Nat) (r : Records) : Run Records := do
  let life ← r.life.quit fuel
  let (packages, mem) ← r.packages.freePackage fuel r.mem
  .ok { life := life, packages := packages, mem := mem }

/-- What is left of the records `L` and `M` are the peers and the packages of the session. -/
structure Records.Hold (r : Records) (L M : List Nat) (s : Session) : Prop where
  net : (r.life.shown L).Same s.net
  packages : contents r.packages.heap M = s.managed.list
  mem : r.mem = s.managed.mem
  mainLoop : r.life.mainLoop = s.mainLoop

section Quit

variable {L M : List Nat} {s : Session} {ps : List Holding} {r : Records}

/-- The loop of `free_package` does to the trees what `freePackage` does. -/
theorem Packages.freePackage_settles {p : Packages} {mem mem' : Mem} (hchain : Chain (links p.heap) p.list M)
    (hfree : Settles (fun fuel => Btide.freePackage fuel mem (contents p.heap M)) (.ok mem')) :
    Settles (fun fuel => p.freePackage fuel mem) (.ok ({ p with heap := p.heap.freeAll M }, mem')) := by
  obtain ⟨n, hn⟩ := hfree
  refine ⟨n + M.length, fun fuel hfuel => ?_⟩
  -- the trees of the records that are left can still be released, and that leaves `mem'`
  let Inv := fun (rest : List Nat) (mem : Mem) =>
    Btide.freePackage fuel mem (contents p.heap rest) = .ok mem'
  have hstep : ∀ a rest n mem, p.heap.cells a = some n → Inv (a :: rest) mem →
      ∃ mem', Inv rest mem' ∧ ∀ g : Heap (Node BpkgObj), g.cells a = some n →
        freePackageBody fuel (g, some a, mem) = .ok (.next (g.free a, n.next, mem')) := by
    intro a rest n mem ha hrest
    have hrest : Btide.freePackage fuel mem (contents p.heap (a :: rest)) = .ok mem' := hrest
    rw [contents_cons ha] at hrest
    obtain ⟨tree, htree, hrest⟩ := Run.bind_eq_ok.mp hrest
    refine ⟨tree.mem, hrest, fun g hg => ?_⟩
    unfold freePackageBody
    simp only [load_ok hg, Run.ok_bind, htree]
  obtain ⟨left, hleft, hrun⟩ :=
    whileLoop_releases hstep (fun _ _ => rfl) hchain (hn fuel (by omega))
  obtain rfl : left = mem' := Except.ok.inj hleft
  obtain ⟨k, rfl⟩ := Nat.exists_eq_add_of_le' (show M.length ≤ fuel by omega)
  have hloop := hrun k
  unfold Packages.freePackage
  simp only [hloop, Run.ok_bind]

/-- **`QUIT` on records.** If the records hold what the session has, both runs of the branch return, and what
    is left of the records holds what the session has then: no peer and no package. The pointers to the two
    lists are the old ones. -/
theorem Records.quit_holds (h : Owned s.managed ps) (howned : r.life.Owned L)
    (hchain : Chain (links r.packages.heap) r.packages.list M) (hhold : r.Hold L M s) :
    ∃ s' r', Settles (fun fuel => Btide.quit fuel s) (.ok (s', [])) ∧
      Settles (fun fuel => r.quit fuel) (.ok r') ∧ r'.Hold L M s' ∧
      s'.net.peerList = [] ∧ s'.managed.list = [] ∧
      r'.life.released = r.life.released ++ L ∧ r'.life.peerList = r.life.peerList ∧
      r'.packages.list = r.packages.list := by
  obtain ⟨mem', hfree, _⟩ := h.freePackage
  obtain ⟨t, hquit, hpeers, hpending, hreleased, hloop, hrecords⟩ := Life.quit_settles howned
  have htrees := hfree
  rw [← hhold.packages, ← hhold.mem] at htrees
  have hpackages := Packages.freePackage_settles hchain htrees
  refine ⟨_, _, hfree.map _, hquit.bind (hpackages.map _), ⟨⟨?_, ?_⟩, ?_, rfl, hloop⟩, rfl, rfl, hreleased,
    hpeers, rfl⟩
  · exact (congrArg (contents · L) hrecords).trans (contents_freeAll r.life.peers L)
  · -- the records of the client threads are not touched
    have hsame : contents t.peers r.life.pending = contents r.life.peers r.life.pending :=
      contents_congr fun x hx => by
        rw [hrecords, Heap.freeAll_cells_of_notMem (howned.notMem_list hx)]
    show (contents t.peers t.pending).Perm s.net.pending
    rw [hpending, hsame]
    exact hhold.net.pending
  · exact contents_freeAll r.packages.heap M

end Quit

end Btide
