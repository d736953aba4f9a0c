import Btide.Theory.Chain
import Btide.Tree.Deal

/-!
# `Tree.Queue` — the queue of `tree/merkletree.c` as it lies in memory

`struct nodeQueue` is a linked list of `struct queueObject`s. `queuePush` walks to its end, `queuePop`
releases its first object. The other modules keep the queue as a list of node pointers; here the list is
what the objects hold (`NodeQueue.Holds`), each of the three functions does to the objects what its
namesake does to the list, and so does a loop that uses them (`linkedLoop_settles`).

The two traversals that touch every node, `levelOrderAddHash` and `freeTree`, have the same loop: take a
node, work on it, push its children, finish with it. `linkedBody` is its body.
-/

namespace Btide

/-- `struct nodeQueue`, with the objects that have been allocated for it. -/
structure NodeQueue where
  objects : Heap (Node Ptr)
  first : Option Nat

namespace NodeQueue

/-- `queue -> first = NULL` after the allocation. -/
def new : NodeQueue := { objects := Heap.empty, first := none }

/-- The walk to the last object takes fewer turns than objects have been allocated. -/
def queuePush (queue : NodeQueue) (node : Ptr) : Run NodeQueue := do
  let object := queue.objects.next
  let objects := queue.objects.alloc { val := node, next := none }
  let (objects, first) ← appendRecord objects object queue.first object
  .ok { objects := objects, first := first }

def queuePop (queue : NodeQueue) : Run (Ptr × NodeQueue) :=
  match queue.first with
  | none => .ok (none, queue)
  | some previousfirst => do
    let object ← load queue.objects previousfirst
    -- both branches of the source set `first` to the next object, or to NULL if there is none
    .ok (object.val, { objects := queue.objects.free previousfirst, first := object.next })

def queueEmpty (queue : NodeQueue) : Int := if queue.first = none then 1 else 0

/-- The objects hold the node pointers `list`, front first. -/
def Holds (queue : NodeQueue) (list : List Ptr) : Prop :=
  ∃ L, Chain (links queue.objects) queue.first L ∧ contents queue.objects L = list

variable {queue : NodeQueue} {list : List Ptr}

theorem new_holds : new.Holds [] := ⟨[], rfl, rfl⟩

theorem queuePush_holds (h : queue.Holds list) (node : Ptr) :
    ∃ queue', queue.queuePush node = .ok queue' ∧ queue'.Holds (Btide.queuePush list node) := by
  obtain ⟨L, hL, rfl⟩ := h
  obtain ⟨objects, first, M, hrun, hM, hcontents⟩ := appendRecord_contents hL node
  refine ⟨{ objects := objects, first := first }, ?_, M, hM, hcontents⟩
  unfold queuePush
  simp only [hrun _ (Nat.le_refl _), Run.ok_bind]

theorem queuePop_holds (h : queue.Holds list) :
    ∃ queue', queue.queuePop = .ok ((Btide.queuePop list).1, queue') ∧
      queue'.Holds (Btide.queuePop list).2 := by
  obtain ⟨L, hL, rfl⟩ := h
  unfold queuePop
  cases L with
  | nil =>
      rw [chain_nil.mp hL]
      exact ⟨queue, rfl, [], hL, rfl⟩
  | cons a L =>
      have hnot : a ∉ L := (List.nodup_cons.mp hL.nodup).1
      obtain ⟨hfirst, r, hr, hrest⟩ := hL
      obtain ⟨object, hobject, rfl⟩ := links_eq_some hr
      rw [hfirst]
      simp only [load_ok hobject, Run.ok_bind, contents_cons hobject]
      refine ⟨_, rfl, L, ?_, contents_free hnot⟩
      exact hrest.congr fun x hx => links_free_ne (ne_of_mem_of_not_mem hx hnot)

theorem queueEmpty_holds (h : queue.Holds list) : queue.queueEmpty = Btide.queueEmpty list := by
  obtain ⟨L, hL, rfl⟩ := h
  unfold queueEmpty Btide.queueEmpty
  cases L with
  | nil =>
      rw [if_pos (chain_nil.mp hL)]
      rfl
  | cons a L =>
      obtain ⟨hfirst, r, hr, -⟩ := hL
      obtain ⟨object, hobject, -⟩ := links_eq_some hr
      rw [contents_cons hobject, if_neg (by simp [hfirst]), if_neg (List.cons_ne_nil _ _)]

end NodeQueue

/-! ## The traversal -/

section Traversal

variable {σ : Type} (mem : σ → Mem) (before after : Ptr → σ → Run σ)

/-- Take a node, work on it, push its children, finish with it. -/
def traverseBody : σ × List Ptr → Run (Flow (σ × List Ptr))
  | (s, queue) => do
    let (currentnode, queue) := queuePop queue
    let s ← before currentnode s
    let cur ← (mem s).deref currentnode
    let s ← after currentnode s
    .ok (.next (s, pushChildren cur queue))

/-- `if (node != NULL) queuePush(queue, node);` -/
def NodeQueue.pushChild (queue : NodeQueue) (node : Ptr) : Run NodeQueue :=
  if node ≠ none then queue.queuePush node else .ok queue

/-- Push the children that exist. -/
def NodeQueue.pushChildren (cur : TreeNode) (queue : NodeQueue) : Run NodeQueue := do
  let queue ← queue.pushChild cur.left
  queue.pushChild cur.right

/-- The same with the queue in memory. -/
def linkedBody : σ × NodeQueue → Run (Flow (σ × NodeQueue))
  | (s, queue) => do
    let (currentnode, queue) ← queue.queuePop
    let s ← before currentnode s
    let cur ← (mem s).deref currentnode
    let queue ← queue.pushChildren cur
    let s ← after currentnode s
    .ok (.next (s, queue))

/-- `queuePush(queue, tree -> root); while (queueEmpty(queue) == 0) …` -/
def linkedLoop (fuel : Nat) (s : σ) (root : Ptr) : Run σ := do
  let queue ← NodeQueue.new.queuePush root
  let (s, _) ← whileLoop (fun s => s.2.queueEmpty == 0) (linkedBody mem before after) fuel (s, queue)
  .ok s

variable {mem before after}

theorem NodeQueue.pushChild_holds {queue : NodeQueue} {list : List Ptr} (h : queue.Holds list)
    (node : Ptr) :
    ∃ queue', queue.pushChild node = .ok queue' ∧
      queue'.Holds (if node ≠ none then Btide.queuePush list node else list) := by
  unfold pushChild
  by_cases hnode : node ≠ none
  · rw [if_pos hnode, if_pos hnode]
    exact queuePush_holds h node
  · rw [if_neg hnode, if_neg hnode]
    exact ⟨queue, rfl, h⟩

theorem NodeQueue.pushChildren_holds {queue : NodeQueue} {list : List Ptr} (h : queue.Holds list)
    (cur : TreeNode) :
    ∃ queue', queue.pushChildren cur = .ok queue' ∧ queue'.Holds (Btide.pushChildren cur list) := by
  obtain ⟨queue₁, hleft, h₁⟩ := pushChild_holds h cur.left
  obtain ⟨queue₂, hright, h₂⟩ := pushChild_holds h₁ cur.right
  refine ⟨queue₂, ?_, h₂⟩
  unfold pushChildren
  rw [hleft, Run.ok_bind, hright]

/-- A turn with the queue in memory follows a turn with the list. -/
theorem linkedBody_holds {s s' : σ} {list list' : List Ptr} {queue : NodeQueue} (h : queue.Holds list)
    (hbody : traverseBody mem before after (s, list) = .ok (.next (s', list'))) :
    ∃ queue', linkedBody mem before after (s, queue) = .ok (.next (s', queue')) ∧
      queue'.Holds list' := by
  obtain ⟨queue₁, hpop, h₁⟩ := NodeQueue.queuePop_holds h
  obtain ⟨s₁, hbefore, hbody⟩ := Run.bind_eq_ok.mp hbody
  obtain ⟨cur, hcur, hbody⟩ := Run.bind_eq_ok.mp hbody
  obtain ⟨s₂, hafter, hbody⟩ := Run.bind_eq_ok.mp hbody
  cases hbody
  obtain ⟨queue₂, hpush, h₂⟩ := NodeQueue.pushChildren_holds h₁ cur
  replace hbefore : before (queuePop list).1 s = .ok s₁ := hbefore
  replace hcur : (mem s₁).deref (queuePop list).1 = .ok cur := hcur
  replace hafter : after (queuePop list).1 s₁ = .ok s' := hafter
  refine ⟨queue₂, ?_, h₂⟩
  unfold linkedBody
  simp only [hpop, Run.ok_bind, hbefore, hcur, hpush, hafter]

/-- **The loop with the queue in memory** ends as the loop with the list does. -/
theorem linkedLoop_settles {s s' : σ} {root : Ptr} {rest : List Ptr}
    (h : Settles (fun fuel => queueLoop (traverseBody mem before after) fuel (s, queuePush [] root))
      (.ok (s', rest))) :
    Settles (fun fuel => linkedLoop mem before after fuel s root) (.ok s') := by
  obtain ⟨queue, hpush, hqueue⟩ := NodeQueue.queuePush_holds NodeQueue.new_holds root
  obtain ⟨n, hn⟩ := h
  have hlist : queueLoop (traverseBody mem before after) n (s, queuePush [] root) = .ok (s', rest) :=
    hn n (Nat.le_refl n)
  let R : σ × List Ptr → σ × NodeQueue → Prop := fun a b => a.1 = b.1 ∧ b.2.Holds a.2
  have hR : R (s, queuePush [] root) (s, queue) := ⟨rfl, hqueue⟩
  have hcond : ∀ a b, R a b → (b.2.queueEmpty == 0) = (queueEmpty a.2 == 0) := by
    intro a b hR
    rw [NodeQueue.queueEmpty_holds hR.2]
  have hnext : ∀ a b a', R a b → traverseBody mem before after a = .ok (.next a') →
      ∃ b', linkedBody mem before after b = .ok (.next b') ∧ R a' b' := by
    rintro ⟨s, list⟩ ⟨_, queue⟩ ⟨s', list'⟩ ⟨rfl, hR⟩ hbody
    obtain ⟨queue', hrun, hR'⟩ := linkedBody_holds hR hbody
    exact ⟨(s', queue'), hrun, rfl, hR'⟩
  have hstop : ∀ a b a', R a b → traverseBody mem before after a = .ok (.stop a') →
      ∃ b', linkedBody mem before after b = .ok (.stop b') ∧ R a' b' := by
    rintro ⟨s, list⟩ b a' - hbody
    obtain ⟨_, _, hbody⟩ := Run.bind_eq_ok.mp hbody
    obtain ⟨_, _, hbody⟩ := Run.bind_eq_ok.mp hbody
    obtain ⟨_, _, hbody⟩ := Run.bind_eq_ok.mp hbody
    cases hbody
  obtain ⟨⟨_, queue'⟩, hrun, rfl, -⟩ := whileLoop_simulates hcond hnext hstop hR hlist
  have hloop := whileLoop_settles hrun
  have hall : ∀ fuel, linkedLoop mem before after fuel s root
      = (whileLoop (fun s => s.2.queueEmpty == 0) (linkedBody mem before after) fuel (s, queue)
        >>= fun r => .ok r.1) := by
    intro fuel
    unfold linkedLoop
    rw [hpush, Run.ok_bind]
  simp only [hall]
  exact hloop.map Prod.fst

end Traversal

end Btide
