import Mathlib.Data.List.Nodup
import Mathlib.Data.List.Perm.Subperm
import Btide.Base.Heap
import Btide.Base.Loop

/-!
# `Theory.Chain` — singly linked lists

A linked list is what one meets by following the links of its records from a pointer on to a null
pointer. `Seg link p L q` says that the links lead from the pointer `p` through the records `L` to the
pointer `q`; a segment depends on the links of its own records only (`Seg.congr`) and can be cut anywhere
(`seg_append`). A `Chain` is a segment that ends in a null pointer. No record occurs in it twice
(`Chain.nodup`), so the two updates of a list are local: a record is appended by setting the link of the
last one (`Chain.append`) and taken out by setting the link of the one before it (`Chain.unlink`).

The second half runs the usual loops over a chain in a `Heap`: to the first record with a property, to
the last record, and over all of them to release them, whatever else is done with each
(`whileLoop_releases`).
-/

namespace Btide

/-! ## Segments -/

/-- The links lead from `p` through the records `L` to `q`; `link a` is the link of the record at `a`, if
    there is one. -/
def Seg {ι : Type*} (link : ι → Option (Option ι)) : Option ι → List ι → Option ι → Prop
  | p, [], q => p = q
  | p, a :: L, q => p = some a ∧ ∃ r, link a = some r ∧ Seg link r L q

/-- A segment up to a null pointer. -/
def Chain {ι : Type*} (link : ι → Option (Option ι)) (p : Option ι) (L : List ι) : Prop :=
  Seg link p L none

/-- The links lead from a pointer to a record, which may have been released. -/
inductive Reaches {ι : Type*} (link : ι → Option (Option ι)) : Option ι → ι → Prop
  | here {a} : Reaches link (some a) a
  | next {a b r} : link a = some r → Reaches link r b → Reaches link (some a) b

section Links

variable {ι : Type*} {link link' : ι → Option (Option ι)} {p q : Option ι} {L M : List ι} {a b c : ι}

theorem seg_cons : Seg link p (a :: L) q ↔ p = some a ∧ ∃ r, link a = some r ∧ Seg link r L q :=
  Iff.rfl

/-- A segment can be cut anywhere. -/
theorem seg_append : Seg link p (L ++ M) q ↔ ∃ r, Seg link p L r ∧ Seg link r M q := by
  induction L generalizing p with
  | nil =>
      constructor
      · intro h
        exact ⟨p, rfl, h⟩
      · rintro ⟨r, rfl, h⟩
        exact h
  | cons a L ih =>
      rw [List.cons_append, seg_cons]
      constructor
      · rintro ⟨hp, s, hs, h⟩
        obtain ⟨r, hL, hM⟩ := ih.mp h
        exact ⟨r, ⟨hp, s, hs, hL⟩, hM⟩
      · rintro ⟨r, ⟨hp, s, hs, hL⟩, hM⟩
        exact ⟨hp, s, hs, ih.mpr ⟨r, hL, hM⟩⟩

/-- Only the links of its own records matter to a segment. -/
theorem Seg.congr (h : Seg link p L q) (hlink : ∀ x ∈ L, link' x = link x) : Seg link' p L q := by
  induction L generalizing p with
  | nil => exact h
  | cons a L ih =>
      obtain ⟨hp, r, hr, hL⟩ := h
      refine ⟨hp, r, ?_, ih hL fun x hx => hlink x (List.mem_cons_of_mem a hx)⟩
      rw [hlink a List.mem_cons_self, hr]

/-! ## Chains -/

theorem chain_nil : Chain link p [] ↔ p = none := Iff.rfl

theorem Chain.congr (h : Chain link p L) (hlink : ∀ x ∈ L, link' x = link x) : Chain link' p L :=
  Seg.congr h hlink

/-- The pointer to a chain is null or points to its first record. -/
theorem Chain.head? (h : Chain link p L) : p = L.head? := by
  cases L with
  | nil => exact h
  | cons a L => exact h.1

theorem chain_append : Chain link p (L ++ M) ↔ ∃ r, Seg link p L r ∧ Chain link r M := seg_append

/-- What a record of a chain links to. -/
theorem Chain.link_eq (h : Chain link p (L ++ a :: M)) : link a = some M.head? := by
  obtain ⟨r, _, _, s, hs, hM⟩ := chain_append.mp h
  rw [hs, Chain.head? hM]

theorem Chain.exists_link (h : Chain link p L) (ha : a ∈ L) : ∃ r, link a = some r := by
  obtain ⟨pre, post, rfl⟩ := List.append_of_mem ha
  exact ⟨_, h.link_eq⟩

/-- A pointer leads to one chain at most. -/
theorem Chain.unique (h : Chain link p L) (h' : Chain link p M) : L = M := by
  induction L generalizing p M with
  | nil =>
      cases M with
      | nil => rfl
      | cons b M =>
          obtain ⟨hb, _⟩ := h'
          rw [chain_nil.mp h] at hb
          cases hb
  | cons a L ih =>
      obtain ⟨rfl, r, hr, hL⟩ := h
      cases M with
      | nil => cases h'
      | cons b M =>
          obtain ⟨hab, s, hs, hM⟩ := h'
          cases hab
          rw [hr] at hs
          cases hs
          rw [ih hL hM]

/-- No record occurs twice: what follows it would have two lengths. -/
theorem Chain.nodup (h : Chain link p L) : L.Nodup := by
  induction L generalizing p with
  | nil => exact List.nodup_nil
  | cons a L ih =>
      have hall := h
      obtain ⟨rfl, r, hr, hL⟩ := h
      refine List.nodup_cons.mpr ⟨fun ha => ?_, ih hL⟩
      obtain ⟨pre, post, rfl⟩ := List.append_of_mem ha
      obtain ⟨s, _, hs⟩ := chain_append.mp hL
      obtain rfl : s = some a := hs.1
      have hlen := congrArg List.length (hs.unique hall)
      simp at hlen
      omega

/-- The chain behind one of its records. -/
theorem Chain.split (h : Chain link p (L ++ a :: M)) :
    Seg link p L (some a) ∧ ∃ r, link a = some r ∧ Chain link r M := by
  obtain ⟨s, hL, rfl, r, hr, hM⟩ := chain_append.mp h
  exact ⟨hL, r, hr, hM⟩

/-- A chain reaches its own records only. -/
theorem Chain.mem_of_reaches (h : Chain link p L) (hreach : Reaches link p a) : a ∈ L := by
  induction hreach generalizing L with
  | here =>
      cases L with
      | nil => cases h
      | cons b L =>
          obtain ⟨hb, _⟩ := h
          cases hb
          exact List.mem_cons_self
  | next hlink _ ih =>
      cases L with
      | nil => cases h
      | cons b L =>
          obtain ⟨hb, r, hr, hL⟩ := h
          cases hb
          rw [hlink] at hr
          cases hr
          exact List.mem_cons_of_mem _ (ih hL)

/-- And it reaches all of them. -/
theorem Chain.reaches (h : Chain link p L) (ha : a ∈ L) : Reaches link p a := by
  induction L generalizing p with
  | nil => cases ha
  | cons b L ih =>
      obtain ⟨rfl, r, hr, hL⟩ := h
      rcases List.mem_cons.mp ha with rfl | ha
      · exact .here
      · exact .next hr (ih hL ha)

/-! ## The two updates -/

/-- Take out the first record. -/
theorem Chain.tail (h : Chain link p (a :: L)) (ha : link a = some q) : Chain link q L := by
  obtain ⟨_, r, hr, hL⟩ := h
  rw [ha] at hr
  cases hr
  exact hL

/-- Set the link of the last record to a new one. -/
theorem Chain.append (h : Chain link p (L ++ [c])) (hc : link' c = some (some a))
    (ha : link' a = some none) (hlink : ∀ x ∈ L, link' x = link x) :
    Chain link' p (L ++ [c, a]) := by
  obtain ⟨hL, _⟩ := h.split
  exact chain_append.mpr ⟨some c, hL.congr hlink, rfl, some a, hc, rfl, none, ha, rfl⟩

/-- Take out a record behind another one. -/
theorem Chain.unlink (h : Chain link p (L ++ b :: c :: M)) (hb : link' b = link c)
    (hlink : ∀ x, x ≠ b → link' x = link x) : Chain link' p (L ++ b :: M) := by
  have hnodup := h.nodup
  obtain ⟨hL, r, hr, hcM⟩ := h.split
  obtain ⟨rfl, s, hs, hM⟩ := hcM
  have hnotL : b ∉ L := fun hmem =>
    (List.disjoint_of_nodup_append hnodup) hmem List.mem_cons_self
  have hnotM : b ∉ M := fun hmem =>
    (List.nodup_cons.mp (List.nodup_append.mp hnodup).2.1).1 (List.mem_cons_of_mem c hmem)
  have hL' := hL.congr fun x hx => hlink x (ne_of_mem_of_not_mem hx hnotL)
  have hM' := hM.congr fun x hx => hlink x (ne_of_mem_of_not_mem hx hnotM)
  exact chain_append.mpr ⟨some b, hL', rfl, s, hb.trans hs, hM'⟩

end Links

/-! ## Records in a heap -/

/-- A record of a linked list. -/
structure Node (α : Type) where
  val : α
  next : Option Nat
deriving DecidableEq

section Records

variable {α : Type} {h h' : Heap (Node α)} {p : α → Bool} {head cur prev q : Option Nat}
  {L M : List Nat} {a b c : Nat} {n : Node α}

def links (h : Heap (Node α)) (a : Nat) : Option (Option Nat) := (h.cells a).map Node.next

/-- The values of some records. -/
def contents (h : Heap (Node α)) (L : List Nat) : List α :=
  L.filterMap fun a => (h.cells a).map Node.val

/-- `a->next = p`. -/
def setNext (h : Heap (Node α)) (a : Nat) (p : Option Nat) : Heap (Node α) :=
  h.modify a fun n => { n with next := p }

/-- The record behind a pointer that is not null. -/
def load (h : Heap (Node α)) (a : Nat) : Run (Node α) :=
  match h.cells a with
  | none => .error .wildPointer
  | some n => .ok n

theorem load_ok (ha : h.cells a = some n) : load h a = .ok n := by
  unfold load
  rw [ha]

theorem links_eq_some (ha : links h a = some q) : ∃ n, h.cells a = some n ∧ n.next = q :=
  Option.map_eq_some_iff.mp ha

theorem links_of_cell (ha : h.cells a = some n) : links h a = some n.next := by
  unfold links
  rw [ha]
  rfl

theorem contents_cons (ha : h.cells a = some n) : contents h (a :: L) = n.val :: contents h L :=
  List.filterMap_cons_some (by rw [ha]; rfl)

theorem contents_append (h : Heap (Node α)) (L M : List Nat) :
    contents h (L ++ M) = contents h L ++ contents h M := List.filterMap_append

/-- Contents depend on the values only. -/
theorem contents_congr (hval : ∀ x ∈ L, (h'.cells x).map Node.val = (h.cells x).map Node.val) :
    contents h' L = contents h L := List.filterMap_congr hval

theorem contents_free (ha : a ∉ L) : contents (h.free a) L = contents h L :=
  contents_congr fun x hx => by rw [Heap.free_cells_ne (ne_of_mem_of_not_mem hx ha)]

theorem contents_modify {f : Node α → Node α} (ha : a ∉ L) : contents (h.modify a f) L = contents h L :=
  contents_congr fun x hx => by rw [Heap.modify_cells_ne (ne_of_mem_of_not_mem hx ha)]

theorem contents_alloc (hL : ∀ x ∈ L, x < h.next) : contents (h.alloc n) L = contents h L :=
  contents_congr fun x hx => by rw [Heap.alloc_cells_lt (hL x hx)]

theorem contents_freeAll (h : Heap (Node α)) (L : List Nat) : contents (h.freeAll L) L = [] :=
  List.filterMap_eq_nil_iff.mpr fun a ha => by rw [Heap.freeAll_cells_of_mem ha]; rfl

/-- The order of the records is that of their values. -/
theorem contents_perm (hperm : L.Perm M) : (contents h L).Perm (contents h M) := hperm.filterMap _

/-- A value found in the contents is that of a record. -/
theorem mem_contents (ha : a ∈ L) (hn : h.cells a = some n) : n.val ∈ contents h L :=
  List.mem_filterMap.mpr ⟨a, ha, by rw [hn]; rfl⟩

theorem setNext_cells_ne (hb : b ≠ a) (p : Option Nat) : (setNext h a p).cells b = h.cells b :=
  Heap.modify_cells_ne hb

theorem setNext_cells_self (ha : h.cells a = some n) (p : Option Nat) :
    (setNext h a p).cells a = some { n with next := p } := by
  unfold setNext
  rw [Heap.modify_cells_self, ha]
  rfl

/-- Setting a link leaves all values alone. -/
theorem setNext_val (h : Heap (Node α)) (a : Nat) (p : Option Nat) (b : Nat) :
    ((setNext h a p).cells b).map Node.val = (h.cells b).map Node.val := by
  by_cases hb : b = a
  · subst hb
    unfold setNext
    rw [Heap.modify_cells_self, Option.map_map]
    rfl
  · rw [setNext_cells_ne hb]

/-- A link depends on its record only. -/
theorem links_congr (hcell : h'.cells a = h.cells a) : links h' a = links h a := by
  unfold links
  rw [hcell]

theorem links_setNext_ne (hb : b ≠ a) (p : Option Nat) : links (setNext h a p) b = links h b :=
  links_congr (setNext_cells_ne hb p)

theorem links_setNext_self (ha : h.cells a = some n) (p : Option Nat) :
    links (setNext h a p) a = some p := links_of_cell (setNext_cells_self ha p)

theorem links_free_ne (hb : b ≠ a) : links (h.free a) b = links h b :=
  links_congr (Heap.free_cells_ne hb)

theorem links_alloc_lt (hb : b < h.next) : links (h.alloc n) b = links h b :=
  links_congr (Heap.alloc_cells_lt hb)

theorem links_alloc_self (h : Heap (Node α)) (n : Node α) : links (h.alloc n) h.next = some n.next :=
  links_of_cell (h.alloc_cells_self n)

/-- Storing a value leaves all links alone. -/
theorem links_modify {f : Node α → Node α} (hf : ∀ n, (f n).next = n.next) (h : Heap (Node α))
    (a b : Nat) : links (h.modify a f) b = links h b := by
  by_cases hb : b = a
  · subst hb
    have hcomp : Node.next ∘ f = Node.next := funext hf
    unfold links
    rw [Heap.modify_cells_self, Option.map_map, hcomp]
  · exact links_congr (Heap.modify_cells_ne hb)

/-! ## The loops -/

/-- The state of the search is the record before the current one and the current one. -/
def searchBody (p : α → Bool) (h : Heap (Node α)) (s : Option Nat × Option Nat) :
    Run (Flow (Option Nat × Option Nat)) :=
  match s.2 with
  | none => .ok (.stop s)
  | some current => do
    let n ← load h current
    if p n.val then .ok (.stop s) else .ok (.next (some current, n.next))

/-- `while (current != NULL) { if (…) break; prev = current; current = current->next; }`. -/
def search (p : α → Bool) (h : Heap (Node α)) (fuel : Nat) (head : Option Nat) :
    Run (Option Nat × Option Nat) :=
  whileLoop (fun s => s.2.isSome) (searchBody p h) fuel (none, head)

def lastBody (h : Heap (Node α)) (current : Nat) : Run (Flow Nat) := do
  let n ← load h current
  match n.next with
  | none => .ok (.stop current)
  | some next => .ok (.next next)

/-- `while (current->next != NULL) current = current->next;`. -/
def last (h : Heap (Node α)) (fuel : Nat) (first : Nat) : Run Nat :=
  whileLoop (fun _ => true) (lastBody h) fuel first

/-- Append the record at `a`; the new heap and the new head. -/
def appendRecord (h : Heap (Node α)) (fuel : Nat) (head : Option Nat) (a : Nat) :
    Run (Heap (Node α) × Option Nat) :=
  match head with
  | none => .ok (h, some a)
  | some first => do
    let current ← last h fuel first
    .ok (setNext h current (some a), head)

/-- Take out and release the first record that satisfies `p`; the new heap, the new head and the released
    record. -/
def removeRecord (p : α → Bool) (h : Heap (Node α)) (fuel : Nat) (head : Option Nat) :
    Run (Heap (Node α) × Option Nat × Option Nat) := do
  let (prev, current) ← search p h fuel head
  match current with
  | none => .ok (h, head, none)
  | some a => do
    let n ← load h a
    match prev with
    | none => .ok (h.free a, n.next, some a)
    | some b => .ok ((setNext h b n.next).free a, head, some a)

/-- The state is the heap, the current record and the records released so far. -/
def releaseBody (s : Heap (Node α) × Option Nat × List Nat) :
    Run (Flow (Heap (Node α) × Option Nat × List Nat)) :=
  match s.2.1 with
  | none => .ok (.stop s)
  | some current => do
    let n ← load s.1 current
    .ok (.next (s.1.free current, n.next, s.2.2 ++ [current]))

/-- `while (current != NULL) { next = current->next; free(current); current = next; }`; the new heap and
    the released records. -/
def releaseAll (h : Heap (Node α)) (fuel : Nat) (head : Option Nat) : Run (Heap (Node α) × List Nat) := do
  let (h, _, released) ← whileLoop (fun s => s.2.1.isSome) releaseBody fuel (h, head, [])
  .ok (h, released)

/-! ## What the loops do on a chain -/

theorem search_seg (hseg : Seg (links h) cur L q) (hfail : ∀ v ∈ contents h L, p v = false)
    (fuel : Nat) :
    whileLoop (fun s => s.2.isSome) (searchBody p h) (fuel + L.length) (prev, cur)
      = whileLoop (fun s => s.2.isSome) (searchBody p h) fuel (L.getLast?.or prev, q) := by
  induction L generalizing cur prev with
  | nil =>
      obtain rfl : cur = q := hseg
      rfl
  | cons a L ih =>
      obtain ⟨rfl, r, hr, hL⟩ := hseg
      obtain ⟨n, hn, rfl⟩ := links_eq_some hr
      rw [contents_cons hn, List.forall_mem_cons] at hfail
      -- the record does not satisfy `p`
      have hbody : searchBody p h (prev, some a) = .ok (.next (some a, n.next)) := by
        unfold searchBody
        simp only [load_ok hn, Run.ok_bind, hfail.1, Bool.false_eq_true, if_false]
      rw [List.length_cons, ← Nat.add_assoc, whileLoop_next rfl hbody, ih hL hfail.2]
      cases L with
      | nil => rfl
      | cons b L => rw [List.getLast?_cons_cons, List.getLast?_eq_some_getLast (List.cons_ne_nil b L)]; rfl

/-- A search that finds nothing. -/
theorem search_none (hchain : Chain (links h) head L) (hfail : ∀ v ∈ contents h L, p v = false) :
    Settles (fun fuel => search p h fuel head) (.ok (L.getLast?, none)) := by
  apply Settles.of_add L.length
  intro fuel
  unfold search
  rw [search_seg hchain hfail, Option.or_none, whileLoop_exit rfl]

/-- A search that ends at the first record that satisfies `p`. -/
theorem search_found (hchain : Chain (links h) head (L ++ a :: M))
    (hfail : ∀ v ∈ contents h L, p v = false) (hn : h.cells a = some n) (hp : p n.val = true) :
    Settles (fun fuel => search p h fuel head) (.ok (L.getLast?, some a)) := by
  apply Settles.of_add (1 + L.length)
  intro fuel
  have hbody : searchBody p h (L.getLast?, some a) = .ok (.stop (L.getLast?, some a)) := by
    unfold searchBody
    simp only [load_ok hn, Run.ok_bind, hp, if_true]
  unfold search
  rw [← Nat.add_assoc, search_seg hchain.split.1 hfail, Option.or_none,
    whileLoop_stop rfl hbody]

theorem last_seg (hseg : Seg (links h) (some a) L (some c)) (fuel : Nat) :
    whileLoop (fun _ => true) (lastBody h) (fuel + L.length) a
      = whileLoop (fun _ => true) (lastBody h) fuel c := by
  induction L generalizing a with
  | nil =>
      cases hseg
      rfl
  | cons b L ih =>
      obtain ⟨hab, r, hr, hL⟩ := hseg
      cases hab
      obtain ⟨n, hn, hnext⟩ := links_eq_some hr
      obtain ⟨d, rfl⟩ : ∃ d, r = some d := by
        cases L with
        | nil => exact ⟨c, hL⟩
        | cons d L => exact ⟨d, hL.1⟩
      have hbody : lastBody h b = .ok (.next d) := by
        unfold lastBody
        rw [load_ok hn, Run.ok_bind, hnext]
      rw [List.length_cons, ← Nat.add_assoc, whileLoop_next rfl hbody, ih hL]

theorem last_chain (hchain : Chain (links h) (some a) (L ++ [c])) {m : Nat} (hm : L.length + 1 ≤ m) :
    last h m a = .ok c := by
  obtain ⟨fuel, rfl⟩ := Nat.exists_eq_add_of_le' hm
  obtain ⟨hL, r, hr, hnil⟩ := hchain.split
  obtain rfl : r = none := hnil
  obtain ⟨n, hn, hnext⟩ := links_eq_some hr
  have hbody : lastBody h c = .ok (.stop c) := by
    unfold lastBody
    rw [load_ok hn, Run.ok_bind, hnext]
  unfold last
  rw [Nat.add_comm L.length 1, ← Nat.add_assoc, last_seg hL, whileLoop_stop rfl hbody]

/-- The records of a list have been handed out. -/
theorem Chain.lt_next (hchain : Chain (links h) head L) (ha : a ∈ L) : a < h.next := by
  obtain ⟨r, hr⟩ := hchain.exists_link ha
  obtain ⟨n, hn, _⟩ := links_eq_some hr
  exact Heap.lt_next hn

theorem Chain.length_le (hchain : Chain (links h) head L) : L.length ≤ h.next := by
  have hsub : L ⊆ List.range h.next := fun x hx => List.mem_range.mpr (hchain.lt_next hx)
  simpa using (hchain.nodup.subperm hsub).length_le

/-- Appending takes one turn for each record of the list. -/
theorem appendRecord_run (hchain : Chain (links h) head L) (ha : links h a = some none)
    (hnew : a ∉ L) :
    ∃ h' head', (∀ m, L.length ≤ m → appendRecord h m head a = .ok (h', head')) ∧
      Chain (links h') head' (L ++ [a]) ∧ h'.next = h.next ∧
      (∀ x, (h'.cells x).map Node.val = (h.cells x).map Node.val) ∧
      ∀ x, x ∉ L → h'.cells x = h.cells x := by
  rcases List.eq_nil_or_concat' L with rfl | ⟨M, c, rfl⟩
  · obtain rfl := chain_nil.mp hchain
    exact ⟨h, some a, fun _ _ => rfl, ⟨rfl, none, ha, rfl⟩, rfl, fun _ => rfl, fun _ _ => rfl⟩
  · obtain ⟨first, rfl⟩ : ∃ first, head = some first := by
      cases M with
      | nil => exact ⟨c, hchain.1⟩
      | cons b M => exact ⟨b, hchain.1⟩
    have hlast : links h c = some none := hchain.link_eq
    obtain ⟨n, hn, -⟩ := links_eq_some hlast
    refine ⟨setNext h c (some a), some first, ?_, ?_, rfl, setNext_val h c (some a), ?_⟩
    · intro m hm
      rw [List.length_append, List.length_singleton] at hm
      unfold appendRecord
      simp only [last_chain hchain hm, Run.ok_bind]
    · have hac : a ≠ c := fun he => hnew (by simp [he])
      have hlinked := hchain.append (links_setNext_self hn (some a))
        ((links_setNext_ne hac (some a)).trans ha) fun x hx => links_setNext_ne ?_ (some a)
      · rwa [List.append_assoc]
      · rintro rfl
        exact (List.disjoint_of_nodup_append hchain.nodup) hx List.mem_cons_self
    · intro x hx
      exact setNext_cells_ne (fun he => hx (by simp [he])) _

/-- **Appending.** A record whose link is null comes behind the others; all values stay, and so do the
    links outside the list. -/
theorem appendRecord_chain (hchain : Chain (links h) head L) (ha : links h a = some none)
    (hnew : a ∉ L) :
    ∃ h' head', Settles (fun fuel => appendRecord h fuel head a) (.ok (h', head')) ∧
      Chain (links h') head' (L ++ [a]) ∧ h'.next = h.next ∧
      (∀ x, (h'.cells x).map Node.val = (h.cells x).map Node.val) ∧
      ∀ x, x ∉ L → h'.cells x = h.cells x := by
  obtain ⟨h', head', hrun, hrest⟩ := appendRecord_run hchain ha hnew
  exact ⟨h', head', ⟨L.length, hrun⟩, hrest⟩

/-- In terms of the contents, a new value comes behind the others; no list is longer than the number of
    records handed out. -/
theorem appendRecord_contents (hchain : Chain (links h) head L) (v : α) :
    ∃ h' head' M,
      (∀ m, h.next ≤ m → appendRecord (h.alloc { val := v, next := none }) m head h.next
        = .ok (h', head')) ∧
      Chain (links h') head' M ∧ contents h' M = contents h L ++ [v] := by
  have hlt : ∀ x ∈ L, x < h.next := fun x hx => hchain.lt_next hx
  have hnew : h.next ∉ L := fun hmem => absurd (hlt _ hmem) (Nat.lt_irrefl _)
  have hchain' := hchain.congr fun x hx => links_alloc_lt (n := { val := v, next := none }) (hlt x hx)
  obtain ⟨h', head', hrun, hlist, _, hval, _⟩ :=
    appendRecord_run hchain' (links_alloc_self _ _) hnew
  refine ⟨h', head', L ++ [h.next], fun m hm => hrun m (Nat.le_trans hchain.length_le hm), hlist, ?_⟩
  rw [contents_congr fun x _ => hval x, contents_append, contents_alloc hlt,
    contents_cons (Heap.alloc_cells_self _ _)]
  rfl

/-- A list has no record that satisfies `p`, or a first one. -/
theorem exists_first_match (hchain : Chain (links h) head L) (p : α → Bool) :
    (∀ v ∈ contents h L, p v = false) ∨
      ∃ M a n N, L = M ++ a :: N ∧ h.cells a = some n ∧ p n.val = true ∧
        ∀ v ∈ contents h M, p v = false := by
  induction L generalizing head with
  | nil => exact Or.inl fun v hv => by cases hv
  | cons a L ih =>
      obtain ⟨_, r, hr, hL⟩ := hchain
      obtain ⟨n, hn, -⟩ := links_eq_some hr
      by_cases hp : p n.val = true
      · exact Or.inr ⟨[], a, n, L, rfl, hn, hp, fun v hv => by cases hv⟩
      · have hpf := Bool.eq_false_iff.mpr hp
        rcases ih hL with hnone | ⟨M, b, m, N, rfl, hm, hpm, hfail⟩
        · apply Or.inl
          rw [contents_cons hn]
          exact List.forall_mem_cons.mpr ⟨hpf, hnone⟩
        · refine Or.inr ⟨a :: M, b, m, N, rfl, hm, hpm, ?_⟩
          rw [contents_cons hn]
          exact List.forall_mem_cons.mpr ⟨hpf, hfail⟩

theorem removeRecord_none (hchain : Chain (links h) head L)
    (hfail : ∀ v ∈ contents h L, p v = false) :
    Settles (fun fuel => removeRecord p h fuel head) (.ok (h, head, none)) :=
  (search_none hchain hfail).bind (Settles.const _)

/-- **Removing.** The first record that satisfies `p` is taken out and released; the others keep their
    values and their order. -/
theorem removeRecord_found (hchain : Chain (links h) head (L ++ a :: M))
    (hfail : ∀ v ∈ contents h L, p v = false) (hn : h.cells a = some n) (hp : p n.val = true) :
    ∃ h' head', Settles (fun fuel => removeRecord p h fuel head) (.ok (h', head', some a)) ∧
      Chain (links h') head' (L ++ M) ∧ h'.next = h.next ∧ h'.cells a = none ∧
      (∀ x, x ≠ a → (h'.cells x).map Node.val = (h.cells x).map Node.val) ∧
      ∀ x, x ≠ a → x ∉ L → h'.cells x = h.cells x := by
  have hnodup := hchain.nodup
  have hrun := (search_found hchain hfail hn hp)
  have hnotin : ∀ x ∈ L ++ M, x ≠ a := by
    rintro x hx rfl
    exact (List.nodup_middle.mp hnodup).notMem hx
  rcases List.eq_nil_or_concat' L with rfl | ⟨K, b, rfl⟩
  · -- the head
    refine ⟨h.free a, n.next, ?_, ?_, rfl, h.free_cells_self a, ?_, ?_⟩
    · apply hrun.bind
      show Settles (fun _ => load h a >>= fun n => _) _
      rw [load_ok hn]
      exact Settles.const _
    · exact (hchain.tail (links_of_cell hn)).congr fun x hx => links_free_ne (hnotin x hx)
    · intro x hx
      rw [Heap.free_cells_ne hx]
    · intro x hx _
      exact Heap.free_cells_ne hx
  · -- behind `b`
    have hb : b ≠ a := hnotin b (by simp)
    obtain ⟨m, hm, -⟩ := links_eq_some (hchain.exists_link (a := b) (by simp)).choose_spec
    refine ⟨(setNext h b n.next).free a, head, ?_, ?_, rfl, Heap.free_cells_self _ a, ?_, ?_⟩
    · apply hrun.bind
      rw [List.getLast?_concat]
      show Settles (fun _ => load h a >>= fun n => _) _
      rw [load_ok hn]
      exact Settles.const _
    · rw [List.append_assoc, List.singleton_append] at hchain ⊢
      have hlink : links (setNext h b n.next) b = links h a := by
        rw [links_setNext_self hm, links_of_cell hn]
      have hunlinked := hchain.unlink hlink fun x hx => links_setNext_ne hx n.next
      refine hunlinked.congr fun x hx => links_free_ne (hnotin x ?_)
      simpa using hx
    · intro x hx
      rw [Heap.free_cells_ne hx, setNext_val]
    · intro x hx hxL
      rw [Heap.free_cells_ne hx]
      exact setNext_cells_ne (fun he => hxL (by simp [he])) _

/-- In terms of the contents, the first match is erased. -/
theorem contents_removed (hchain : Chain (links h) head (L ++ a :: M))
    (hfail : ∀ v ∈ contents h L, p v = false) (hn : h.cells a = some n) (hp : p n.val = true)
    (hval : ∀ x, x ≠ a → (h'.cells x).map Node.val = (h.cells x).map Node.val) :
    contents h' (L ++ M) = (contents h (L ++ a :: M)).eraseP p := by
  have hkeep : contents h' (L ++ M) = contents h (L ++ M) := by
    refine contents_congr fun x hx => hval x ?_
    rintro rfl
    exact (List.nodup_middle.mp hchain.nodup).notMem hx
  rw [hkeep, contents_append, contents_append, contents_cons hn, List.eraseP_append_right]
  · rw [List.eraseP_cons_of_pos hp]
  · intro v hv
    rw [hfail v hv]
    exact Bool.false_ne_true

theorem contents_not_removed (hfail : ∀ v ∈ contents h L, p v = false) :
    contents h L = (contents h L).eraseP p := by
  rw [List.eraseP_of_forall_not]
  intro v hv
  rw [hfail v hv]
  exact Bool.false_ne_true

theorem removeRecord_contents (hchain : Chain (links h) head L) (p : α → Bool) :
    ∃ h' head' removed M, Settles (fun fuel => removeRecord p h fuel head) (.ok (h', head', removed)) ∧
      Chain (links h') head' M ∧ contents h' M = (contents h L).eraseP p ∧
      removed.isSome = (contents h L).any p := by
  rcases exists_first_match hchain p with hnone | ⟨M, a, n, N, rfl, hn, hp, hfail⟩
  · refine ⟨h, head, none, L, removeRecord_none hchain hnone, hchain, contents_not_removed hnone, ?_⟩
    exact (List.any_eq_false.mpr fun v hv => by simp [hnone v hv]).symm
  · obtain ⟨h', head', hrun, hrest, _, _, hval, _⟩ := removeRecord_found hchain hfail hn hp
    refine ⟨h', head', some a, M ++ N, hrun, hrest, contents_removed hchain hfail hn hp hval, ?_⟩
    rw [contents_append, contents_cons hn, List.any_append, List.any_cons, hp, Bool.true_or, Bool.or_true]
    rfl

/-- **A loop that releases the records of a list.** In each turn it reads the first record that is left and
    releases it. `Inv` is what it keeps up of the records that are left and of what else it computes. -/
theorem whileLoop_releases {σ : Type}
    {body : Heap (Node α) × Option Nat × σ → Run (Flow (Heap (Node α) × Option Nat × σ))}
    {Inv : List Nat → σ → Prop}
    (hstep : ∀ a L n s, h.cells a = some n → Inv (a :: L) s → ∃ s', Inv L s' ∧
      ∀ g : Heap (Node α), g.cells a = some n →
        body (g, some a, s) = .ok (.next (g.free a, n.next, s')))
    {g : Heap (Node α)} {s : σ} (hsame : ∀ x ∈ L, g.cells x = h.cells x)
    (hchain : Chain (links g) head L) (hs : Inv L s) :
    ∃ s', Inv [] s' ∧ ∀ fuel, whileLoop (fun s => s.2.1.isSome) body (fuel + L.length) (g, head, s)
      = .ok (g.freeAll L, none, s') := by
  induction L generalizing g head s with
  | nil =>
      obtain rfl := chain_nil.mp hchain
      exact ⟨s, hs, fun fuel => whileLoop_exit rfl fuel⟩
  | cons a L ih =>
      have hnodup := List.nodup_cons.mp hchain.nodup
      obtain ⟨rfl, r, hr, hL⟩ := hchain
      obtain ⟨n, hn, rfl⟩ := links_eq_some hr
      have hne : ∀ x ∈ L, x ≠ a := fun x hx => ne_of_mem_of_not_mem hx hnodup.1
      obtain ⟨s', hs', hbody⟩ := hstep a L n s ((hsame a List.mem_cons_self).symm.trans hn) hs
      -- the rest of the list is as it was
      have hrest : Chain (links (g.free a)) n.next L := hL.congr fun x hx => links_free_ne (hne x hx)
      have hsame' : ∀ x ∈ L, (g.free a).cells x = h.cells x := fun x hx =>
        (Heap.free_cells_ne (hne x hx)).trans (hsame x (List.mem_cons_of_mem a hx))
      obtain ⟨s'', hs'', hrun⟩ := ih hsame' hrest hs'
      refine ⟨s'', hs'', fun fuel => ?_⟩
      rw [List.length_cons, ← Nat.add_assoc, whileLoop_next rfl (hbody g hn), hrun, Heap.freeAll_cons]

/-- **Releasing.** All records of the list are released, and nothing else. -/
theorem releaseAll_chain (hchain : Chain (links h) head L) :
    Settles (fun fuel => releaseAll h fuel head) (.ok (h.freeAll L, L)) := by
  -- the records released and those that are left make up the list
  let Inv := fun rest released : List Nat => released ++ rest = L
  have hstep : ∀ a rest n released, h.cells a = some n → Inv (a :: rest) released →
      ∃ released', Inv rest released' ∧ ∀ g : Heap (Node α), g.cells a = some n →
        releaseBody (g, some a, released) = .ok (.next (g.free a, n.next, released')) := by
    intro a rest n released _ hall
    refine ⟨released ++ [a], (List.append_assoc released [a] rest).trans hall, fun g hg => ?_⟩
    unfold releaseBody
    simp only [load_ok hg, Run.ok_bind]
  obtain ⟨released, hreleased, hrun⟩ :=
    whileLoop_releases hstep (fun _ _ => rfl) hchain (List.nil_append L)
  obtain rfl : released = L := (List.append_nil released).symm.trans hreleased
  refine Settles.of_add released.length fun fuel => ?_
  unfold releaseAll
  rw [hrun, Run.ok_bind]

end Records

end Btide
