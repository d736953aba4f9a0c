import Btide.Command.Process

/-!
# `Command.Owned` — who owns the tree nodes

Every managed package points to a tree. `Owned s ps` says what the list of packages and the memory have
to do with each other: each package's tree is complete and carries its hashes, no two trees share a node,
and there is no other node in memory. Adding a package keeps this up with one more tree, removing one
gives back the nodes of its tree and no others, and releasing the list leaves no node at all. So nothing is
released twice, nothing that is released is read, and nothing is forgotten.
-/

namespace Btide

open LevelOrder

/-- A managed package, and the tree it points to: its height, the hashes on its nodes and where these
    are. -/
structure Holding where
  obj : BpkgObj
  height : Nat
  comp : Nat → Str
  exp : Nat → Str
  node : Nat → Addr
  root : obj.tree = some (node 1)
  distinct : ∀ v w, IsNode height v → IsNode height w → node v = node w → v = w
  capacity : (2 ^ height : Nat) ≤ obj.nchunks.toInt

namespace Holding

/-- The node at `a` is one of the tree. -/
def Has (p : Holding) (a : Addr) : Prop := ∃ w, IsNode p.height w ∧ p.node w = a

/-- The tree is in memory. -/
def In (p : Holding) (m : Mem) : Prop := Labelled p.height p.comp p.exp m (p.node 1) p.node

def Apart (p q : Holding) : Prop := ∀ a, p.Has a → ¬ q.Has a

theorem Apart.symm {p q : Holding} (h : p.Apart q) : q.Apart p := fun a hq hp => h a hp hq

theorem has_root (p : Holding) : p.Has (p.node 1) := ⟨1, isNode_root, rfl⟩

/-- A tree is where it was in every memory that agrees on its nodes. -/
theorem In.frame {p : Holding} {m m' : Mem} (h : p.In m)
    (heq : ∀ a, p.Has a → m'.nodes.cells a = m.nodes.cells a) : p.In m' where
  linked := by
    refine ⟨h.linked.root, fun w hw => ?_⟩
    rw [heq _ ⟨w, hw.isNode, rfl⟩]
    exact h.linked.links w hw
  nodes := by
    intro w hw
    rw [heq _ ⟨w, hw, rfl⟩]
    exact h.nodes w hw

theorem In.lt_next {p : Holding} {m : Mem} (h : p.In m) {a : Nat} (ha : p.Has a) : a < m.nodes.next := by
  obtain ⟨w, hw, rfl⟩ := ha
  obtain ⟨nd, hnd, _⟩ := h.nodes w hw
  exact Heap.lt_next hnd

/-- What `isComplete` answers. -/
def Complete (p : Holding) : Prop := (topmost p.height (Agree p.comp p.exp)).length = 1

instance (p : Holding) : Decidable p.Complete := inferInstanceAs (Decidable (_ = _))

end Holding

/-- The packages `ps` are the managed ones, their trees are in memory and share no node, and every node
    in memory belongs to one of them. -/
structure Owned (s : Managed) (ps : List Holding) : Prop where
  list : s.list = ps.map Holding.obj
  lies : ∀ p ∈ ps, p.In s.mem
  apart : ps.Pairwise Holding.Apart
  only : ∀ a nd, s.mem.nodes.cells a = some nd → ∃ p ∈ ps, p.Has a

theorem Owned.empty (files : Files) : Owned { mem := Mem.empty, files := files, list := [] } [] where
  list := rfl
  lies := fun p hp => absurd hp List.not_mem_nil
  apart := List.Pairwise.nil
  only := fun a nd h => by cases h

/-- The files play no part in it. -/
theorem Owned.withFiles {s : Managed} {ps : List Holding} (h : Owned s ps) (files : Files) :
    Owned { s with files := files } ps := ⟨h.list, h.lies, h.apart, h.only⟩

/-! ## Adding -/

section Add

variable {s : Managed} {ps : List Holding} {p : Holding} {mem : Mem}

/-- A new tree that takes all of the new memory. -/
theorem Owned.snoc (h : Owned s ps) (hin : p.In mem) (hall : Allocates p.height p.node s.mem mem)
    (hframe : ∀ b, b < s.mem.nodes.next → mem.nodes.cells b = s.mem.nodes.cells b) (files : Files) :
    Owned { mem := mem, files := files, list := s.list ++ [p.obj] } (ps ++ [p]) where
  list := by
    rw [List.map_append, ← h.list]
    rfl
  lies := by
    intro q hq
    rcases List.mem_append.mp hq with hq | hq
    · exact (h.lies q hq).frame fun a ha => hframe a ((h.lies q hq).lt_next ha)
    · rwa [List.mem_singleton.mp hq]
  apart := by
    refine List.pairwise_append.mpr ⟨h.apart, List.pairwise_singleton _ _, fun q hq r hr a ha hp => ?_⟩
    rw [List.mem_singleton.mp hr] at hp
    -- the nodes of an older tree lie below those of the new one
    have hlt := (h.lies q hq).lt_next ha
    have hge := ((hall.2 a).mpr hp).1
    omega
  only := by
    intro a nd ha
    by_cases hlt : a < s.mem.nodes.next
    · rw [hframe a hlt] at ha
      obtain ⟨q, hq, hhas⟩ := h.only a nd ha
      exact ⟨q, List.mem_append_left _ hq, hhas⟩
    · have hhas : p.Has a := (hall.2 a).mp ⟨by omega, Heap.lt_next ha⟩
      exact ⟨p, List.mem_append_right _ List.mem_cons_self, hhas⟩

end Add

/-! ## Removing -/

/-- Nodes have been released, and nothing else has changed. -/
def Mem.Shrinks (m m' : Mem) : Prop :=
  ∀ a, m'.nodes.cells a = m.nodes.cells a ∨ m'.nodes.cells a = none

/-- The first element with the property is erased. -/
theorem eraseP_first {α : Type*} {q : α → Bool} {pre post : List α} {a : α}
    (hpre : ∀ b ∈ pre, ¬ q b = true) (ha : q a = true) :
    (pre ++ a :: post).eraseP q = pre ++ post := by
  rw [List.eraseP_append_right _ hpre, List.eraseP_cons_of_pos ha]

section Remove

variable {s : Managed} {pre post ps : List Holding} {p : Holding}

/-- Releasing the tree of one package leaves the others' trees. -/
theorem Owned.release (h : Owned s (pre ++ p :: post)) :
    ∃ r, Settles (fun fuel => freeTree fuel s.mem p.obj.tree) (.ok r) ∧
      (∀ files, Owned { mem := r.mem, files := files, list := (pre ++ post).map Holding.obj }
        (pre ++ post)) ∧ s.mem.Shrinks r.mem := by
  have hp : p ∈ pre ++ p :: post := by simp
  obtain ⟨r, hrun, hgone, hframe⟩ := (h.lies p hp).freeTree p.distinct
  have hother : ∀ q ∈ pre ++ post, p.Apart q := by
    have hapart := List.pairwise_append.mp h.apart
    have hpost := List.pairwise_cons.mp hapart.2.1
    intro q hq
    rcases List.mem_append.mp hq with hq | hq
    · exact (hapart.2.2 q hq p List.mem_cons_self).symm
    · exact hpost.1 q hq
  have hsub : (pre ++ post).Sublist (pre ++ p :: post) :=
    (List.Sublist.refl pre).append (List.sublist_cons_self p post)
  rw [← p.root] at hrun
  refine ⟨r, hrun, fun files => ⟨rfl, fun q hq => ?_, h.apart.sublist hsub, fun a nd ha => ?_⟩, ?_⟩
  · refine (h.lies q (hsub.mem hq)).frame fun a ha => hframe a fun w hw he => ?_
    exact hother q hq a ⟨w, hw, he⟩ ha
  · have hnot : ∀ w, IsNode p.height w → p.node w ≠ a := by
      rintro w hw rfl
      rw [hgone w hw] at ha
      cases ha
    rw [hframe a hnot] at ha
    obtain ⟨q, hq, hhas⟩ := h.only a nd ha
    have hqp : q ≠ p := by
      rintro rfl
      obtain ⟨w, hw, he⟩ := hhas
      exact hnot w hw he
    simp only [List.mem_append, List.mem_cons] at hq
    refine ⟨q, ?_, hhas⟩
    rw [List.mem_append]
    rcases hq with hq | hq | hq
    · exact Or.inl hq
    · exact absurd hq hqp
    · exact Or.inr hq
  · intro a
    by_cases hhas : p.Has a
    · obtain ⟨w, hw, rfl⟩ := hhas
      exact Or.inr (hgone w hw)
    · exact Or.inl (hframe a fun w hw he => hhas ⟨w, hw, he⟩)

/-- **`remove_package` returns**, and the packages that remain own what is left. -/
theorem Owned.removePackage (h : Owned s ps) (identifier : Str) :
    ∃ mem, Settles (fun fuel => s.removePackage fuel identifier)
        (.ok ({ s with
          mem := mem
          list := s.list.eraseP fun obj => identifier.isPrefixOf obj.identifier },
          removedMessage s.list identifier)) ∧
      Owned { s with
        mem := mem
        list := s.list.eraseP fun obj => identifier.isPrefixOf obj.identifier }
        (ps.eraseP fun p => identifier.isPrefixOf p.obj.identifier) ∧ s.mem.Shrinks mem := by
  unfold Managed.removePackage removedMessage
  simp only [strncmpEq_isPrefixOf, unlinkFirst_eq]
  cases hfind : s.list.find? fun obj => identifier.isPrefixOf obj.identifier with
  | none =>
      have hnone := List.find?_eq_none.mp hfind
      have hkept : ∀ p ∈ ps, ¬ identifier.isPrefixOf p.obj.identifier = true := by
        intro p hp
        exact hnone _ (h.list ▸ List.mem_map_of_mem hp)
      rw [List.eraseP_of_forall_not hnone, List.eraseP_of_forall_not hkept,
        List.any_eq_false.mpr hnone]
      exact ⟨s.mem, Settles.const _, h, fun _ => Or.inl rfl⟩
  | some current =>
      rw [List.any_eq_true.mpr ⟨current, List.mem_of_find?_eq_some hfind, List.find?_some hfind⟩]
      -- the package that is found, with its tree
      have hmap := hfind
      rw [h.list, List.find?_map] at hmap
      obtain ⟨p, hp, rfl⟩ := Option.map_eq_some_iff.mp hmap
      obtain ⟨hfirst, pre, post, rfl, hpre⟩ := List.find?_eq_some_iff_append.mp hp
      have hbefore : ∀ q ∈ pre, ¬ identifier.isPrefixOf q.obj.identifier = true := fun q hq =>
        Bool.eq_false_iff.mp (Bool.not_eq_true' _ ▸ hpre q hq)
      have hpp : identifier.isPrefixOf p.obj.identifier = true := hfirst
      have herase : (pre ++ p :: post).eraseP (fun p => identifier.isPrefixOf p.obj.identifier)
          = pre ++ post := eraseP_first hbefore hpp
      obtain ⟨r, hrun, howned, hshrinks⟩ := h.release
      have hlist : s.list.eraseP (fun obj => identifier.isPrefixOf obj.identifier)
          = (pre ++ post).map Holding.obj := by
        rw [h.list, List.eraseP_map]
        exact congrArg _ herase
      rw [hlist, herase]
      refine ⟨r.mem, ?_, howned s.files, hshrinks⟩
      rw [if_pos rfl]
      exact hrun.map fun r : Release => (({ s with
        mem := r.mem
        list := (pre ++ post).map Holding.obj } : Managed), bytes "Package has been removed\n")

/-- **`free_package` returns and leaves no node in memory.** -/
theorem Owned.freePackage (h : Owned s ps) :
    ∃ mem, Settles (fun fuel => freePackage fuel s.mem s.list) (.ok mem) ∧
      ∀ a, mem.nodes.cells a = none := by
  induction ps generalizing s with
  | nil =>
      rw [h.list]
      refine ⟨s.mem, Settles.const _, fun a => ?_⟩
      cases ha : s.mem.nodes.cells a with
      | none => rfl
      | some nd =>
          obtain ⟨p, hp, _⟩ := h.only a nd ha
          cases hp
  | cons p ps ih =>
      obtain ⟨r, hrun, howned, _⟩ := @Owned.release s [] ps p h
      obtain ⟨mem, hrest, hnone⟩ := ih (howned s.files)
      rw [h.list]
      refine ⟨mem, ?_, hnone⟩
      exact hrun.bind (g := fun (r : Release) fuel =>
        Btide.freePackage fuel r.mem (ps.map Holding.obj)) hrest

end Remove

/-! ## What is in memory -/

/-- A node is in memory just if one of the packages has it. -/
theorem Owned.cell_iff {s : Managed} {ps : List Holding} (h : Owned s ps) (a : Addr) :
    s.mem.nodes.cells a ≠ none ↔ ∃ p ∈ ps, p.Has a := by
  constructor
  · intro hsome
    obtain ⟨nd, hnd⟩ := Option.ne_none_iff_exists'.mp hsome
    exact h.only a nd hnd
  · rintro ⟨p, hp, w, hw, rfl⟩ hnone
    obtain ⟨nd, hnd, _⟩ := (h.lies p hp).nodes w hw
    rw [hnone] at hnd
    cases hnd

/-- With the same packages as before, memory that has only grown and shrunk again is as it was. -/
theorem Owned.cells_eq {s t : Managed} {ps : List Holding} {mem : Mem} (hs : Owned s ps)
    (ht : Owned t ps) (hgrown : ∀ b, b < s.mem.nodes.next → mem.nodes.cells b = s.mem.nodes.cells b)
    (hshrinks : mem.Shrinks t.mem) (a : Addr) : t.mem.nodes.cells a = s.mem.nodes.cells a := by
  have hsame : t.mem.nodes.cells a ≠ none ↔ s.mem.nodes.cells a ≠ none := by
    rw [ht.cell_iff, hs.cell_iff]
  cases hcell : s.mem.nodes.cells a with
  | none => exact not_ne_iff.mp fun hsome => hsame.mp hsome hcell
  | some nd =>
      have hsome : t.mem.nodes.cells a ≠ none := hsame.mpr (by rw [hcell]; exact Option.some_ne_none nd)
      rw [(hshrinks a).resolve_right hsome, hgrown a (Heap.lt_next hcell), hcell]

end Btide
