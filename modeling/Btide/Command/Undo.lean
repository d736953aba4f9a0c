import Btide.Command.Removal

/-!
# `Command.Undo` — `REMPACKAGE` undoes `ADDPACKAGE`

An `ADDPACKAGE` that prints nothing has appended a package whose tree takes new memory only
(`addCommand_added`). A `REMPACKAGE` right after it takes back this package, and with it all of that
memory, exactly if its argument is the beginning of the new identifier and of no identifier that was
listed before (`remove_undoes_add_iff`). All that is left is the data file, which may have been created.
-/

namespace Btide

open LevelOrder

section Commands

variable {env : Env} {locals : Locals} {input w out : Str} {s s' : Session} {ps : List Holding}

/-- `ADDPACKAGE` prints nothing only if it adds a package. -/
theorem addCommand_added (h : Owned s.managed ps)
    (hrun : Settles (fun fuel => addCommand fuel env locals input s) (.ok (s', []))) :
    ∃ p, Owned s'.managed (ps ++ [p]) ∧
      ∀ b, b < s.managed.mem.nodes.next →
        s'.managed.mem.nodes.cells b = s.managed.mem.nodes.cells b := by
  obtain ⟨n, hn⟩ := id hrun
  have hreturns := addCommand_returns (hn n (Nat.le_refl n))
  -- every other way to return prints a message
  have hprints : ∀ message : Str, message ≠ [] →
      ¬ Settles (fun fuel => addCommand fuel env locals input s) (.ok (s, message)) := by
    intro message hne hother
    exact hne (Prod.mk.inj (Except.ok.inj (hother.unique hrun))).2
  cases hword : word "ADDPACKAGE" (cString input) with
  | none =>
      refine absurd ?_ (hprints missingFile (by decide))
      simp only [addCommand_none hword]
      exact Settles.const _
  | some w =>
      obtain ⟨hlen, hadd⟩ := hreturns w hword
      simp only [addCommand_some hword, if_neg (Nat.not_le.mpr hlen)] at hrun hprints
      by_cases hempty : kept none w = []
      · refine absurd ?_ (hprints missingFile (by decide))
        simp only [if_pos hempty]
        exact Settles.const _
      · simp only [if_neg hempty] at hrun hprints
        obtain ⟨hfit, haddable⟩ := hadd hempty
        cases htext : s.managed.files.text (directory env.directory ++ kept none w) with
        | none =>
            refine absurd ?_ (hprints (bytes "Cannot open file\n") (by decide))
            exact (addPackage_missing hfit htext).map fun r =>
              (({ s with managed := r.1 } : Session), r.2.getD [])
        | some contents =>
            obtain ⟨p, files, mem, _, hsettles, howned, hframe⟩ :=
              h.adds hfit htext (haddable _ htext)
            have hadded := hsettles.map fun r =>
              (({ s with managed := r.1 } : Session), r.2.getD [])
            cases hrun.unique hadded
            exact ⟨p, howned, hframe⟩

/-- What `REMPACKAGE` leaves, if it returns. -/
theorem remCommand_removed (h : Owned s.managed ps)
    (hw : word "REMPACKAGE" (cString input) = some w)
    (hrun : Settles (fun fuel => remCommand fuel locals input s) (.ok (s', out))) :
    s'.managed.list = s.managed.list.eraseP (fun obj => w.isPrefixOf obj.identifier) ∧
      Owned s'.managed (ps.eraseP fun p => w.isPrefixOf p.obj.identifier) ∧
      s.managed.mem.Shrinks s'.managed.mem := by
  simp only [remCommand_some hw] at hrun
  by_cases hlong : identifierSize ≤ w.length
  · simp only [if_pos hlong] at hrun
    obtain ⟨n, hn⟩ := hrun
    cases hn n (Nat.le_refl n)
  · simp only [if_neg hlong] at hrun
    obtain ⟨mem, hremove, howned, hshrinks⟩ := h.removePackage w
    have hdone := hremove.map fun r => (({ s with managed := r.1 } : Session), r.2)
    cases hrun.unique hdone
    exact ⟨rfl, howned, hshrinks⟩

end Commands

/-- The root of a new tree is in no older tree. -/
theorem Owned.fresh {s : Managed} {ps : List Holding} {p : Holding} (h : Owned s (ps ++ [p])) :
    p.obj ∉ ps.map Holding.obj := by
  intro hmem
  obtain ⟨q, hq, hobj⟩ := List.mem_map.mp hmem
  have hapart := (List.pairwise_append.mp h.apart).2.2 q hq p List.mem_cons_self
  have hroot : some (q.node 1) = some (p.node 1) := by rw [← q.root, ← p.root, hobj]
  exact hapart (q.node 1) q.has_root (Option.some.inj hroot ▸ p.has_root)

/-- Erasing gives back a list to which a new element has been appended just if it erases this one. -/
theorem eraseP_concat_iff {α : Type*} {xs : List α} {a : α} {f : α → Bool} (ha : a ∉ xs) :
    (xs ++ [a]).eraseP f = xs ↔ f a = true ∧ ∀ x ∈ xs, ¬ f x = true := by
  constructor
  · intro h
    by_cases hx : ∃ x ∈ xs, f x = true
    · obtain ⟨x, hx, hfx⟩ := hx
      rw [List.eraseP_append_left hfx _ hx] at h
      exact absurd (h ▸ List.mem_append_right _ List.mem_cons_self) ha
    · push Not at hx
      have hkept : ∀ x ∈ xs, ¬ f x = true := fun x hxs => hx x hxs
      rw [List.eraseP_append_right _ hkept] at h
      refine ⟨?_, hkept⟩
      by_contra hfa
      rw [List.eraseP_cons_of_neg hfa, List.eraseP_nil, List.append_right_eq_self] at h
      cases h
  · rintro ⟨hfa, hkept⟩
    rw [eraseP_first hkept hfa, List.append_nil]

section Sessions

variable {env : Env} {stdin w out : Str} {s s₁ s₂ : Session} {es : List SessionEvent}
  {locals locals' : Locals} {junk junk' : Junk} {created created' : Bool}

/-- **`REMPACKAGE` undoes `ADDPACKAGE`** exactly if its argument singles out the new package: the list
    and the tree nodes in memory are then those from before. -/
theorem remove_undoes_add_iff (h : Steps (Session.Step env) (.start stdin) es s)
    (hcommand : commandOf (inputLine s.stdin) = .addPackage)
    (hadd : s.Step env (.command locals junk created []) s₁)
    (hw : word "REMPACKAGE" (inputLine s₁.stdin) = some w)
    (hrem : s₁.Step env (.command locals' junk' created' out) s₂) :
    ∃ obj, s₁.managed.list = s.managed.list ++ [obj] ∧
      ((s₂.managed.list = s.managed.list ∧
          ∀ a, s₂.managed.mem.nodes.cells a = s.managed.mem.nodes.cells a) ↔
        w <+: obj.identifier ∧ ∀ q ∈ s.managed.list, ¬ w <+: q.identifier) := by
  obtain ⟨ps, howned⟩ := session_owned h
  obtain ⟨_, hadd⟩ := hadd
  obtain ⟨_, hrem⟩ := hrem
  have hstdin : ∀ {u : Session} {c : Command}, commandOf (inputLine u.stdin) = c → c ≠ .invalid →
      u.stdin ≠ [] := by
    rintro u c hc hne hnil
    rw [hnil] at hc
    exact hne hc.symm
  have hcommand₁ : commandOf (inputLine s₁.stdin) = .remPackage :=
    (commandOf_eq_iff (by simp)).mpr (prefix_of_word hw)
  -- the package is added
  obtain ⟨input, hinput, hline⟩ :=
    processCommand_any (env.during junk created) locals (hstdin hcommand (by simp))
  rw [← hline] at hcommand
  simp only [hinput, runCommand, hcommand] at hadd
  obtain ⟨p, howned₁, hgrown⟩ := addCommand_added (s := s.read) howned hadd
  -- and removed, or another one is
  obtain ⟨input', hinput', hline'⟩ :=
    processCommand_any (env.during junk' created') locals' (hstdin hcommand₁ (by simp))
  rw [← hline'] at hcommand₁ hw
  simp only [hinput', runCommand, hcommand₁] at hrem
  obtain ⟨hlist, howned₂, hshrinks⟩ := remCommand_removed (s := s₁.read) howned₁ hw hrem
  have hlist₁ : s₁.managed.list = s.managed.list ++ [p.obj] := by
    rw [howned₁.list, howned.list, List.map_append]
    rfl
  have hfresh : p.obj ∉ s.managed.list := howned.list ▸ howned₁.fresh
  have herase := @eraseP_concat_iff _ _ _ (fun obj : BpkgObj => w.isPrefixOf obj.identifier) hfresh
  rw [← hlist₁] at herase
  simp only [List.isPrefixOf_iff_prefix] at herase
  refine ⟨p.obj, hlist₁, ?_⟩
  rw [← herase]
  constructor
  · rintro ⟨hsame, _⟩
    exact hlist.symm.trans hsame
  · intro hsame
    have hkept := herase.mp hsame
    have hback : (ps ++ [p]).eraseP (fun q => w.isPrefixOf q.obj.identifier) = ps := by
      rw [eraseP_first, List.append_nil]
      · intro q hq hfound
        refine hkept.2 q.obj ?_ (List.isPrefixOf_iff_prefix.mp hfound)
        rw [howned.list]
        exact List.mem_map_of_mem hq
      · exact List.isPrefixOf_iff_prefix.mpr hkept.1
    rw [hback] at howned₂
    exact ⟨hlist.trans hsame, howned.cells_eq howned₂ hgrown hshrinks⟩

end Sessions

/-- The package is added and removed again. -/
theorem remove_undoes_add_iff_ab :
    ∃ s s₁ s₂ : Session, s.Step (.plain (bytes "packages")) (.command (.fill 0) default true []) s₁ ∧
      s₁.Step (.plain (bytes "packages"))
        (.command (.fill 0) default true (bytes "Package has been removed\n")) s₂ ∧
      s₁.managed.list.length = 1 ∧ s₂.managed.list = s.managed.list ∧
      ∀ a, s₂.managed.mem.nodes.cells a = s.managed.mem.nodes.cells a := by
  obtain ⟨s₁, hrun, hloop, hrest, hone, hident⟩ := addAb_run (.fill 0) (bytes "REMPACKAGE ab\n")
  have hcut : Steps (Session.Step (.plain (bytes "packages")))
      (.start (bytes "ADDPACKAGE ab\n" ++ bytes "REMPACKAGE ab\n"))
      ([.changed (directoryWithAb []).managed.files] ++ [.command (.fill 0) default true []]) s₁ := hrun
  obtain ⟨s, hchanged, hadd⟩ := hcut.of_snoc
  have hstart := Steps.single_iff.mp hchanged
  have hstdin : s.stdin = bytes "ADDPACKAGE ab\n" ++ bytes "REMPACKAGE ab\n" := by rw [hstart]; rfl
  have hlist : s.managed.list = [] := by rw [hstart]; rfl
  have hcommand : commandOf (inputLine s.stdin) = .addPackage := by
    rw [(read_addAb hstdin).1]
    decide
  have hw : word "REMPACKAGE" (inputLine s₁.stdin) = some (bytes "ab") := by
    rw [hrest]
    decide
  -- the line removes the package
  obtain ⟨obj, hobj⟩ := List.length_eq_one_iff.mp hone
  have hname : obj.identifier = bytes "ab" := hident obj (by rw [hobj]; exact List.mem_singleton_self _)
  have hshown : obj.shown = bytes "ab" := by
    rw [BpkgObj.shown, hname]
    decide
  have hline : s₁.stdin = removeLine obj ++ [] := by
    rw [hrest, removeLine, hshown]
    decide
  have hword : IsWord obj.shown := by
    rw [hshown]
    exact ⟨by decide, forall_mem_of_all (by decide)⟩
  obtain ⟨ps, howned⟩ := session_owned hrun
  obtain ⟨mem, hremove, _⟩ := processCommand_remove ((Env.plain (bytes "packages")).during default true)
    (.fill 0) howned hword hline ⟨obj, by rw [hobj]; exact List.mem_singleton_self _, shown_prefix obj⟩
  have hstep : s₁.Step (.plain (bytes "packages"))
      (.command (.fill 0) default true (bytes "Package has been removed\n")) _ := ⟨hloop, hremove⟩
  obtain ⟨new, hnew, hiff⟩ := remove_undoes_add_iff hchanged hcommand hadd hw hstep
  rw [hobj, hlist, List.nil_append] at hnew
  obtain rfl : obj = new := (List.cons.inj hnew).1
  have hundone := hiff.mpr ⟨by rw [hname], fun q hq => by rw [hlist] at hq; cases hq⟩
  exact ⟨s, s₁, _, hadd, hstep, hone, hundone⟩

end Btide
