import Btide.Command.Feed

/-!
# `Command.Removal` — what `PACKAGES` lists, `REMPACKAGE` takes

`PACKAGES` writes the first 32 characters of an identifier (`BpkgObj.shown`), and `REMPACKAGE` removes
the first package whose identifier begins with its argument. The loader lets no identifier pass that has
a character other than a hexadecimal digit, so what is written is one word (`session_hex`).

If what is shown of one package is not the beginning of another's identifier, which holds as soon as all
identifiers have 32 characters (`shownApart_of_long`), then every listed package can be removed by what
is listed, and when the last one has been removed, no tree node is left in memory (`remove_listed`).
-/

namespace Btide

/-! ## The identifiers of loaded packages -/

theorem isxdigit_word {c : UInt8} (h : isxdigit c = true) : isSpace c = false ∧ c ≠ 0 := by
  have hrange : 48 ≤ c.toNat := by
    simp only [isxdigit, UInt8.le_iff_toNat_le, decide_eq_true_eq, Bool.decide_or, Bool.or_eq_true,
      Bool.decide_and, Bool.and_eq_true] at h
    have h₁ : (48 : UInt8).toNat = 48 := rfl
    have h₂ : (65 : UInt8).toNat = 65 := rfl
    have h₃ : (97 : UInt8).toNat = 97 := rfl
    omega
  refine ⟨?_, ?_⟩
  · rw [Bool.eq_false_iff]
    intro hs
    rw [isSpace_iff] at hs
    omega
  · rintro rfl
    exact absurd hrange (by decide)

section Load

variable {junk : Junk} {counter : Int} {obj obj' : BpkgObj} {line contents : Str}
  {file file' : List Str}

/-- The identifier is assigned by the first line alone, which checks it. -/
theorem loadLine_identifier (h : loadLine junk counter obj line file = .ok (obj', file')) :
    if counter = 0 then isNotHexadecimal obj'.identifier = 0 ∧ obj'.hashes = obj.hashes
    else obj'.identifier = obj.identifier := by
  unfold loadLine at h
  split_ifs at h ⊢
  · obtain ⟨w, rfl, hhex, _⟩ := readIdent_cases (inPlace_eq_ok.mp h).1
    exact ⟨hhex, rfl⟩
  · obtain ⟨w, rfl, _⟩ := readFilename_cases (inPlace_eq_ok.mp h).1
    rfl
  · obtain ⟨n, rfl, _⟩ := readSize_cases (inPlace_eq_ok.mp h).1
    rfl
  · obtain ⟨n, rfl, _⟩ := readNhashes_cases (inPlace_eq_ok.mp h).1
    rfl
  · obtain ⟨⟨hs, rest⟩, _, h⟩ := Run.bind_eq_ok.mp h
    cases h
    rfl
  · obtain ⟨n, rfl, _⟩ := readNchunks_cases (inPlace_eq_ok.mp h).1
    rfl
  · obtain ⟨⟨cs, rest⟩, _, h⟩ := Run.bind_eq_ok.mp h
    cases h
    rfl
  · obtain ⟨hread, _⟩ := inPlace_eq_ok.mp h
    cases hread
    rfl

/-- Before the first line there are no hashes, and from then on the identifier has been checked. -/
def Loading.Checked (s : Loading) : Prop :=
  (s.counter = 0 ∧ s.obj.hashes = none) ∨ (1 ≤ s.counter ∧ isNotHexadecimal s.obj.identifier = 0)

theorem Loading.Checked.next {s s' : Loading} (hs : s.Checked)
    (h : loadBody junk s = .ok (.next s')) : s'.Checked := by
  unfold loadBody at h
  split at h
  · cases h
  · obtain ⟨⟨obj, rest⟩, hline, h⟩ := Run.bind_eq_ok.mp h
    obtain ⟨counter, hcounter, h⟩ := Run.bind_eq_ok.mp h
    obtain ⟨rfl, _⟩ := cInt_eq_ok.mp hcounter
    cases h
    have hident := loadLine_identifier hline
    rcases hs with ⟨hzero, _⟩ | ⟨hpos, hhex⟩
    · rw [if_pos hzero] at hident
      exact Or.inr ⟨by rw [hzero]; rfl, hident.1⟩
    · rw [if_neg (by omega)] at hident
      exact Or.inr ⟨by show 1 ≤ s.counter + 1; omega, by rw [hident]; exact hhex⟩

/-- **The identifier of a loaded package is a hexadecimal number**, or empty. -/
theorem loaded_hex (h : bpkgLoad junk (some contents) = .ok obj) (hhashes : obj.hashes ≠ none) :
    isNotHexadecimal obj.identifier = 0 := by
  obtain ⟨s, hloop, h⟩ := Run.bind_eq_ok.mp h
  cases h
  have hchecked : s.Checked := by
    refine whileLoop_invariant Loading.Checked (fun s s' hs hbody => hs.next hbody) ?_ ?_ hloop
    · intro s s' hs hbody
      unfold loadBody at hbody
      split at hbody
      · cases hbody
        exact hs
      · obtain ⟨r, _, hbody⟩ := Run.bind_eq_ok.mp hbody
        obtain ⟨counter, _, hbody⟩ := Run.bind_eq_ok.mp hbody
        cases hbody
    · exact Or.inl ⟨rfl, rfl⟩
  rcases hchecked with ⟨_, hnone⟩ | ⟨_, hhex⟩
  · exact absurd hnone hhashes
  · exact hhex

end Load

section Sessions

variable {env : Env} {stdin line out rest : Str} {es es' : List SessionEvent} {s t : Session}
  {order list sub : List BpkgObj}

/-- Only hexadecimal identifiers are listed. -/
def Tracker.Hex (t : Tracker) : Prop := ∀ entry ∈ t.packages, isNotHexadecimal entry.identifier = 0

theorem Tracker.Does.hex {t t' : Tracker} (h : t.Does env line t' out) (ht : t.Hex) : t'.Hex := by
  cases h with
  | quit _ => exact fun _ hmem => absurd hmem List.not_mem_nil
  | added _ _ _ hadds =>
      intro entry hmem
      rcases List.mem_append.mp hmem with hmem | hmem
      · exact ht entry hmem
      · obtain rfl := List.mem_singleton.mp hmem
        cases hadds with
        | intro hload hlists _ =>
            exact loaded_hex hload (by rw [hlists.hashes]; exact Option.some_ne_none _)
  | remove _ => exact fun entry hmem => ht entry (List.mem_of_mem_eraseP hmem)
  | _ => exact ht

theorem session_hex (h : Steps (Session.Step env) (.start stdin) es s) :
    ∀ obj ∈ s.managed.list, isNotHexadecimal obj.identifier = 0 := by
  obtain ⟨_, hrun, ps, howned, rfl⟩ := (Shows.start _).steps h
  have hinv := Steps.invariant_of_forall (P := fun _ => True) Tracker.Hex ?_ hrun
    (fun _ _ => trivial) (fun _ hmem => absurd hmem List.not_mem_nil)
  · intro obj hmem
    rw [howned.list] at hmem
    obtain ⟨p, hp, rfl⟩ := List.mem_map.mp hmem
    exact hinv p.listed (List.mem_map_of_mem hp)
  · intro t e t' _ ht hstep
    cases e with
    | command _ _ _ _ =>
        obtain ⟨_, _, hdoes⟩ := hstep
        exact hdoes.hex ht
    | finished _ _ =>
        obtain ⟨_, net, _, rfl⟩ := hstep
        exact ht
    | changed _ =>
        cases hstep
        exact ht

/-! ## What is shown -/

/-- What `PACKAGES` writes of the identifier, as in `Listed.text`. -/
def BpkgObj.shown (obj : BpkgObj) : Str := obj.identifier.take 32

/-- There is something to type for every package, and it is not the beginning of an identifier of which
    something else is shown. -/
structure ShownApart (list : List BpkgObj) : Prop where
  ne : ∀ obj ∈ list, obj.identifier ≠ []
  apart : ∀ p ∈ list, ∀ q ∈ list, p.shown <+: q.identifier → q.shown = p.shown

/-- Long identifiers are shown apart. -/
theorem shownApart_of_long (h : ∀ obj ∈ list, 32 ≤ obj.identifier.length) : ShownApart list := by
  refine ⟨fun obj hobj hnil => ?_, fun p hp q _ hbegins => ?_⟩
  · have hlen := h obj hobj
    rw [hnil, List.length_nil] at hlen
    omega
  · have hlen : p.shown.length = 32 := List.length_take_of_le (h p hp)
    have htake := List.prefix_iff_eq_take.mp hbegins
    rw [hlen] at htake
    exact htake.symm

theorem shown_prefix (obj : BpkgObj) : obj.shown <+: obj.identifier := List.take_prefix _ _

/-- What is removed is a package of which the same is shown. -/
theorem ShownApart.map_eraseP (h : ShownApart list) (hsub : sub ⊆ list) {obj : BpkgObj}
    (hobj : obj ∈ list) :
    (sub.eraseP fun q => obj.shown.isPrefixOf q.identifier).map BpkgObj.shown
      = (sub.map BpkgObj.shown).erase obj.shown := by
  induction sub with
  | nil => rfl
  | cons q sub ih =>
      rw [List.cons_subset] at hsub
      rw [List.eraseP_cons]
      cases hbegins : obj.shown.isPrefixOf q.identifier with
      | true =>
          have hsame := h.apart obj hobj q hsub.1 (List.isPrefixOf_iff_prefix.mp hbegins)
          rw [List.map_cons, hsame, List.erase_cons_head]
          rfl
      | false =>
          have hother : ¬ (q.shown == obj.shown) = true := by
            rw [beq_iff_eq]
            intro he
            have hfound := List.isPrefixOf_iff_prefix.mpr (he ▸ shown_prefix q)
            rw [hbegins] at hfound
            cases hfound
          rw [List.map_cons, List.erase_cons_tail hother, ← ih hsub.2]
          rfl

theorem isWord_shown {obj : BpkgObj} (hhex : isNotHexadecimal obj.identifier = 0)
    (hne : obj.identifier ≠ []) : IsWord obj.shown := by
  refine ⟨fun hnil => hne ?_, fun c hc => ?_⟩
  · exact (List.take_eq_nil_iff.mp hnil).resolve_left (by decide)
  · have hall : obj.identifier.all isxdigit = true := by
      unfold isNotHexadecimal at hhex
      by_contra hnot
      rw [if_neg hnot] at hhex
      cases hhex
    exact isxdigit_word (List.all_eq_true.mp hall c (List.mem_of_mem_take hc))

/-! ## The command -/

/-- The line that removes a package. -/
def removeLine (obj : BpkgObj) : Str := argumentLine "REMPACKAGE" obj.shown

/-- **What is listed is removed**, with its tree. -/
theorem processCommand_remove (env : Env) (locals : Locals) {ps : List Holding} {obj : BpkgObj}
    (h : Owned s.managed ps) (hword : IsWord obj.shown) (hstdin : s.stdin = removeLine obj ++ rest)
    (hmem : ∃ q ∈ s.managed.list, obj.shown <+: q.identifier) :
    ∃ mem, Settles (fun fuel => processCommand fuel env locals s)
        (.ok ({ s with
          stdin := rest
          managed := { s.managed with
            mem := mem
            list := s.managed.list.eraseP fun q => obj.shown.isPrefixOf q.identifier } },
          bytes "Package has been removed\n")) ∧
      Owned { s.managed with
        mem := mem
        list := s.managed.list.eraseP fun q => obj.shown.isPrefixOf q.identifier }
        (ps.eraseP fun p => obj.shown.isPrefixOf p.obj.identifier) := by
  have hshort : obj.shown.length ≤ 32 := List.length_take_le _ _
  have hname : (bytes "REMPACKAGE").length = 10 := by decide
  have hlen : (bytes "REMPACKAGE").length + obj.shown.length < MAX_BUFFER := by
    unfold MAX_BUFFER
    omega
  obtain ⟨hw, hread⟩ := hword.read_line (by decide) hlen hstdin
  have hcommand : commandOf (inputLine s.stdin) = .remPackage :=
    (commandOf_eq_iff (by simp)).mpr (prefix_of_word hw)
  have hne : s.stdin ≠ [] := by
    intro hnil
    rw [hnil] at hcommand
    cases hcommand
  obtain ⟨input, hrun, hinput⟩ := processCommand_any env locals hne
  obtain ⟨mem, hremove, howned, _⟩ := h.removePackage obj.shown
  have hmessage : removedMessage s.managed.list obj.shown = bytes "Package has been removed\n" := by
    obtain ⟨q, hq, hbegins⟩ := hmem
    exact if_pos (List.any_eq_true.mpr ⟨q, hq, List.isPrefixOf_iff_prefix.mpr hbegins⟩)
  rw [← hinput] at hw hcommand
  refine ⟨mem, ?_, howned⟩
  have hfits : ¬ identifierSize ≤ obj.shown.length := by
    unfold identifierSize
    omega
  simp only [hrun, runCommand, hcommand, remCommand_some hw, if_neg hfits, hread]
  rw [hmessage] at hremove
  exact hremove.map _

/-! ## Whole sessions -/

/-- The packages of which the same is shown as of `todo` are still to be removed. -/
structure Removing (list todo : List BpkgObj) (u : Session) : Prop where
  owned : ∃ ps, Owned u.managed ps
  members : todo ⊆ list
  kept : u.managed.list ⊆ list
  shown : (u.managed.list.map BpkgObj.shown).Perm (todo.map BpkgObj.shown)

/-- The lines of the listed packages remove them one by one. -/
theorem removing_feeds (hhex : ∀ obj ∈ list, isNotHexadecimal obj.identifier = 0)
    (hapart : ShownApart list) :
    Feeds env removeLine (bytes "Package has been removed\n")
      fun todo _ u => Removing list todo u where
  command := by
    rintro obj todo es rest u ⟨⟨ps, howned⟩, htodo, hkept, hshown⟩ hstdin hloop locals junk created
    rw [List.cons_subset] at htodo
    have hobj := htodo.1
    have hword := isWord_shown (hhex obj hobj) (hapart.ne obj hobj)
    have hmem : ∃ q ∈ u.managed.list, obj.shown <+: q.identifier := by
      obtain ⟨q, hq, hsame⟩ := List.mem_map.mp (hshown.mem_iff.mpr List.mem_cons_self)
      exact ⟨q, hq, hsame ▸ shown_prefix q⟩
    obtain ⟨mem, hrun, howned'⟩ :=
      processCommand_remove (env.during junk created) locals howned hword hstdin hmem
    refine ⟨_, ⟨hloop, hrun⟩, rfl, hloop, ⟨_, howned'⟩, htodo.2, ?_, ?_⟩
    · exact fun q hq => hkept (List.mem_of_mem_eraseP hq)
    · have herase := hshown.erase obj.shown
      rw [List.map_cons, List.erase_cons_head] at herase
      rwa [← hapart.map_eraseP hkept hobj] at herase
  finished := by
    rintro todo es u peer sockfd net ⟨howned, htodo, hkept, hshown⟩ _
    exact ⟨howned, htodo, hkept, hshown⟩
  changed := by
    rintro todo es u files ⟨⟨ps, howned⟩, htodo, hkept, hshown⟩
    exact ⟨⟨ps, howned.withFiles files⟩, htodo, hkept, hshown⟩

/-- **What `PACKAGES` lists, `REMPACKAGE` takes.** If the lines that remove the listed packages come
    next, in any order, then each of them is carried out and removes a package, whatever client threads
    and other programs do in the meantime. Once they have been read, no package is listed and no tree
    node is left in memory. -/
theorem remove_listed (h : Steps (Session.Step env) (.start stdin) es s) (hloop : s.mainLoop = true)
    (hapart : ShownApart s.managed.list) (horder : order.Perm s.managed.list)
    (hstdin : s.stdin = order.flatMap removeLine ++ rest)
    (h' : Steps (Session.Step env) s es' t) (hcount : commands es' ≤ order.length) :
    (∀ locals junk created out, .command locals junk created out ∈ es' →
        out = bytes "Package has been removed\n") ∧
      (commands es' < order.length → ∀ locals junk created, ∃ t',
        t.Step env (.command locals junk created (bytes "Package has been removed\n")) t') ∧
      (t.managed.list.map BpkgObj.shown).Perm ((order.drop (commands es')).map BpkgObj.shown) ∧
      t.stdin = (order.drop (commands es')).flatMap removeLine ++ rest ∧
      (commands es' = order.length →
        t.managed.list = [] ∧ ∀ a, t.managed.mem.nodes.cells a = none) := by
  obtain ⟨ps, howned⟩ := session_owned h
  have hfeeds := @removing_feeds env s.managed.list (session_hex h) hapart
  have hstart : Removing s.managed.list order s :=
    ⟨⟨ps, howned⟩, horder.subset, List.Subset.refl _, (horder.map BpkgObj.shown).symm⟩
  have hreached := hfeeds.run hstart hloop hstdin h' hcount
  refine ⟨hreached.printed, hfeeds.progress hreached, hreached.inv.shown, hreached.stdin, fun hall => ?_⟩
  have hlist : t.managed.list = [] := by
    have hshown := hreached.inv.shown
    rw [hall, List.drop_length, List.map_nil] at hshown
    exact List.map_eq_nil_iff.mp hshown.eq_nil
  obtain ⟨qs, hqs⟩ := hreached.inv.owned
  obtain rfl : qs = [] := List.map_eq_nil_iff.mp (hqs.list.symm.trans hlist)
  refine ⟨hlist, fun a => ?_⟩
  by_contra hsome
  obtain ⟨nd, hnd⟩ := Option.ne_none_iff_exists'.mp hsome
  obtain ⟨p, hp, _⟩ := hqs.only a nd hnd
  cases hp

end Sessions

/-- After a package has been added. -/
theorem remove_listed_addAb :
    ∃ s t : Session, s.managed.list.length = 1 ∧
      s.Step (.plain (bytes "packages"))
        (.command (.fill 0) default true (bytes "Package has been removed\n")) t := by
  obtain ⟨s, hrun, hloop, hstdin, hone, hident⟩ := addAb_run (.fill 0) (bytes "REMPACKAGE ab\n")
  obtain ⟨obj, hobj⟩ := List.length_eq_one_iff.mp hone
  have hname : obj.identifier = bytes "ab" := hident obj (by rw [hobj]; exact List.mem_singleton_self _)
  have hapart : ShownApart s.managed.list := by
    rw [hobj]
    refine ⟨fun q hq => ?_, fun p hp q hq _ => ?_⟩
    · rw [List.mem_singleton.mp hq, hname]
      decide
    · rw [List.mem_singleton.mp hp, List.mem_singleton.mp hq]
  have hline : s.stdin = s.managed.list.flatMap removeLine ++ [] := by
    rw [hstdin, hobj, List.flatMap_singleton, removeLine, BpkgObj.shown, hname]
    decide
  obtain ⟨_, hnext, _⟩ := remove_listed hrun hloop hapart (List.Perm.refl _) hline Steps.nil
    (Nat.zero_le _)
  have hlt : 0 < s.managed.list.length := by omega
  obtain ⟨t, ht⟩ := hnext hlt (.fill 0) default true
  exact ⟨s, t, hone, ht⟩

end Btide
