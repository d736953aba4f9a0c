import Btide.Command.Session

/-!
# `Command.Lifetime` — what holds of every session

The results about whole sessions that do not mention the tracker. A command is carried out exactly when
what it copies fits and, for `ADDPACKAGE`, the package can be added, for `CONNECT` a thread can be created
(`session_returns_iff`); `QUIT` always is once the server thread has ended, and leaves no tree node behind
(`session_quit`). A listing changes only by adding and removing (`listing_frozen`). The commands are the
lines of the input, each of them once (`session_lines`).
-/

namespace Btide

open LevelOrder

/-! ## Which lines are carried out -/

/-- The argument of `CONNECT` or `DISCONNECT` fits, and so do the parts of its address. -/
def ArgumentFits (name : String) (line : Str) : Prop :=
  ∀ w, word name line = some w → w.length < MAX_BUFFER ∧
    ∀ ip port, splitAddress w = some (ip, port) → PartsFit ip port

/-- If the argument of `CONNECT` is an address, a thread can be created for it, or it is connected already. -/
def Connectable (env : Env) (s : Session) (line : Str) : Prop :=
  ∀ w ip port, word "CONNECT" line = some w → Accepted w ip port →
    env.created = true ∨ (ip, Int32.ofInt (leadingNumber port)) ∈ addrs s.net.peerList

/-- What the line must be like for the program to come back from it. -/
def Session.Returns (env : Env) (s : Session) (line : Str) : Prop :=
  match commandOf line with
  | .quit => True
  | .peers => CounterFits 1 s.net.peerList.length
  | .addPackage => AddReturns env s line
  | .packages => CounterFits 1 s.managed.list.length
  | .remPackage => ∀ w, word "REMPACKAGE" line = some w → w.length < identifierSize
  | .connect => ArgumentFits "CONNECT" line ∧ Connectable env s line
  | .disconnect => ArgumentFits "DISCONNECT" line
  | .invalid => True

/-- The line is not a `CONNECT` or `DISCONNECT` without an argument. -/
def HasAddress (line : Str) : Prop :=
  (commandOf line = .connect → word "CONNECT" line ≠ none) ∧
    (commandOf line = .disconnect → word "DISCONNECT" line ≠ none)

section Returns

variable {env : Env} {locals : Locals} {input w : Str} {s : Session} {ps : List Holding}

theorem onAddress_returns_iff {use : Str → Int32 → Run (Session × Str)} :
    (∃ r, onAddress w s use = .ok r) ↔
      (∀ ip port, splitAddress w = some (ip, port) → PartsFit ip port) ∧
        ∀ ip port, Accepted w ip port → ∃ r, use ip (Int32.ofInt (leadingNumber port)) = .ok r := by
  rcases onAddress_cases w s use with ⟨ip, port, hacc, heq⟩ | ⟨hnone, hfits, heq⟩ | ⟨hlong, heq⟩
  · rw [heq]
    have hsame : ∀ ip' port', splitAddress w = some (ip', port') → ip' = ip ∧ port' = port := by
      intro ip' port' hsplit
      rw [hacc.split] at hsplit
      cases hsplit
      exact ⟨rfl, rfl⟩
    constructor
    · intro hr
      refine ⟨fun ip' port' hsplit => ?_, fun ip' port' hacc' => ?_⟩
      · obtain ⟨rfl, rfl⟩ := hsame ip' port' hsplit
        exact hacc.fits
      · obtain ⟨rfl, rfl⟩ := hsame ip' port' hacc'.split
        exact hr
    · intro h
      exact h.2 ip port hacc
  · refine iff_of_true ⟨_, heq⟩ ⟨hfits, fun ip port hacc => ?_⟩
    exact absurd ⟨ip, port, hacc⟩ hnone
  · rw [heq]
    obtain ⟨ip, port, hsplit, hlong⟩ := hlong
    refine iff_of_false ?_ fun h => hlong (h.1 ip port hsplit)
    rintro ⟨r, ⟨⟩⟩

theorem addressCommand_returns_iff {name : String} {use : Str → Int32 → Run (Session × Str)}
    (hword : word name (cString input) ≠ none) :
    (∃ r, addressCommand locals input s name use = .ok r) ↔ ArgumentFits name (cString input) ∧
      ∀ w ip port, word name (cString input) = some w → Accepted w ip port →
        ∃ r, use ip (Int32.ofInt (leadingNumber port)) = .ok r := by
  obtain ⟨w, hw⟩ := Option.ne_none_iff_exists'.mp hword
  have hargument : ArgumentFits name (cString input) ↔ w.length < MAX_BUFFER ∧
      ∀ ip port, splitAddress w = some (ip, port) → PartsFit ip port := by
    constructor
    · intro h
      exact h w hw
    · intro h w' hw'
      rw [hw] at hw'
      cases hw'
      exact h
  rw [hargument, addressCommand_some hw]
  by_cases hlen : w.length < MAX_BUFFER
  · rw [if_neg (Nat.not_le.mpr hlen), onAddress_returns_iff]
    constructor
    · rintro ⟨hfits, huse⟩
      refine ⟨⟨hlen, hfits⟩, fun w' ip port hw' hacc => ?_⟩
      rw [hw] at hw'
      cases hw'
      exact huse ip port hacc
    · rintro ⟨⟨_, hfits⟩, huse⟩
      exact ⟨hfits, fun ip port => huse w ip port hw⟩
  · rw [if_pos (Nat.le_of_not_lt hlen)]
    refine iff_of_false ?_ fun h => hlen h.1.1
    rintro ⟨r, ⟨⟩⟩

/-- Without a loop the fuel makes no difference. -/
theorem settles_const_iff {α : Type} {x : Run α} :
    (∃ r, Settles (fun _ => x) (.ok r)) ↔ ∃ r, x = .ok r := by
  constructor
  · rintro ⟨r, n, hn⟩
    exact ⟨r, hn n (Nat.le_refl n)⟩
  · rintro ⟨r, rfl⟩
    exact ⟨r, Settles.const _⟩

theorem connectTo_returns_iff {ip : Str} {port : Int32} (h : ip.length < MAX_IP) :
    (∃ r, connectTo env s ip port = .ok r) ↔
      env.created = true ∨ (ip, port) ∈ addrs s.net.peerList := by
  by_cases hmem : (ip, port) ∈ addrs s.net.peerList
  · obtain ⟨peer, hpeer⟩ := Option.ne_none_iff_exists'.mp fun hnone =>
      getPeer_eq_none_iff.mp hnone hmem
    refine iff_of_true ⟨(s, bytes "Error: Connection already made\n"), ?_⟩ (Or.inr hmem)
    unfold connectTo
    rw [hpeer]
  · rw [connectTo_new h (getPeer_eq_none_iff.mpr hmem)]
    by_cases hcreated : env.created = true
    · rw [if_pos hcreated]
      exact iff_of_true ⟨_, rfl⟩ (Or.inl hcreated)
    · rw [if_neg hcreated]
      refine iff_of_false ?_ (not_or.mpr ⟨hcreated, hmem⟩)
      rintro ⟨r, ⟨⟩⟩

/-- **A command returns** exactly if its line is one that is carried out. -/
theorem runCommand_returns_iff (h : Owned s.managed ps) (hline : HasAddress (cString input)) :
    (∃ r, Settles (fun fuel => runCommand fuel env locals input s) (.ok r)) ↔
      s.Returns env (cString input) := by
  unfold runCommand Session.Returns
  cases hc : commandOf (cString input) with
  | quit =>
      have hsim : Simulated env (cString input) s ps _ := quit_does h hc
      exact iff_of_true hsim.returns trivial
  | peers =>
      simp only
      constructor
      · rintro ⟨r, n, hn⟩
        have hrun := hn n (Nat.le_refl n)
        rw [peersCommand_eq] at hrun
        by_contra hfits
        rw [if_neg hfits] at hrun
        cases hrun
      · intro hfits
        have hsim : Simulated env (cString input) s ps _ := peersCommand_does h hc hfits
        exact hsim.returns
  | addPackage =>
      simp only
      constructor
      · rintro ⟨r, n, hn⟩
        exact addCommand_returns (hn n (Nat.le_refl n))
      · intro hreturns
        exact (addCommand_does h hc hreturns).returns
  | packages =>
      simp only
      constructor
      · rintro ⟨r, n, hn⟩
        obtain ⟨text, htext, _⟩ := Run.bind_eq_ok.mp (hn n (Nat.le_refl n))
        exact printPackage_fits htext
      · intro hfits
        have hsim : Simulated env (cString input) s ps _ := packagesCommand_does h hc hfits
        exact hsim.returns
  | remPackage =>
      simp only
      constructor
      · rintro ⟨r, n, hn⟩ w hw
        have hrun : remCommand n locals input s = .ok r := hn n (Nat.le_refl n)
        rw [remCommand_some hw] at hrun
        by_contra hlong
        rw [if_pos (Nat.le_of_not_lt hlong)] at hrun
        cases hrun
      · intro hfits
        have hsim : Simulated env (cString input) s ps fun fuel => remCommand fuel locals input s :=
          remCommand_does h hc hfits
        exact hsim.returns
  | connect =>
      simp only
      rw [settles_const_iff]
      refine (addressCommand_returns_iff (hline.1 hc)).trans (and_congr_right fun _ => ?_)
      constructor
      · intro huse w ip port hw hacc
        exact (connectTo_returns_iff hacc.fits.ip).mp (huse w ip port hw hacc)
      · intro hconn w ip port hw hacc
        exact (connectTo_returns_iff hacc.fits.ip).mpr (hconn w ip port hw hacc)
  | disconnect =>
      simp only
      rw [settles_const_iff]
      refine (addressCommand_returns_iff (hline.2 hc)).trans (and_iff_left ?_)
      exact fun _ _ _ _ _ => ⟨_, rfl⟩
  | invalid => exact iff_of_true ⟨_, Settles.const _⟩ trivial

end Returns

/-! ## Whole sessions -/

/-- What `PACKAGES` prints. -/
def Session.Lists (s : Session) (text : Str) : Prop :=
  Settles (fun fuel => printPackage fuel s.managed.mem s.managed.list) (.ok text)

/-- The event is not a command that adds or removes packages. -/
def Session.KeepsPackages (s : Session) : SessionEvent → Prop
  | .command _ _ _ _ => commandOf (inputLine s.stdin) ≠ .addPackage ∧
      commandOf (inputLine s.stdin) ≠ .remPackage ∧ commandOf (inputLine s.stdin) ≠ .quit
  | _ => True

/-- The commands among the events. -/
def commands (es : List SessionEvent) : Nat :=
  es.countP fun e => match e with
    | .command _ _ _ _ => true
    | _ => false

section Sessions

variable {env : Env} {stdin text : Str} {s t : Session} {es es' : List SessionEvent}

/-- **The command loop survives exactly the lines that are carried out**: in every state that a session
    reaches, a command returns if and only if its line is one of them. For `QUIT` this is about what follows
    the end of the server thread, for which it waits. -/
theorem session_returns_iff (h : Steps (Session.Step env) (.start stdin) es s)
    (hloop : s.mainLoop = true) (hstdin : s.stdin ≠ []) (hline : HasAddress (inputLine s.stdin))
    (locals : Locals) (junk : Junk) (created : Bool) :
    (∃ out s', s.Step env (.command locals junk created out) s') ↔
      s.read.Returns (env.during junk created) (inputLine s.stdin) := by
  obtain ⟨ps, howned⟩ := session_owned h
  obtain ⟨input, heq, hinput⟩ := processCommand_any (env.during junk created) locals hstdin
  rw [← hinput] at hline ⊢
  rw [← @runCommand_returns_iff (env.during junk created) locals input s.read ps howned hline]
  simp only [← heq]
  constructor
  · rintro ⟨out, s', _, hrun⟩
    exact ⟨(s', out), hrun⟩
  · rintro ⟨⟨s', out⟩, hrun⟩
    exact ⟨out, s', hloop, hrun⟩

/-- **`QUIT` always works** once the server thread for which it waits has ended. It ends the loop and leaves
    no tree node in memory: each has been released, and none twice. -/
theorem session_quit (h : Steps (Session.Step env) (.start stdin) es s) (hloop : s.mainLoop = true)
    (hline : bytes "QUIT" <+: inputLine s.stdin) (locals : Locals) (junk : Junk) (created : Bool) :
    ∃ s', (∀ out t, s.Step env (.command locals junk created out) t ↔ out = [] ∧ t = s') ∧
      s'.mainLoop = false ∧ ∀ a, s'.managed.mem.nodes.cells a = none := by
  obtain ⟨ps, howned⟩ := session_owned h
  have hcommand := (@commandOf_eq_iff (inputLine s.stdin) .quit (by simp)).mpr hline
  have hstdin : s.stdin ≠ [] := by
    intro hnil
    rw [hnil] at hcommand
    cases hcommand
  obtain ⟨input, heq, hinput⟩ := processCommand_any (env.during junk created) locals hstdin
  obtain ⟨mem, hfree, hnone⟩ := howned.freePackage
  let s' : Session := { s.read with
    net := { s.net with peerList := [] }
    managed := { s.managed with mem := mem, list := [] }
    mainLoop := false }
  have hrun : Settles (fun fuel => processCommand fuel (env.during junk created) locals s)
      (.ok (s', [])) := by
    simp only [heq, runCommand, hinput, hcommand]
    exact hfree.map _
  refine ⟨s', fun out t => ⟨?_, ?_⟩, rfl, hnone⟩
  · rintro ⟨_, hstep⟩
    cases hstep.unique hrun
    exact ⟨rfl, rfl⟩
  · rintro ⟨rfl, rfl⟩
    exact ⟨hloop, hrun⟩

/-- What is listed is what the tracker has. -/
theorem Owned.lists_iff {ps : List Holding} (h : Owned s.managed ps) : s.Lists text ↔
    CounterFits 1 ps.length ∧ text = packagesText (ps.map Holding.listed) := by
  have hprint := h.printPackage
  constructor
  · intro hlists
    have heq := hlists.unique hprint
    split at heq
    · next hfits =>
        cases heq
        exact ⟨hfits, rfl⟩
    · cases heq
  · rintro ⟨hfits, rfl⟩
    rwa [if_pos hfits] at hprint

/-- A line that neither adds nor removes packages leaves them as they are. -/
theorem Tracker.Does.packages_eq {line out : Str} {t t' : Tracker} (h : t.Does env line t' out)
    (hadd : commandOf line ≠ .addPackage) (hrem : commandOf line ≠ .remPackage)
    (hquit : commandOf line ≠ .quit) : t'.packages = t.packages := by
  cases h with
  | quit hc => exact absurd hc hquit
  | added hword =>
      have hc := @commandOf_eq_iff line .addPackage (by simp)
      exact absurd (hc.mpr (prefix_of_word hword)) hadd
  | remove hword =>
      have hc := @commandOf_eq_iff line .remPackage (by simp)
      exact absurd (hc.mpr (prefix_of_word hword)) hrem
  | _ => rfl

/-- **The status of a package is settled when it is added.** As long as no package is added or removed,
    whatever else happens, to the data files in particular, the list that is printed stays the same. -/
theorem listing_frozen (h : Steps (Session.Step env) (.start stdin) es s)
    (h' : Steps (Session.Step env) s es' t)
    (hkeeps : EachStep (Session.Step env) Session.KeepsPackages s es') (text : Str) :
    s.Lists text ↔ t.Lists text := by
  obtain ⟨ps, howned⟩ := session_owned h
  -- the listed packages are the same throughout
  have hinv := hkeeps.invariant
    (fun u => ∃ qs, Owned u.managed qs ∧ qs.map Holding.listed = ps.map Holding.listed) ?_ h'
    ⟨ps, howned, rfl⟩
  · obtain ⟨qs, howned', hsame⟩ := hinv
    have hlen : qs.length = ps.length := by simpa using congrArg List.length hsame
    rw [howned.lists_iff, howned'.lists_iff, hsame, hlen]
  · rintro u e v hkeep ⟨qs, hqs, hsame⟩ hstep
    have hshows : Shows u (u.view qs) := ⟨qs, hqs, rfl⟩
    obtain ⟨t', ht', rs, hrs, rfl⟩ := hshows.step hstep
    refine ⟨rs, hrs, Eq.trans ?_ hsame⟩
    cases e with
    | command locals junk created out =>
        obtain ⟨_, _, hdoes⟩ := ht'
        exact hdoes.packages_eq hkeep.1 hkeep.2.1 hkeep.2.2
    | finished peer sockfd =>
        obtain ⟨_, net, _, hview⟩ := ht'
        exact congrArg Tracker.packages hview
    | changed files => exact congrArg Tracker.packages ht'

/-! ## The lines of the input -/

theorem Tracker.Does.stdin_eq {line out : Str} {t t' : Tracker} (h : t.Does env line t' out) :
    t'.stdin = t.stdin := by
  cases h <;> rfl

/-- A command takes the next line, another event none. -/
theorem Tracker.Step.lines {t t' : Tracker} {e : SessionEvent} (h : t.Step env e t') :
    linesOf MAX_INPUT t'.stdin = (linesOf MAX_INPUT t.stdin).drop (commands [e]) ∧
      commands [e] ≤ (linesOf MAX_INPUT t.stdin).length := by
  cases e with
  | command locals junk created out =>
      obtain ⟨_, hne, hdoes⟩ := h
      obtain ⟨c, cs, hcs⟩ := List.exists_cons_of_ne_nil hne
      rw [hdoes.stdin_eq, Tracker.read, hcs, linesOf]
      exact ⟨rfl, Nat.le_add_left 1 _⟩
  | finished peer sockfd =>
      obtain ⟨_, net, _, rfl⟩ := h
      exact ⟨rfl, Nat.zero_le _⟩
  | changed files =>
      cases h
      exact ⟨rfl, Nat.zero_le _⟩

theorem Tracker.lines {t t' : Tracker} (h : Steps (Tracker.Step env) t es t') :
    linesOf MAX_INPUT t'.stdin = (linesOf MAX_INPUT t.stdin).drop (commands es) ∧
      commands es ≤ (linesOf MAX_INPUT t.stdin).length := by
  induction h with
  | nil => exact ⟨rfl, Nat.zero_le _⟩
  | @snoc t u es e _ hstep ih =>
      obtain ⟨hrest, hle⟩ := ih
      obtain ⟨hrest', hle'⟩ := hstep.lines
      have hcount : commands (es ++ [e]) = commands es + commands [e] := List.countP_append ..
      rw [hrest, List.length_drop] at hle'
      rw [hrest', hrest, List.drop_drop, hcount]
      exact ⟨rfl, by omega⟩

/-- **The commands are the lines of the input**, cut after 5519 characters: each is read once, in order,
    and there are no more commands than lines. -/
theorem session_lines (h : Steps (Session.Step env) (.start stdin) es s) :
    linesOf MAX_INPUT s.stdin = (linesOf MAX_INPUT stdin).drop (commands es) ∧
      commands es ≤ (linesOf MAX_INPUT stdin).length := by
  obtain ⟨_, hrun, ps, _, rfl⟩ := (Shows.start _).steps h
  exact Tracker.lines hrun

end Sessions

/-! ## After a package has been added -/

theorem session_returns_iff_addAb :
    ∃ s : Session, s.managed.list.length = 1 ∧ inputLine s.stdin = bytes "PACKAGES\n" ∧
      ∃ out s', s.Step (.plain (bytes "packages")) (.command (.fill 0) default true out) s' := by
  obtain ⟨s, hrun, hloop, hstdin, hone, _⟩ := addAb_run (.fill 0) (bytes "PACKAGES\n")
  have hline : inputLine s.stdin = bytes "PACKAGES\n" := by
    rw [hstdin]
    decide
  have hcommand : commandOf (inputLine s.stdin) = .packages := by
    rw [hline]
    decide
  have hne : s.stdin ≠ [] := by
    rw [hstdin]
    decide
  have haddress : HasAddress (inputLine s.stdin) := by
    constructor
    · intro hc
      rw [hcommand] at hc
      cases hc
    · intro hc
      rw [hcommand] at hc
      cases hc
  refine ⟨s, hone, hline, (session_returns_iff hrun hloop hne haddress (.fill 0) default true).mpr ?_⟩
  unfold Session.Returns
  rw [hcommand]
  show CounterFits 1 s.managed.list.length
  rw [hone]
  decide

theorem session_quit_addAb :
    ∃ s s' : Session, s.managed.list.length = 1 ∧
      s.Step (.plain (bytes "packages")) (.command (.fill 0) default true []) s' ∧
      ∀ a, s'.managed.mem.nodes.cells a = none := by
  obtain ⟨s, hrun, hloop, hstdin, hone, _⟩ := addAb_run (.fill 0) (bytes "QUIT\n")
  have hline : bytes "QUIT" <+: inputLine s.stdin := by
    rw [hstdin]
    decide
  obtain ⟨s', hstep, _, hnone⟩ := session_quit hrun hloop hline (.fill 0) default true
  exact ⟨s, s', hone, (hstep [] s').mpr ⟨rfl, rfl⟩, hnone⟩

/-- Other files: no package file, and a complete data file. -/
def otherFiles : Files where
  text := fun _ => none
  data := fun _ => .present true true (bytes "complete")

theorem listing_frozen_addAb :
    ∃ s : Session, s.managed.list.length = 1 ∧ ∀ text, s.Lists text ↔
      ({ s with managed := { s.managed with files := otherFiles } } : Session).Lists text := by
  obtain ⟨s, hrun, _, _, hone, _⟩ := addAb_run (.fill 0) []
  have hchanged := @Steps.single_iff _ _ (Session.Step (.plain (bytes "packages"))) s
    { s with managed := { s.managed with files := otherFiles } } (.changed otherFiles)
  exact ⟨s, hone, listing_frozen hrun (hchanged.mpr rfl) (EachStep.cons trivial fun _ _ => EachStep.nil)⟩

theorem session_lines_addAb : ∃ s : Session, s.managed.list.length = 1 ∧
    linesOf MAX_INPUT s.stdin = (linesOf MAX_INPUT (bytes "ADDPACKAGE ab\n" ++ bytes "QUIT\n")).drop 1 := by
  obtain ⟨s, hrun, _, _, hone, _⟩ := addAb_run (.fill 0) (bytes "QUIT\n")
  exact ⟨s, hone, (session_lines hrun).1⟩

end Btide
