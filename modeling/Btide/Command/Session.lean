import Btide.Command.Contained
import Btide.Command.Listing

/-!
# `Command.Session` — whole sessions

A session is a run of the command loop, the client threads it has started and whatever happens to the files
in the meantime. Through every session the tree nodes in memory are those of the managed packages
(`Command.Owned`), and every session is one of the tracker (`Command.Tracker`): the two are linked by
`Session.view`, which forgets the trees but for the status they give.

The events of a session do not overlap. The completion of a client thread is one event between two commands,
although nothing in the code excludes `add_peer` in one thread from `remove_peer` in another: what can be
lost then is the subject of `Peer.Threads`. That the call of `socket` fails is a completion like any other;
the record that is released twice is in `Peer.Life`. And a `CONNECT` for which no thread can be created does
not return, so no event stands for it.

The simulation of one command asks only that the command returns (`runCommand_does`).
-/

namespace Btide

open LevelOrder

/-! ## The connections -/

section Peers

variable {peers : List PeerInfo} {ip : Str} {port : Int32}

theorem getPeer_eq_none_iff : getPeer peers ip port = none ↔ (ip, port) ∉ addrs peers := by
  induction peers with
  | nil => simp [getPeer, addrs]
  | cons current rest ih =>
      rw [getPeer, addrs, List.map_cons, List.mem_cons, not_or]
      by_cases h : current.ip = ip ∧ current.port = port
      · obtain ⟨rfl, rfl⟩ := h
        simp [PeerInfo.addr]
      · have hne : (ip, port) ≠ current.addr := fun he =>
          h ⟨(congrArg Prod.fst he).symm, (congrArg Prod.snd he).symm⟩
        rw [if_neg h, ih]
        exact ⟨fun hrest => ⟨hne, hrest⟩, fun hboth => hboth.2⟩

theorem removePeer_eq_none_iff : (removePeer peers ip port).2 = none ↔ (ip, port) ∉ addrs peers := by
  induction peers with
  | nil => simp [removePeer, addrs]
  | cons current rest ih =>
      rw [removePeer, addrs, List.map_cons, List.mem_cons, not_or]
      by_cases h : current.ip = ip ∧ current.port = port
      · obtain ⟨rfl, rfl⟩ := h
        simp [PeerInfo.addr]
      · have hne : (ip, port) ≠ current.addr := fun he =>
          h ⟨(congrArg Prod.fst he).symm, (congrArg Prod.snd he).symm⟩
        rw [if_neg h]
        exact ⟨fun hrest => ⟨hne, ih.mp hrest⟩, fun hboth => ih.mpr hboth.2⟩

end Peers

/-! ## The view -/

/-- What a session is to its user: the trees are forgotten but for the status they give. -/
def Session.view (s : Session) (ps : List Holding) : Tracker where
  stdin := s.stdin
  net := s.net
  files := s.managed.files
  packages := ps.map Holding.listed
  running := s.mainLoop

@[simp] theorem Session.view_net (s : Session) (ps : List Holding) : (s.view ps).net = s.net := rfl

@[simp] theorem Session.view_packages (s : Session) (ps : List Holding) :
    (s.view ps).packages = ps.map Holding.listed := rfl

/-! ## The commands -/

section Commands

variable {env : Env} {locals : Locals} {input out line : Str} {s s' : Session} {ps : List Holding}
  {fuel : Nat}

/-- What `CONNECT` and `DISCONNECT` have in common. -/
theorem addressCommand_cases {name : String} {use : Str → Int32 → Run (Session × Str)}
    {r : Session × Str} (h : addressCommand locals input s name use = .ok r) :
    (GivesNone name (cString input) ∧ r = (s, missingAddress)) ∨
      ∃ ip port, Gives name (cString input) ip port ∧ use ip port = .ok r := by
  cases hword : word name (cString input) with
  | none =>
      rw [addressCommand_none hword] at h
      obtain ⟨valid, _, h⟩ := Run.bind_eq_ok.mp h
      by_cases hvalid : valid = 0
      · rw [if_pos hvalid] at h
        cases h
        refine Or.inl ⟨fun w hw => ?_, rfl⟩
        rw [hword] at hw
        cases hw
      · rw [if_neg hvalid] at h
        obtain ⟨⟨ip, port⟩, _, h⟩ := Run.bind_eq_ok.mp h
        refine Or.inr ⟨ip, port, fun w hw => ?_, h⟩
        rw [hword] at hw
        cases hw
  | some w =>
      rw [addressCommand_some hword] at h
      split at h
      · cases h
      · rcases onAddress_cases w s use with ⟨ip, text, hacc, heq⟩ | ⟨hnone, _, heq⟩ | ⟨_, heq⟩
        · rw [heq] at h
          refine Or.inr ⟨ip, _, fun w' hw => ?_, h⟩
          rw [hword] at hw
          cases hw
          exact ⟨text, hacc, rfl⟩
        · rw [heq] at h
          cases h
          refine Or.inl ⟨fun w' hw => ?_, rfl⟩
          rw [hword] at hw
          cases hw
          exact hnone
        · rw [heq] at h
          cases h

/-- `add_package` returns only if its paths fit and the file, if there is one, can be added. -/
theorem addPackage_returns {m : Managed} {pageSize : Nat} {junk : Junk} {path file : Str}
    {r : Managed × Option Str} (h : addPackage fuel pageSize junk path file m = .ok r) :
    PathsFit path file ∧ ∀ contents, m.files.text (directory path ++ file) = some contents →
      Addable pageSize junk path m contents := by
  obtain ⟨dir, hdir, h⟩ := Run.bind_eq_ok.mp h
  obtain ⟨hne, hlen, rfl⟩ := directoryOf_eq_ok.mp hdir
  obtain ⟨filepath, hpath, h⟩ := Run.bind_eq_ok.mp h
  obtain ⟨rfl, hfile⟩ := storeStr_eq_ok hpath
  refine ⟨⟨hne, hlen, hfile⟩, fun contents htext => ?_⟩
  simp only [htext] at h
  obtain ⟨obj, hload, h⟩ := Run.bind_eq_ok.mp h
  obtain ⟨_, hadd, _⟩ := Run.bind_eq_ok.mp h
  obtain ⟨cs, data, hrest⟩ := addLoaded_returns hload hadd
  exact ⟨obj, cs, data, hload, hrest⟩

section Add

variable {m : Managed} {pageSize : Nat} {junk : Junk} {path file contents : Str}

/-- **A package file that can be added** is added, and the trees in memory are those of the managed
    packages again. -/
theorem Owned.adds (h : Owned m ps) (hfit : PathsFit path file)
    (htext : m.files.text (directory path ++ file) = some contents)
    (hadd : Addable pageSize junk path m contents) :
    ∃ p files mem, Adds pageSize junk (directory path) contents m.files p.listed files ∧
      Settles (fun fuel => addPackage fuel pageSize junk path file m)
        (.ok ({ mem := mem, files := files, list := m.list ++ [p.obj] }, none)) ∧
      Owned { mem := mem, files := files, list := m.list ++ [p.obj] } (ps ++ [p]) ∧
      ∀ b, b < m.mem.nodes.next → mem.nodes.cells b = m.mem.nodes.cells b := by
  obtain ⟨obj, cs, data, hload, hcs, htwo, hdatapath, hdata, hhash⟩ := hadd
  obtain ⟨hs, mem, node, hlists, hbuilt, hall, hsettles⟩ :=
    addLoaded_built hload hcs htwo hdatapath hdata hhash
  have hcap : (2 ^ Nat.log 2 cs.length : Nat) ≤ obj.nchunks.toInt := by
    have hle : 2 ^ Nat.log 2 cs.length ≤ cs.length := Nat.pow_log_le_self 2 (by omega)
    have hn := hlists.nchunks
    omega
  let p : Holding := {
    obj := obj.added (directory path) m.mem.nodes.next
    height := Nat.log 2 cs.length
    comp := computed (Nat.log 2 cs.length) (fileHashes pageSize data cs)
    exp := expected hs cs
    node := node
    root := congrArg some hbuilt.linked.root.symm
    distinct := hbuilt.inj
    capacity := hcap }
  have hin : p.In mem := by
    have hlabelled := hbuilt.labelled
    rwa [← hbuilt.linked.root] at hlabelled
  refine ⟨p, _, mem, .intro hload hlists hdata, ?_, h.snoc hin hall hbuilt.frame _, hbuilt.frame⟩
  simp only [addPackage_steps hfit, htext, hload, Run.ok_bind]
  exact hsettles.map fun m => (m, none)

/-- Without such a file the command gives up. -/
theorem addPackage_missing (hfit : PathsFit path file)
    (htext : m.files.text (directory path ++ file) = none) :
    Settles (fun fuel => addPackage fuel pageSize junk path file m)
      (.ok (m, some (bytes "Cannot open file\n"))) := by
  simp only [addPackage_steps hfit, htext]
  exact Settles.const _

end Add

/-- The command settles on something that the tracker does as well. -/
def Simulated (env : Env) (line : Str) (s : Session) (ps : List Holding)
    (run : Nat → Run (Session × Str)) : Prop :=
  ∃ s' out ps', Settles run (.ok (s', out)) ∧ Owned s'.managed ps' ∧
    (s.view ps).Does env line (s'.view ps') out

theorem Simulated.returns {run : Nat → Run (Session × Str)} (h : Simulated env line s ps run) :
    ∃ r, Settles run (.ok r) := by
  obtain ⟨s', out, _, hrun, _⟩ := h
  exact ⟨(s', out), hrun⟩

theorem quit_does (h : Owned s.managed ps) (hc : commandOf line = .quit) :
    Simulated env line s ps fun fuel => quit fuel s := by
  obtain ⟨mem, hrun, hnone⟩ := h.freePackage
  refine ⟨_, [], [], hrun.map _, ⟨rfl, fun p hp => absurd hp List.not_mem_nil, .nil, ?_⟩, .quit hc⟩
  intro a nd ha
  have ha : mem.nodes.cells a = some nd := ha
  rw [hnone a] at ha
  cases ha

theorem peersCommand_does (h : Owned s.managed ps) (hc : commandOf line = .peers)
    (hfits : CounterFits 1 s.net.peerList.length) :
    Simulated env line s ps fun _ => peersCommand s := by
  rw [peersCommand_eq, if_pos hfits]
  exact ⟨s, _, ps, Settles.const _, h, .peers hc⟩

theorem packagesCommand_does (h : Owned s.managed ps) (hc : commandOf line = .packages)
    (hfits : CounterFits 1 s.managed.list.length) :
    Simulated env line s ps fun fuel => packagesCommand fuel s := by
  have hrun := h.printPackage
  rw [h.list, List.length_map] at hfits
  rw [if_pos hfits] at hrun
  exact ⟨s, _, ps, hrun.map fun text => (s, text), h, .packages hc⟩

/-- What the argument of `ADDPACKAGE` must be like for the command to return. -/
def AddReturns (env : Env) (s : Session) (line : Str) : Prop :=
  ∀ w, word "ADDPACKAGE" line = some w → w.length < MAX_BUFFER ∧
    (kept none w ≠ [] → PathsFit env.directory (kept none w) ∧
      ∀ contents, s.managed.files.text (directory env.directory ++ kept none w) = some contents →
        Addable env.pageSize env.junk env.directory s.managed contents)

theorem addCommand_returns {r : Session × Str} (h : addCommand fuel env locals input s = .ok r) :
    AddReturns env s (cString input) := by
  intro w hw
  rw [addCommand_some hw] at h
  split at h
  · cases h
  · next hlong =>
      refine ⟨by omega, fun hne => ?_⟩
      rw [if_neg hne] at h
      obtain ⟨_, hadd, _⟩ := Run.bind_eq_ok.mp h
      exact addPackage_returns hadd

theorem addCommand_does (h : Owned s.managed ps) (hc : commandOf (cString input) = .addPackage)
    (hreturns : AddReturns env s (cString input)) :
    Simulated env (cString input) s ps fun fuel => addCommand fuel env locals input s := by
  cases hword : word "ADDPACKAGE" (cString input) with
  | none =>
      simp only [addCommand_none hword]
      refine ⟨s, _, ps, Settles.const _, h, .missingFile hc fun w hw => ?_⟩
      rw [hword] at hw
      cases hw
  | some w =>
      obtain ⟨hlen, hadd⟩ := hreturns w hword
      simp only [addCommand_some hword, if_neg (Nat.not_le.mpr hlen)]
      by_cases hempty : kept none w = []
      · simp only [if_pos hempty]
        refine ⟨s, _, ps, Settles.const _, h, .missingFile hc fun w' hw => ?_⟩
        rw [hword] at hw
        cases hw
        exact hempty
      · simp only [if_neg hempty]
        obtain ⟨hfit, haddable⟩ := hadd hempty
        cases htext : s.managed.files.text (directory env.directory ++ kept none w) with
        | none =>
            exact ⟨s, _, ps, (addPackage_missing hfit htext).map _, h,
              .unreadable hword hempty htext⟩
        | some contents =>
            obtain ⟨p, files, mem, hadds, hsettles, howned, _⟩ := h.adds hfit htext (haddable _ htext)
            have hdoes := Tracker.Does.added (t := s.view ps) hword hempty htext hadds
            have hlisted : (s.view ps).packages ++ [p.listed] = (ps ++ [p]).map Holding.listed := by
              rw [List.map_append]
              rfl
            rw [hlisted] at hdoes
            exact ⟨_, [], ps ++ [p], hsettles.map _, howned, hdoes⟩

theorem remCommand_does (h : Owned s.managed ps) (hc : commandOf (cString input) = .remPackage)
    (hfits : ∀ w, word "REMPACKAGE" (cString input) = some w → w.length < identifierSize) :
    Simulated env (cString input) s ps fun fuel => remCommand fuel locals input s := by
  cases hword : word "REMPACKAGE" (cString input) with
  | none =>
      simp only [remCommand_none hword]
      exact ⟨s, _, ps, Settles.const _, h, .missingIdentifier hc hword⟩
  | some w =>
      have hlt := hfits w hword
      simp only [remCommand_some hword, if_neg (Nat.not_le.mpr hlt)]
      obtain ⟨mem, hrun, howned, _⟩ := h.removePackage w
      have hdoes : (s.view ps).Does env (cString input) _ _ := .remove hword
      have herase : (s.view ps).packages.eraseP (fun entry => w.isPrefixOf entry.identifier)
          = (ps.eraseP fun p => w.isPrefixOf p.obj.identifier).map Holding.listed := List.eraseP_map ..
      have hmessage : removedMessage s.managed.list w
          = if (s.view ps).packages.any fun entry => w.isPrefixOf entry.identifier
              then bytes "Package has been removed\n"
              else bytes "Identifier provided does not match managed packages\n" := by
        rw [removedMessage, h.list, Session.view, List.any_map, List.any_map]
        rfl
      rw [herase, ← hmessage] at hdoes
      exact ⟨_, _, _, hrun.map _, howned, hdoes⟩

theorem connectCommand_does (h : Owned s.managed ps) (hc : commandOf (cString input) = .connect)
    {r : Session × Str} (hrun : connectCommand env locals input s = .ok r) :
    Simulated env (cString input) s ps fun _ => connectCommand env locals input s := by
  rw [hrun]
  rcases addressCommand_cases hrun with ⟨hnone, rfl⟩ | ⟨ip, port, hgives, huse⟩
  · exact ⟨s, _, ps, Settles.const _, h, .missingAddress (Or.inl ⟨hc, hnone⟩)⟩
  · have hdoes : (s.view ps).Does env (cString input) _ _ := .connect hc hgives
    unfold connectTo at huse
    by_cases hmem : (ip, port) ∈ addrs s.net.peerList
    · obtain ⟨peer, hpeer⟩ := Option.ne_none_iff_exists'.mp fun hnone =>
        getPeer_eq_none_iff.mp hnone hmem
      rw [hpeer] at huse
      cases huse
      have hsame : s.net.connect ip port env.created = s.net := by
        unfold Net.connect
        rw [hpeer]
      rw [Session.view_net, hsame, if_pos hmem] at hdoes
      exact ⟨s, _, ps, Settles.const _, h, hdoes⟩
    · simp only [getPeer_eq_none_iff.mpr hmem] at huse
      obtain ⟨stored, hstore, hdone⟩ := Run.bind_eq_ok.mp huse
      obtain ⟨hsame, _⟩ := storeStr_eq_ok hstore
      rw [hsame] at hdone
      split at hdone
      · next hcreated =>
          cases hdone
          rw [Session.view_net, if_neg hmem, hcreated] at hdoes
          exact ⟨_, _, ps, Settles.const _, h, hdoes⟩
      · cases hdone

theorem disconnectCommand_does (h : Owned s.managed ps)
    (hc : commandOf (cString input) = .disconnect) {r : Session × Str}
    (hrun : disconnectCommand locals input s = .ok r) :
    Simulated env (cString input) s ps fun _ => disconnectCommand locals input s := by
  rw [hrun]
  rcases addressCommand_cases hrun with ⟨hnone, rfl⟩ | ⟨ip, port, hgives, huse⟩
  · exact ⟨s, _, ps, Settles.const _, h, .missingAddress (Or.inr ⟨hc, hnone⟩)⟩
  · have hdoes : (s.view ps).Does env (cString input) _ _ := .disconnect hc hgives
    cases huse
    refine ⟨_, _, ps, Settles.const _, h, ?_⟩
    by_cases hmem : (ip, port) ∈ addrs s.net.peerList
    · obtain ⟨peer, hpeer⟩ := Option.ne_none_iff_exists'.mp fun hnone =>
        removePeer_eq_none_iff.mp hnone hmem
      rw [Session.view_net, if_pos hmem] at hdoes
      rw [hpeer]
      exact hdoes
    · rw [Session.view_net, if_neg hmem] at hdoes
      rw [removePeer_eq_none_iff.mpr hmem]
      exact hdoes

/-- **A command that returns does what the tracker does**, and keeps up who owns the tree nodes. -/
theorem runCommand_does (h : Owned s.managed ps) {r : Session × Str}
    (hrun : runCommand fuel env locals input s = .ok r) :
    Simulated env (cString input) s ps fun fuel => runCommand fuel env locals input s := by
  unfold runCommand at hrun ⊢
  cases hc : commandOf (cString input) with
  | quit => exact quit_does h hc
  | peers =>
      simp only [hc, peersCommand_eq] at hrun
      split at hrun
      · next hfits => exact peersCommand_does h hc hfits
      · cases hrun
  | addPackage =>
      simp only [hc] at hrun
      exact addCommand_does h hc (addCommand_returns hrun)
  | packages =>
      simp only [hc] at hrun
      obtain ⟨text, htext, _⟩ := Run.bind_eq_ok.mp hrun
      exact packagesCommand_does h hc (printPackage_fits htext)
  | remPackage =>
      simp only [hc] at hrun
      refine remCommand_does h hc fun w hw => ?_
      rw [remCommand_some hw] at hrun
      split at hrun
      · cases hrun
      · omega
  | connect =>
      simp only [hc] at hrun
      exact connectCommand_does h hc hrun
  | disconnect =>
      simp only [hc] at hrun
      exact disconnectCommand_does h hc hrun
  | invalid => exact ⟨s, _, ps, Settles.const _, h, .invalid hc⟩

/-- The line is read before anything is looked at. -/
theorem processCommand_any (env : Env) (locals : Locals) (h : s.stdin ≠ []) :
    ∃ input, (∀ fuel, processCommand fuel env locals s = runCommand fuel env locals input s.read) ∧
      cString input = inputLine s.stdin := by
  obtain ⟨b, hb, _, hstr⟩ := locals.input.fgets_ok (by decide) h
  refine ⟨b.chars, fun fuel => ?_, hstr⟩
  unfold processCommand
  rw [hb, Run.ok_bind]
  rfl

/-- The same for a call of `process_command`. -/
theorem processCommand_does (h : Owned s.managed ps) {r : Session × Str}
    (hrun : processCommand fuel env locals s = .ok r) :
    s.stdin ≠ [] ∧
      Simulated env (inputLine s.stdin) s.read ps fun fuel => processCommand fuel env locals s := by
  have hne : s.stdin ≠ [] := by
    intro hnil
    rw [processCommand_eof hnil] at hrun
    cases hrun
  obtain ⟨input, heq, hline⟩ := processCommand_any env locals hne
  simp only [heq] at hrun ⊢
  rw [← hline]
  exact ⟨hne, runCommand_does (s := s.read) h hrun⟩

end Commands

/-! ## Runs -/

inductive SessionEvent
  /-- `process_command` returns. The local arrays start with what earlier calls have left, and so does the
      memory that `malloc` returns; `output` is what has been printed. -/
  | command (locals : Locals) (junk : Junk) (created : Bool) (output : Str)
  /-- A client thread runs to its end; without a socket, if any of its calls has failed. -/
  | finished (peer : PeerInfo) (sockfd : Option Int)
  /-- Another program changes the files. -/
  | changed (files : Files)

/-- The environment of one command. -/
def Env.during (env : Env) (junk : Junk) (created : Bool) : Env :=
  { env with
    junk := junk
    created := created }

/-- One event of a session. What client threads do after `QUIT` is the subject of `Peer.Life`. -/
def Session.Step (env : Env) (s : Session) (e : SessionEvent) (s' : Session) : Prop :=
  match e with
  | .command locals junk created output => s.mainLoop = true ∧
      Settles (fun fuel => processCommand fuel (env.during junk created) locals s) (.ok (s', output))
  | .finished peer sockfd => s.mainLoop = true ∧
      ∃ net, s.net.step (.finished peer sockfd) = some net ∧ s' = { s with net := net }
  | .changed files => s' = { s with managed := { s.managed with files := files } }

/-- The same event, as the user sees it. -/
def Tracker.Step (env : Env) (t : Tracker) (e : SessionEvent) (t' : Tracker) : Prop :=
  match e with
  | .command _ junk created output => t.running = true ∧ t.stdin ≠ [] ∧
      t.read.Does (env.during junk created) (inputLine t.stdin) t' output
  | .finished peer sockfd => t.running = true ∧
      ∃ net, t.net.step (.finished peer sockfd) = some net ∧ t' = { t with net := net }
  | .changed files => t' = { t with files := files }

/-- The session shows the tracker `t`, and its tree nodes are those of the managed packages. -/
def Shows (s : Session) (t : Tracker) : Prop := ∃ ps, Owned s.managed ps ∧ s.view ps = t

theorem Shows.start (stdin : Str) : Shows (.start stdin) ((Session.start stdin).view []) :=
  ⟨[], Owned.empty _, rfl⟩

section Runs

variable {env : Env} {stdin : Str} {s s' : Session} {t : Tracker} {e : SessionEvent}
  {es : List SessionEvent}

/-- **One event.** -/
theorem Shows.step (h : Shows s t) (hstep : s.Step env e s') :
    ∃ t', t.Step env e t' ∧ Shows s' t' := by
  obtain ⟨ps, howned, rfl⟩ := h
  cases e with
  | command locals junk created output =>
      obtain ⟨hloop, hrun⟩ := hstep
      obtain ⟨n, hn⟩ := id hrun
      obtain ⟨hne, s'', out, ps', hsettles, howned', hdoes⟩ :=
        processCommand_does howned (hn n (Nat.le_refl n))
      cases hsettles.unique hrun
      exact ⟨_, ⟨hloop, hne, hdoes⟩, ps', howned', rfl⟩
  | finished peer sockfd =>
      obtain ⟨hloop, net, hnet, rfl⟩ := hstep
      exact ⟨_, ⟨hloop, net, hnet, rfl⟩, ps, howned, rfl⟩
  | changed files =>
      cases hstep
      exact ⟨_, rfl, ps, howned.withFiles files, rfl⟩

theorem Shows.steps (h : Shows s t) (hrun : Steps (Session.Step env) s es s') :
    ∃ t', Steps (Tracker.Step env) t es t' ∧ Shows s' t' :=
  Steps.simulate (R := Shows) (fun _ _ _ _ hshows hstep => hshows.step hstep) hrun h

/-- The tree nodes in memory are always those of the managed packages. -/
theorem session_owned (h : Steps (Session.Step env) (.start stdin) es s) :
    ∃ ps, Owned s.managed ps := by
  obtain ⟨_, _, ps, howned, _⟩ := (Shows.start stdin).steps h
  exact ⟨ps, howned⟩

/-- **Every session is one of the tracker**: the same lines are read, the same texts are printed, and the
    packages that are left are listed with the status they had when they were added. Throughout, the tree
    nodes in memory are those of the managed packages, each of them in one tree. -/
theorem session_tracked (h : Steps (Session.Step env) (.start stdin) es s) :
    ∃ ps, Owned s.managed ps ∧
      Steps (Tracker.Step env) ((Session.start stdin).view []) es (s.view ps) := by
  obtain ⟨t, hrun, ps, howned, rfl⟩ := (Shows.start stdin).steps h
  exact ⟨ps, howned, hrun⟩

end Runs

/-! ## A session that adds a package -/

theorem uniform_addable (mem : Mem) (list : List BpkgObj) (text : Str → Option Str) :
    Addable 4096 default (bytes "packages")
      { mem := mem, files := { text := text, data := fun _ => .absent true true }, list := list }
      (Package.uniform 1 (by decide)).write := by
  refine ⟨_, _, List.replicate 8 0, Package.uniform_load default 1 (by decide), rfl, by decide,
    by decide, .created (by decide) rfl, ?_⟩
  intro c hc
  rw [List.eq_of_mem_replicate hc]
  have hlen : 8 ≤ (mapping 4096 (List.replicate 8 0)).length :=
    length_le_mapping 4096 (List.replicate 8 0)
  exact Or.inr ⟨by decide, Int.ofNat_le.mpr hlen, by decide⟩

/-- The line is read whole, whatever follows it. -/
theorem read_addAb {s : Session} {rest : Str} (h : s.stdin = bytes "ADDPACKAGE ab\n" ++ rest) :
    inputLine s.stdin = bytes "ADDPACKAGE ab\n" ∧ s.read.stdin = rest := by
  have hwhole : Whole (MAX_INPUT - 2 + 1) (bytes "ADDPACKAGE ab\n") :=
    ⟨bytes "ADDPACKAGE ab", by decide, by decide, by decide⟩
  have hfirst := firstLine_whole hwhole rest
  unfold inputLine Session.read
  simp only [h, hfirst]
  exact ⟨cString_eq (by decide), List.drop_left⟩

/-- A package file appears in the directory and is added. -/
theorem add_run {files : Files} {contents : Str}
    (htext : files.text (bytes "packages/ab") = some contents)
    (hadd : Addable 4096 default (bytes "packages") { mem := .empty, files := files, list := [] } contents)
    (locals : Locals) (rest : Str) :
    ∃ s₁ s : Session, Steps (Session.Step (.plain (bytes "packages")))
        (.start (bytes "ADDPACKAGE ab\n" ++ rest)) [.changed files] s₁ ∧
      s₁.stdin = bytes "ADDPACKAGE ab\n" ++ rest ∧ s₁.managed.files = files ∧
      s₁.Step (.plain (bytes "packages")) (.command locals default true []) s ∧
      s.mainLoop = true ∧ s.stdin = rest ∧
      ∃ (p : Holding) (files' : Files), s.managed.list = [p.obj] ∧
        Adds 4096 default (directory (bytes "packages")) contents files p.listed files' := by
  let s₁ : Session := { Session.start (bytes "ADDPACKAGE ab\n" ++ rest) with
    managed := { mem := .empty, files := files, list := [] } }
  obtain ⟨hline, hrest⟩ := @read_addAb s₁ rest rfl
  have hw : word "ADDPACKAGE" (inputLine s₁.stdin) = some (bytes "ab") := by
    rw [hline]
    decide
  have hkept : kept none (bytes "ab") = bytes "ab" := by decide
  have hpath : directory (bytes "packages") ++ bytes "ab" = bytes "packages/ab" := by decide
  rw [← hpath] at htext
  have hfit : PathsFit (bytes "packages") (bytes "ab") := ⟨by decide, by decide, by decide⟩
  obtain ⟨p, files', mem, hadds, hadded, _⟩ := (Owned.empty files).adds hfit htext hadd
  have hcommand := fun fuel =>
    processCommand_add fuel (.plain (bytes "packages")) locals hw (by decide)
  have hne : bytes "ab" ≠ [] := by decide
  simp only [hkept, if_neg hne] at hcommand
  have hrun : Settles (fun fuel => processCommand fuel (.plain (bytes "packages")) locals s₁)
      (.ok ({ s₁.read with managed := ⟨mem, files', [p.obj]⟩ }, [])) := by
    simp only [hcommand]
    exact hadded.map fun r => (({ s₁.read with managed := r.1 } : Session), r.2.getD [])
  exact ⟨s₁, _, Steps.single_iff.mpr rfl, rfl, rfl, ⟨rfl, hrun⟩, rfl, hrest, p, files', rfl, hadds⟩

/-- The package with the identifier `ab` is added. -/
theorem addAb_run (locals : Locals) (rest : Str) :
    ∃ s, Steps (Session.Step (.plain (bytes "packages")))
        (.start (bytes "ADDPACKAGE ab\n" ++ rest))
        [.changed (directoryWithAb []).managed.files, .command locals default true []] s ∧
      s.mainLoop = true ∧ s.stdin = rest ∧ s.managed.list.length = 1 ∧
      ∀ obj ∈ s.managed.list, obj.identifier = bytes "ab" := by
  have htext : (directoryWithAb []).managed.files.text (bytes "packages/ab")
      = some (Package.uniform 1 (by decide)).write := by simp [directoryWithAb]
  obtain ⟨s₁, s, hchanged, _, _, hadd, hloop, hrest, p, files', hlist, hadds⟩ :=
    add_run htext (uniform_addable _ _ _) locals rest
  have hident : p.listed.identifier = bytes "ab" := by
    generalize p.listed = entry at hadds
    cases hadds with
    | intro hload _ _ =>
        rw [Package.uniform_load] at hload
        cases hload
        rfl
  refine ⟨s, hchanged.append (Steps.single_iff.mpr hadd), hloop, hrest, by rw [hlist]; rfl, ?_⟩
  rw [hlist]
  exact List.forall_mem_singleton.mpr hident

theorem session_tracked_addAb :
    ∃ (s : Session) (ps : List Holding), Owned s.managed ps ∧ ps.length = 1 ∧
      Steps (Tracker.Step (.plain (bytes "packages")))
        ((Session.start (bytes "ADDPACKAGE ab\n" ++ bytes "QUIT\n")).view [])
        [.changed (directoryWithAb []).managed.files, .command (.fill 0) default true []]
        (s.view ps) := by
  obtain ⟨s, hrun, _, _, hone, _⟩ := addAb_run (.fill 0) (bytes "QUIT\n")
  obtain ⟨ps, howned, htracked⟩ := session_tracked hrun
  have hlen := congrArg List.length howned.list
  rw [List.length_map, hone] at hlen
  exact ⟨s, ps, howned, hlen.symm, htracked⟩

end Btide
