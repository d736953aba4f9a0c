import Btide.Command.Process

/-!
# `Command.Stale` — what earlier calls have left behind

Two runs of `process_command` that differ in the initial contents of the local arrays only are compared.
Every branch but two looks at the result of `sscanf` before it reads the array that should have been
assigned. `CONNECT` and `DISCONNECT` do not: without an argument they use the address that happens to be
in the array, and since `DISCONNECT` is recognised by seven characters, so does every word that begins
with `DISCONN` and is another one. One more local variable may be read before it is assigned: `client_tid`,
which `CONNECT` passes to `pthread_detach` although no thread could be created.

On all other lines the two runs do the same (`processCommand_stale_iff`).
-/

namespace Btide

/-- In the environment `env` a line does the same whatever the arrays held, and `CONNECT` reads no
    `client_tid` that has not been assigned. -/
def StaleFree (env : Env) (stdin : Str) : Prop :=
  ∀ fuel locals locals' s, s.stdin = stdin →
    processCommand fuel env locals s = processCommand fuel env locals' s ∧
      (commandOf (inputLine stdin) = .connect → (processCommand fuel env locals s).Avoids .uninitRead)

/-- A line that selects `CONNECT` or `DISCONNECT` and has no argument is reported, and changes nothing. -/
def MissingReported (env : Env) (stdin : Str) : Prop :=
  (commandOf (inputLine stdin) = .connect ∧ word "CONNECT" (inputLine stdin) = none) ∨
    (commandOf (inputLine stdin) = .disconnect ∧ word "DISCONNECT" (inputLine stdin) = none) →
  ∀ fuel locals s, s.stdin = stdin →
    processCommand fuel env locals s = .ok (s.read, missingAddress)

/-- A thread can be created, should `CONNECT` have an address to connect to. -/
def ThreadCreated (env : Env) (line : Str) : Prop :=
  env.created = true ∨
    ∀ w, word "CONNECT" line = some w → ¬ ∃ ip port, Accepted w ip port

/-- A line that begins with `CONNECT` has a word behind it; one that begins with `DISCONN` begins with
    `DISCONNECT` and has a word behind that. -/
structure Supplied (line : Str) : Prop where
  connect : bytes "CONNECT" <+: line → word "CONNECT" line ≠ none
  disconnect : bytes "DISCONN" <+: line → word "DISCONNECT" line ≠ none

/-! ## Lines with an argument -/

section Free

variable {env : Env} {locals locals' : Locals} {input input' w : Str} {s : Session} {name : String}
  {use : Str → Int32 → Run (Session × Str)}

theorem addressCommand_congr (hstr : cString input = cString input')
    (hw : word name (cString input) ≠ none) :
    addressCommand locals input s name use = addressCommand locals' input' s name use := by
  have hword : word name (cString input') = word name (cString input) := by rw [hstr]
  obtain ⟨w, hw⟩ := Option.ne_none_iff_exists'.mp hw
  rw [addressCommand_some hw, addressCommand_some (hword.trans hw)]

theorem addCommand_congr (fuel : Nat) (hstr : cString input = cString input') :
    addCommand fuel env locals input s = addCommand fuel env locals' input' s := by
  have hword : word "ADDPACKAGE" (cString input) = word "ADDPACKAGE" (cString input') := by rw [hstr]
  cases hw : word "ADDPACKAGE" (cString input') with
  | none => rw [addCommand_none (hword.trans hw), addCommand_none hw]
  | some w => rw [addCommand_some (hword.trans hw), addCommand_some hw]

theorem remCommand_congr (fuel : Nat) (hstr : cString input = cString input') :
    remCommand fuel locals input s = remCommand fuel locals' input' s := by
  have hword : word "REMPACKAGE" (cString input) = word "REMPACKAGE" (cString input') := by rw [hstr]
  cases hw : word "REMPACKAGE" (cString input') with
  | none => rw [remCommand_none (hword.trans hw), remCommand_none hw]
  | some w => rw [remCommand_some (hword.trans hw), remCommand_some hw]

/-- A line with the arguments it needs. -/
theorem runCommand_congr (fuel : Nat) (hstr : cString input = cString input')
    (h : Supplied (cString input)) :
    runCommand fuel env locals input s = runCommand fuel env locals' input' s := by
  have hprefix := shortest_prefix (cString input)
  unfold runCommand
  rw [← hstr]
  cases hc : commandOf (cString input) with
  | quit => rfl
  | peers => rfl
  | packages => rfl
  | invalid => rfl
  | addPackage => exact addCommand_congr fuel hstr
  | remPackage => exact remCommand_congr fuel hstr
  | connect =>
      rw [hc] at hprefix
      exact addressCommand_congr hstr (h.connect hprefix)
  | disconnect =>
      rw [hc] at hprefix
      exact addressCommand_congr hstr (h.disconnect hprefix)

theorem processCommand_congr (fuel : Nat) (h : Supplied (inputLine s.stdin)) :
    processCommand fuel env locals s = processCommand fuel env locals' s := by
  by_cases hstdin : s.stdin = []
  · rw [processCommand_eof hstdin, processCommand_eof hstdin]
  · obtain ⟨input, hrun, hline⟩ := processCommand_line fuel env locals hstdin
    obtain ⟨input', hrun', hline'⟩ := processCommand_line fuel env locals' hstdin
    rw [hrun, hrun']
    apply runCommand_congr fuel (hline.trans hline'.symm)
    rw [hline]
    exact h

/-- With a thread no `client_tid` is read that has not been assigned. -/
theorem connect_avoids_uninit (fuel : Nat) (hw : word "CONNECT" (inputLine s.stdin) ≠ none)
    (h : ThreadCreated env (inputLine s.stdin)) :
    (processCommand fuel env locals s).Avoids .uninitRead := by
  obtain ⟨w, hw⟩ := Option.ne_none_iff_exists'.mp hw
  obtain ⟨input, hrun, hline, hcommand⟩ :=
    @processCommand_selects s fuel env locals .connect (by simp) (prefix_of_word hw)
  rw [hrun, runCommand_connect hcommand, addressCommand_some (hline ▸ hw)]
  split
  · exact Run.Avoids.error (by simp)
  · rcases onAddress_cases w s.read (connectTo env s.read) with ⟨ip, port, hacc, heq⟩ | ⟨_, _, heq⟩ | ⟨_, heq⟩
    · rcases h with hcreated | hnone
      · rw [heq]
        unfold connectTo
        split
        · exact Run.Avoids.ok _
        · rw [storeStr_ok hacc.fits.ip, Run.ok_bind, if_pos hcreated]
          exact Run.Avoids.ok _
      · exact absurd ⟨ip, port, hacc⟩ (hnone w hw)
    · rw [heq]
      exact Run.Avoids.ok _
    · rw [heq]
      exact Run.Avoids.error (by simp)

end Free

/-! ## Lines without one -/

/-- The array that should receive the argument still holds the text `w`. -/
def Locals.holding (w : Str) (h : w.length < MAX_BUFFER) : Locals :=
  { Locals.fill 1 with ipport := .holding w h }

section Missing

variable {input : Str} {s : Session} {name : String} {use : Str → Int32 → Run (Session × Str)}

/-- The old text is used as if it were the argument. -/
theorem addressCommand_holding {w : Str} (h : w.length < MAX_BUFFER) (hzero : 0 ∉ w)
    (hw : word name (cString input) = none) :
    addressCommand (.holding w h) input s name use = onAddress w s use := by
  obtain ⟨hmem, hstr⟩ := Buffer.holding_cString h
  rw [cString_eq hzero] at hstr
  rw [addressCommand_none hw]
  show withAddress _ s (Buffer.holding w h).chars use = _
  rw [withAddress_text hmem, hstr]

/-- An address that may be left in the array. -/
theorem onAddress_stale : onAddress (bytes "10.0.0.7:22") s use = use (bytes "10.0.0.7") 22 := by
  have hacc : Accepted (bytes "10.0.0.7:22") (bytes "10.0.0.7") (bytes "22") :=
    ⟨by decide, ⟨by decide, by decide⟩, 22, [], by decide⟩
  have hport : Int32.ofInt (leadingNumber (bytes "22")) = 22 := by decide
  rw [onAddress_accepted hacc, hport]

/-- A branch that begins with `addressCommand`, for a line without an argument. -/
theorem processCommand_holding {c : Command} {env : Env} {fuel : Nat}
    {use : Env → Session → Str → Int32 → Run (Session × Str)} (hc : c ≠ .invalid)
    (hbranch : ∀ fuel env locals input s, commandOf (cString input) = c →
      runCommand fuel env locals input s = addressCommand locals input s name (use env s))
    (h : c.shortest <+: inputLine s.stdin) (hw : word name (inputLine s.stdin) = none) (w : Str)
    (hlen : w.length < MAX_BUFFER) (hzero : 0 ∉ w) :
    processCommand fuel env (.holding w hlen) s = onAddress w s.read (use env s.read) := by
  obtain ⟨input, hrun, hline, hcommand⟩ :=
    @processCommand_selects s fuel env (.holding w hlen) c hc h
  rw [hrun, hbranch _ _ _ _ _ hcommand]
  exact addressCommand_holding hlen hzero (hline ▸ hw)

/-- It does one thing if the array is empty, and another one if it holds an address, unless it would
    report a missing argument for that. -/
theorem not_staleFree {c : Command} {stdin : Str} {env : Env}
    {use : Env → Session → Str → Int32 → Run (Session × Str)} (hc : c ≠ .invalid)
    (hbranch : ∀ fuel env locals input s, commandOf (cString input) = c →
      runCommand fuel env locals input s = addressCommand locals input s name (use env s))
    (h : c.shortest <+: inputLine stdin) (hw : word name (inputLine stdin) = none)
    (hne : ∀ s, use env (Session.start stdin).read (bytes "10.0.0.7") 22 ≠ .ok (s, missingAddress)) :
    ¬ StaleFree env stdin := by
  intro hfree
  have hrun := @processCommand_holding (.start stdin) name c env 0 use hc hbranch h hw
  obtain ⟨hsame, _⟩ := hfree 0 (.holding [] (by decide)) (.holding (bytes "10.0.0.7:22") (by decide))
    (.start stdin) rfl
  rw [hrun [] _ List.not_mem_nil, hrun _ _ (by decide), onAddress_stale] at hsame
  exact hne _ hsame.symm

theorem connect_not_staleFree {stdin : Str} {env : Env} (h : bytes "CONNECT" <+: inputLine stdin)
    (hw : word "CONNECT" (inputLine stdin) = none) : ¬ StaleFree env stdin := by
  refine @not_staleFree "CONNECT" .connect stdin env connectTo (by simp) ?_ h hw ?_
  · exact fun _ _ _ _ _ => runCommand_connect
  · intro s hs
    rw [@connectTo_new env (Session.start stdin).read (bytes "10.0.0.7") 22 (by decide) rfl] at hs
    split at hs <;> cases hs

theorem disconnect_not_staleFree {stdin : Str} {env : Env} (h : bytes "DISCONN" <+: inputLine stdin)
    (hw : word "DISCONNECT" (inputLine stdin) = none) : ¬ StaleFree env stdin := by
  refine @not_staleFree "DISCONNECT" .disconnect stdin env (fun _ => disconnectFrom) (by simp) ?_ h hw ?_
  · exact fun _ _ _ _ _ => runCommand_disconnect
  · intro s hs
    cases hs

/-- Without a thread a new address leads to `pthread_detach` of nothing. -/
theorem accepted_not_staleFree {stdin w ip port : Str} {env : Env}
    (hw : word "CONNECT" (inputLine stdin) = some w) (hacc : Accepted w ip port)
    (hcreated : env.created ≠ true) : ¬ StaleFree env stdin := by
  intro hfree
  obtain ⟨_, havoids⟩ := hfree 0 (.fill 0) (.fill 0) (.start stdin) rfl
  refine havoids ((commandOf_eq_iff (by simp)).mpr (prefix_of_word hw)) ?_
  rw [@processCommand_connect w (.start stdin) 0 env (.fill 0) hw ip port hacc,
    connectTo_new hacc.fits.ip rfl, if_neg hcreated]

end Missing

/-- **When a command does not depend on what earlier ones have left on the stack.** In every environment and
    for every input line, any two runs that differ in the old contents of the local variables print the
    same, start the same connections and leave the same lists, and a missing address is reported, if and
    only if a line that begins with `CONNECT` has an argument, one that begins with `DISCONN` begins with
    `DISCONNECT` and has an argument, and a thread can be created if the argument of `CONNECT` is
    accepted. -/
theorem processCommand_stale_iff (env : Env) (stdin : Str) :
    StaleFree env stdin ∧ MissingReported env stdin ↔
      Supplied (inputLine stdin) ∧ ThreadCreated env (inputLine stdin) := by
  constructor
  · rintro ⟨hfree, _⟩
    refine ⟨⟨fun h hw => ?_, fun h hw => ?_⟩, ?_⟩
    · exact connect_not_staleFree h hw hfree
    · exact disconnect_not_staleFree h hw hfree
    · by_cases hcreated : env.created = true
      · exact Or.inl hcreated
      · refine Or.inr fun w hw => ?_
        rintro ⟨ip, port, hacc⟩
        exact accepted_not_staleFree hw hacc hcreated hfree
  · rintro ⟨hsupplied, hthread⟩
    constructor
    · rintro fuel locals locals' s rfl
      refine ⟨processCommand_congr fuel hsupplied, fun hc => ?_⟩
      exact connect_avoids_uninit fuel (hsupplied.connect ((commandOf_eq_iff (by simp)).mp hc)) hthread
    · rintro (⟨hc, hw⟩ | ⟨hc, hw⟩)
      · exact absurd hw (hsupplied.connect ((commandOf_eq_iff (by simp)).mp hc))
      · exact absurd hw (hsupplied.disconnect ((commandOf_eq_iff (by simp)).mp hc))

/-- **`CONNECT` without an argument connects to the previous address**, if the array still holds it. -/
theorem connect_stale_address :
    ∃ s s' : Session, s.stdin = bytes "CONNECT\n" ∧
      processCommand 0 (.plain []) (.holding [] (by decide)) s = .ok (s.read, missingAddress) ∧
      processCommand 0 (.plain []) (.holding (bytes "10.0.0.7:22") (by decide)) s = .ok (s', []) ∧
      s'.net.pending = [⟨bytes "10.0.0.7", 22, none⟩] := by
  let s := Session.start (bytes "CONNECT\n")
  have hw : word "CONNECT" (inputLine s.stdin) = none := by decide
  have hprefix : Command.connect.shortest <+: inputLine s.stdin := by decide
  have hrun := @processCommand_holding s "CONNECT" .connect (.plain []) 0 connectTo (by simp)
    (fun _ _ _ _ _ => runCommand_connect) hprefix hw
  refine ⟨s, { s.read with net := s.net.connect (bytes "10.0.0.7") 22 true }, rfl, ?_, ?_, by decide⟩
  · rw [hrun [] _ List.not_mem_nil]
    rfl
  · rw [hrun _ _ (by decide), onAddress_stale]
    exact connectTo_created (by decide) rfl rfl

end Btide
