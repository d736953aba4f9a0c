import Btide.Command.Process

/-!
# `Command.Contained` — which file `ADDPACKAGE` opens

The command opens one file, the configured directory followed by the name that `extract_file` has made of
the argument (`processCommand_opens`). That name never contains a slash. But the filter also drops
characters between dots, so what is left may be `.` or `..`; this happens exactly if no letter and no
digit, and one or two plain dots are left (`extractFile_contained_iff`).

Nor is the name the one that was asked for, unless the argument has no characters but letters, digits and
dots and does not begin with a dot (`addCommand_bareName`).
-/

namespace Btide

/-! ## The file that is opened -/

def Managed.withText (s : Managed) (text : Str → Option Str) : Managed :=
  { s with files := { s.files with text := text } }

/-- The same state with other package files. -/
def Session.withText (s : Session) (text : Str → Option Str) : Session :=
  { s with managed := s.managed.withText text }

/-- Of the package files the command reads the one at `path` at most: with other files elsewhere it does
    the same. -/
def OpensOnly (fuel : Nat) (env : Env) (locals : Locals) (s : Session) (path : Str) : Prop :=
  ∀ text, text path = s.managed.files.text path →
    processCommand fuel env locals (s.withText text)
      = (processCommand fuel env locals s >>= fun r => .ok (r.1.withText text, r.2))

section Opens

variable {fuel pageSize : Nat} {junk : Junk} {dir path file : Str} {obj : BpkgObj} {m : Managed}
  {text : Str → Option Str}

theorem addLoaded_withText : addLoaded fuel pageSize dir obj (m.withText text)
    = (addLoaded fuel pageSize dir obj m >>= fun m => .ok (m.withText text)) := by
  unfold addLoaded
  cases storeStr MAX_BUFFER (dir ++ obj.filename) with
  | error e => rfl
  | ok pathtodata =>
      simp only [Run.ok_bind]
      cases storeStr (MAX_FILENAME + 1) pathtodata with
      | error e => rfl
      | ok filename =>
          simp only [Run.ok_bind]
          let obj' : BpkgObj := { obj with filename := filename }
          show (buildTree fuel m.mem obj' (calculateHash pageSize
            (makeFile obj' (m.files.data filename)) obj') >>= _) = _
          cases buildTree fuel m.mem obj' (calculateHash pageSize
            (makeFile obj' (m.files.data filename)) obj') with
          | error e => rfl
          | ok r => rfl

/-- `add_package` opens the file under the directory and nothing else. -/
theorem addPackage_withText (h : text (directory path ++ file) = m.files.text (directory path ++ file)) :
    addPackage fuel pageSize junk path file (m.withText text)
      = (addPackage fuel pageSize junk path file m >>= fun r => .ok (r.1.withText text, r.2)) := by
  unfold addPackage
  cases hdir : directoryOf path with
  | error e => rfl
  | ok dir =>
      obtain ⟨_, _, rfl⟩ := directoryOf_eq_ok.mp hdir
      simp only [Run.ok_bind]
      cases hpath : storeStr MAX_BUFFER (directory path ++ file) with
      | error e => rfl
      | ok filepath =>
          obtain ⟨rfl, _⟩ := storeStr_eq_ok hpath
          simp only [Run.ok_bind]
          have htext : (m.withText text).files.text (directory path ++ file)
              = m.files.text (directory path ++ file) := h
          rw [htext]
          cases m.files.text (directory path ++ file) with
          | none => rfl
          | some contents =>
              simp only
              cases bpkgLoad junk (some contents) with
              | error e => rfl
              | ok obj =>
                  simp only [Run.ok_bind, addLoaded_withText]
                  cases addLoaded fuel pageSize (directory path) obj m with
                  | error e => rfl
                  | ok m' => rfl

end Opens

section Add

variable {fuel : Nat} {env : Env} {locals : Locals} {s : Session} {w : Str}

/-- `ADDPACKAGE` with an argument that fits. -/
theorem processCommand_add (fuel : Nat) (env : Env) (locals : Locals)
    (hw : word "ADDPACKAGE" (inputLine s.stdin) = some w) (hfit : w.length < MAX_BUFFER) :
    processCommand fuel env locals s
      = if kept none w = [] then .ok (s.read, missingFile)
        else addPackage fuel env.pageSize env.junk env.directory (kept none w) s.managed >>= fun r =>
          .ok ({ s.read with managed := r.1 }, r.2.getD []) := by
  obtain ⟨input, hrun, hline, hcommand⟩ :=
    @processCommand_selects s fuel env locals .addPackage (by simp) (prefix_of_word hw)
  rw [← hline] at hw
  rw [hrun]
  unfold runCommand
  simp only [hcommand]
  rw [addCommand_some hw, if_neg (by omega)]
  rfl

/-- It opens the file with the name that is left, in the configured directory. -/
theorem processCommand_opens (hw : word "ADDPACKAGE" (inputLine s.stdin) = some w)
    (hfit : w.length < MAX_BUFFER) :
    OpensOnly fuel env locals s (directory env.directory ++ kept none w) := by
  intro text htext
  have hw' : word "ADDPACKAGE" (inputLine (s.withText text).stdin) = some w := hw
  rw [processCommand_add fuel env locals hw hfit, processCommand_add fuel env locals hw' hfit]
  split
  · rfl
  · show (addPackage fuel env.pageSize env.junk env.directory _ (s.managed.withText text) >>= _) = _
    rw [addPackage_withText htext]
    cases addPackage fuel env.pageSize env.junk env.directory (kept none w) s.managed with
    | error e => rfl
    | ok r => rfl

end Add

/-! ## Containment -/

/-- One component of a path, and neither `.` nor `..`. -/
structure IsComponent (name : Str) : Prop where
  nonempty : name ≠ []
  slash_notMem : slash ∉ name
  ne_dot : name ≠ [dot]
  ne_dotdot : name ≠ [dot, dot]

/-- The argument has no letter and no digit, and one or two plain dots. -/
def DotsOnly (arg : Str) : Prop :=
  arg.filter isAlnum = [] ∧ (plainDots none arg = 1 ∨ plainDots none arg = 2)

instance (arg : Str) : Decidable (DotsOnly arg) := by
  unfold DotsOnly
  infer_instance

/-- What is left is `.` or `..` exactly if no letter or digit and one or two dots are left. -/
theorem kept_component_iff {arg : Str} :
    (kept none arg = [] ∨ IsComponent (kept none arg)) ↔ ¬ DotsOnly arg := by
  constructor
  · rintro h ⟨hal, hdots⟩
    rw [kept_eq_replicate hal] at h
    rcases hdots with hone | htwo
    · rw [hone] at h
      rcases h with h | h
      · cases h
      · exact h.ne_dot rfl
    · rw [htwo] at h
      rcases h with h | h
      · cases h
      · exact h.ne_dotdot rfl
  · intro h
    -- a name of dots only has no letter or digit, and as many plain dots as characters
    have hname : ∀ n, kept none arg = List.replicate n dot → arg.filter isAlnum = [] ∧
        plainDots none arg = n := by
      intro n hn
      constructor
      · rw [← filter_isAlnum_kept none arg, hn, List.filter_eq_nil_iff]
        intro c hc
        rw [List.eq_of_mem_replicate hc]
        decide
      · rw [← count_dot_kept, hn, List.count_replicate_self]
    by_cases hnil : kept none arg = []
    · exact Or.inl hnil
    · refine Or.inr ⟨hnil, slash_notMem_kept, fun hdot => ?_, fun hdots => ?_⟩
      · obtain ⟨hal, hone⟩ := hname 1 hdot
        exact h ⟨hal, Or.inl hone⟩
      · obtain ⟨hal, htwo⟩ := hname 2 hdots
        exact h ⟨hal, Or.inr htwo⟩

/-- **When `ADDPACKAGE` stays in the configured directory.** For every argument, the name that
    `extract_file` leaves is empty or one ordinary component of a path if and only if the argument does
    not consist of one or two plain dots and characters that are dropped. The command refuses an empty
    name, and for any other it opens the file with that name in the directory, and no other. -/
theorem extractFile_contained_iff {processedfile : Str} {file b : Buffer MAX_BUFFER}
    (h : extractFile processedfile file = .ok b) :
    ((cString b.chars = [] ∨ IsComponent (cString b.chars)) ↔ ¬ DotsOnly (cString processedfile)) ∧
    ∀ fuel env locals s,
      word "ADDPACKAGE" (inputLine s.stdin) = some (cString processedfile) →
      (cString processedfile).length < MAX_BUFFER →
        (cString b.chars = [] → processCommand fuel env locals s = .ok (s.read, missingFile)) ∧
        OpensOnly fuel env locals s (directory env.directory ++ cString b.chars) := by
  obtain ⟨arg, harg, hput⟩ := Run.bind_eq_ok.mp h
  unfold readStr at harg
  split at harg
  · cases harg
    obtain ⟨_, hname⟩ := Buffer.put_cString hput
    rw [extractChars_eq_kept, cString_eq zero_notMem_kept] at hname
    rw [hname]
    refine ⟨kept_component_iff, fun fuel env locals s hw hfit => ⟨fun hnil => ?_, ?_⟩⟩
    · rw [processCommand_add fuel env locals hw hfit, if_pos hnil]
    · exact processCommand_opens hw hfit
  · cases harg

/-- An ordinary name. -/
theorem extractFile_contained_iff_plain : ∃ b, extractFile (bytes "./a.bpkg" ++ [0]) (.fill _ 1) = .ok b ∧
    cString b.chars = bytes "a.bpkg" ∧
    ((cString b.chars = [] ∨ IsComponent (cString b.chars)) ↔ ¬ DotsOnly (bytes "./a.bpkg")) := by
  obtain ⟨b, hb, _, hstr⟩ :=
    @Buffer.put_ok _ (extractChars none (bytes "./a.bpkg")) (.fill MAX_BUFFER 1) (by decide)
  have hextract : extractFile (bytes "./a.bpkg" ++ [0]) (.fill _ 1) = .ok b := hb
  exact ⟨b, hextract, hstr, (extractFile_contained_iff hextract).1⟩

/-- **Two dots are left of `-..`**, so the command opens the parent directory. -/
theorem extractFile_escapes : ∃ b, extractFile (bytes "-.." ++ [0]) (.fill _ 1) = .ok b ∧
    cString b.chars = [dot, dot] ∧ ¬ (cString b.chars = [] ∨ IsComponent (cString b.chars)) ∧
    ∀ fuel env locals s, s.stdin = bytes "ADDPACKAGE -..\n" →
      processCommand fuel env locals s
        = (addPackage fuel env.pageSize env.junk env.directory [dot, dot] s.managed >>= fun r =>
          .ok ({ s.read with managed := r.1 }, r.2.getD [])) := by
  obtain ⟨b, hb, _, hstr⟩ :=
    @Buffer.put_ok _ (extractChars none (bytes "-..")) (.fill MAX_BUFFER 1) (by decide)
  have hname : cString b.chars = [dot, dot] := hstr
  refine ⟨b, hb, hname, ?_, ?_⟩
  · rw [hname]
    rintro (h | h)
    · cases h
    · exact h.ne_dotdot rfl
  · intro fuel env locals s hs
    have hw : word "ADDPACKAGE" (inputLine s.stdin) = some (bytes "-..") := by
      rw [hs]
      decide
    have hkept : kept none (bytes "-..") = [dot, dot] := by decide
    rw [processCommand_add fuel env locals hw (by decide), hkept]
    rfl

/-! ## Substitution -/

/-- **Which file is opened for a name.** For every argument that consists of any number of `./` and a name
    without a slash, the command opens the file whose name is left when a leading dot and everything but
    letters, digits and dots is deleted, or reports that nothing is left. That is the file with the given
    name exactly if there is nothing to delete. -/
theorem addCommand_bareName {stdin name : Str} {m : Nat} (hname : slash ∉ name)
    (hw : word "ADDPACKAGE" (inputLine stdin)
      = some ((List.replicate m [dot, slash]).flatten ++ name))
    (hfit : ((List.replicate m [dot, slash]).flatten ++ name).length < MAX_BUFFER) :
    (∀ fuel env locals s, s.stdin = stdin →
      OpensOnly fuel env locals s (directory env.directory ++ bareName name) ∧
      processCommand fuel env locals s
        = if bareName name = [] then .ok (s.read, missingFile)
          else addPackage fuel env.pageSize env.junk env.directory (bareName name) s.managed >>= fun r =>
            .ok ({ s.read with managed := r.1 }, r.2.getD [])) ∧
    (bareName name = name ↔ name.head? ≠ some dot ∧ ∀ c ∈ name, isAlnum c = true ∨ c = dot) := by
  refine ⟨?_, bareName_eq_self⟩
  rintro fuel env locals s rfl
  rw [← kept_relative m hname]
  exact ⟨processCommand_opens hw hfit, processCommand_add fuel env locals hw hfit⟩

/-- A directory with one package file, named `ab`. -/
def directoryWithAb (stdin : Str) : Session :=
  { Session.start stdin with
    managed :=
      { mem := Mem.empty
        files :=
          { text := fun path =>
              if path = bytes "packages/ab" then some (Package.uniform 1 (by decide)).write else none
            data := fun _ => .absent true true }
        list := [] } }

/-- A name of letters, digits and dots. -/
theorem addCommand_bareName_plain :
    OpensOnly 0 (.plain (bytes "packages")) (.fill 0)
      (directoryWithAb (bytes "ADDPACKAGE ././a.bpkg\n")) (directory (bytes "packages") ++ bytes "a.bpkg") ∧
    (bareName (bytes "a.bpkg") = bytes "a.bpkg" ↔ (bytes "a.bpkg").head? ≠ some dot ∧
      ∀ c ∈ bytes "a.bpkg", isAlnum c = true ∨ c = dot) := by
  obtain ⟨hopens, hself⟩ := @addCommand_bareName (bytes "ADDPACKAGE ././a.bpkg\n") (bytes "a.bpkg") 2
    (by decide) (by decide) (by decide)
  exact ⟨(hopens 0 (.plain (bytes "packages")) (.fill 0) (directoryWithAb _) rfl).1, hself⟩

/-- **Another file is loaded**: `a-b` is asked for and does not exist, and `ab` is added without any
    message. -/
theorem addCommand_substitutes :
    ∃ s : Session, s.stdin = bytes "ADDPACKAGE a-b\n" ∧
      s.managed.files.text (bytes "packages/a-b") = none ∧ s.managed.list = [] ∧
      ∀ locals, ∃ s' obj, Settles (fun fuel => processCommand fuel (.plain (bytes "packages")) locals s)
        (.ok (s', [])) ∧ s'.managed.list = [obj] := by
  let s := directoryWithAb (bytes "ADDPACKAGE a-b\n")
  refine ⟨s, rfl, rfl, rfl, fun locals => ?_⟩
  have hfits : PathsFit (bytes "packages") (bytes "ab") := ⟨by decide, by decide, by decide⟩
  have hpath : directory (bytes "packages") ++ bytes "ab" = bytes "packages/ab" := by decide
  have htext : s.managed.files.text (directory (bytes "packages") ++ bytes "ab")
      = some (Package.uniform 1 (by decide)).write := by
    rw [hpath]
    simp [s, directoryWithAb]
  have hadd : Addable 4096 default (bytes "packages") s.managed
      (Package.uniform 1 (by decide)).write := by
    refine ⟨_, _, List.replicate 8 0, Package.uniform_load default 1 (by decide), rfl, by decide,
      by decide, .created (by decide) rfl, ?_⟩
    intro c hc
    rw [List.eq_of_mem_replicate hc]
    have hlen : 8 ≤ (mapping 4096 (List.replicate 8 0)).length :=
      length_le_mapping 4096 (List.replicate 8 0)
    exact Or.inr ⟨by decide, Int.ofNat_le.mpr hlen, by decide⟩
  obtain ⟨m, obj, root, hrun, _, _, hlist⟩ := addPackage_loads hfits htext hadd
  refine ⟨{ s.read with managed := m }, _, ?_, hlist⟩
  have hw : word "ADDPACKAGE" (inputLine s.stdin) = some (bytes "a-b") := by decide
  have hkept : kept none (bytes "a-b") = bytes "ab" := by decide
  have hne : bytes "ab" ≠ [] := by decide
  simp only [fun fuel => processCommand_add fuel (.plain (bytes "packages")) locals hw (by decide), hkept,
    if_neg hne]
  exact hrun.map fun r => (({ s.read with managed := r.1 } : Session), r.2.getD [])

end Btide
