import Btide.Package.Add
import Btide.Theory.Chain

/-!
# `Package.Remove` — removing a package (`remove_package` in `package.c`)

The managed packages are a linked list in memory. `add_package` appends to it, which is what
`Package.Add` does to a list of values (`append_holds`).

`REMPACKAGE` takes the beginning of an identifier and removes the first package whose identifier starts
with it. The message for a missing argument announces that at least 20 characters are needed; nothing
checks this, and the argument is converted with no width into a buffer of 1025 bytes.

So the command does what it announces exactly when its argument fits the buffer and is long enough, or
too short but the beginning of no identifier (`remPackage_removes_iff`).
-/

namespace Btide

/-! ## The command -/

/-- The managed packages: the records `struct bpkg_list`, and the pointer to the first one. -/
structure Packages where
  heap : Heap (Node BpkgObj)
  list : Option Nat

/-- The end of `add_package`: a new record behind the last one. -/
def Packages.append (fuel : Nat) (s : Packages) (obj : BpkgObj) : Run Packages := do
  let node := { val := obj, next := none }
  let (heap, list) ← appendRecord (s.heap.alloc node) fuel s.list s.heap.next
  .ok { heap := heap, list := list }

/-- `sizeof(identifier)` in `process_command`. -/
def identifierSize : Nat := 1025

/-- `"REMPACKAGE %s"`. -/
def remFormat : List Directive := lits "REMPACKAGE" ++ [.space, .str none]

def missingIdentifier : Str :=
  bytes "Missing identifier amount, please specify whole 1024 characters or at least 20 characters.\n"

/-- `remove_package`: the packages that remain, and the message it prints. -/
def removePackage (fuel : Nat) (s : Packages) (identifier : Str) : Run (Packages × Str) := do
  let length := identifier.length
  let (heap, list, removed) ←
    removeRecord (fun obj => strncmpEq length obj.identifier identifier) s.heap fuel s.list
  match removed with
  | some _ => .ok ({ heap := heap, list := list }, bytes "Package has been removed\n")
  | none =>
    .ok ({ heap := heap, list := list }, bytes "Identifier provided does not match managed packages\n")

/-- The `REMPACKAGE` branch of `process_command`. -/
def remPackage (fuel : Nat) (input : Str) (s : Packages) : Run (Packages × Str) := do
  match ← sscanf input remFormat with
  | [.str w] => do
    let identifier ← storeStr identifierSize w
    if identifier.length = 0 then .ok (s, missingIdentifier) else removePackage fuel s identifier
  | _ => .ok (s, missingIdentifier)

/-! ## What the command is for -/

/-- The packages in list order. -/
def Packages.Holds (s : Packages) (list : List BpkgObj) : Prop :=
  ∃ L, Chain (links s.heap) s.list L ∧ contents s.heap L = list

/-- The argument on a command line. -/
def argument (input : Str) : Option Str :=
  match sscanf input remFormat with
  | .ok [.str w] => some w
  | _ => none

/-- The first package whose identifier starts with an argument of at least 20 characters is removed. -/
def announced (list : List BpkgObj) : Option Str → List BpkgObj
  | none => list
  | some w => if 20 ≤ w.length then list.eraseP (fun obj => w.isPrefixOf obj.identifier) else list

/-- The command returns, with the list it announces. -/
def RemovesAnnounced (input : Str) (s : Packages) (list : List BpkgObj) : Prop :=
  ∃ s' message, Settles (fun fuel => remPackage fuel input s) (.ok (s', message)) ∧
    s'.Holds (announced list (argument input))

/-! ## What the code does -/

theorem Packages.Holds.unique {s : Packages} {list list' : List BpkgObj} (h : s.Holds list)
    (h' : s.Holds list') : list = list' := by
  obtain ⟨L, hL, rfl⟩ := h
  obtain ⟨M, hM, rfl⟩ := h'
  rw [hL.unique hM]

/-- `add_package` appends to the list. -/
theorem Packages.append_holds {s : Packages} {list : List BpkgObj} (h : s.Holds list) (obj : BpkgObj) :
    ∃ s', Settles (fun fuel => s.append fuel obj) (.ok s') ∧ s'.Holds (appendPackage list obj) := by
  obtain ⟨L, hL, rfl⟩ := h
  obtain ⟨heap, head, M, hrun, hM, hcontents⟩ := appendRecord_contents hL obj
  have hsettles : Settles (fun fuel => s.append fuel obj) (.ok { heap := heap, list := head }) :=
    Settles.bind ⟨_, hrun⟩ (Settles.const _)
  refine ⟨_, hsettles, M, hM, ?_⟩
  rw [appendPackage_eq]
  exact hcontents

/-- `remove_package` prints whether there is a match. -/
def removedMessage (list : List BpkgObj) (identifier : Str) : Str :=
  if list.any fun obj => identifier.isPrefixOf obj.identifier then bytes "Package has been removed\n"
  else bytes "Identifier provided does not match managed packages\n"

/-- **`remove_package` removes the first match**, whatever the length of the argument. -/
theorem removePackage_erases {s : Packages} {list : List BpkgObj} (h : s.Holds list)
    (identifier : Str) :
    ∃ s', Settles (fun fuel => removePackage fuel s identifier)
        (.ok (s', removedMessage list identifier)) ∧
      s'.Holds (list.eraseP fun obj => identifier.isPrefixOf obj.identifier) := by
  obtain ⟨L, hL, rfl⟩ := h
  obtain ⟨heap, head, removed, M, hrun, hM, hcontents, hsome⟩ :=
    removeRecord_contents hL fun obj => identifier.isPrefixOf obj.identifier
  unfold removePackage removedMessage
  simp only [strncmpEq_isPrefixOf]
  rw [← hsome]
  cases removed with
  | none => exact ⟨_, hrun.bind (Settles.const _), M, hM, hcontents⟩
  | some a => exact ⟨_, hrun.bind (Settles.const _), M, hM, hcontents⟩

theorem sscanf_argument (input : Str) :
    (argument input = none ∧ ∃ vs, sscanf input remFormat = .ok vs ∧ ∀ w, vs ≠ [.str w]) ∨
      ∃ w, argument input = some w ∧ sscanf input remFormat = .ok [.str w] := by
  obtain ⟨vs, hscan⟩ : ∃ vs, sscanf input remFormat = .ok vs :=
    scan_total (by simp [remFormat, lits]) (cString input)
  unfold argument
  rw [hscan]
  split
  · next w hw =>
      cases hw
      exact Or.inr ⟨w, rfl, rfl⟩
  · next hother => exact Or.inl ⟨rfl, vs, rfl, fun w hw => hother w (by rw [hw])⟩

/-- A command line without an argument changes nothing. -/
theorem remPackage_missing {s : Packages} {input : Str} (h : argument input = none) :
    Settles (fun fuel => remPackage fuel input s) (.ok (s, missingIdentifier)) := by
  rcases sscanf_argument input with ⟨_, vs, hscan, hother⟩ | ⟨w, hw, _⟩
  · unfold remPackage
    simp only [hscan, Run.ok_bind]
    exact Settles.const _
  · rw [h] at hw
    cases hw

/-- An argument is the beginning to look for, if it fits the buffer. -/
theorem remPackage_eq {input w : Str} (s : Packages) (h : argument input = some w) (fuel : Nat) :
    remPackage fuel input s
      = if w.length < identifierSize then removePackage fuel s w else .error .bufferOverflow := by
  rcases sscanf_argument input with ⟨hnone, _⟩ | ⟨w', hw', hscan⟩
  · rw [h] at hnone
    cases hnone
  · rw [h] at hw'
    cases hw'
    -- the conversion gives no empty string
    have hpos : w.length ≠ 0 := by
      rw [Ne, List.length_eq_zero_iff]
      exact (mem_scan hscan List.mem_cons_self).1
    unfold remPackage storeStr
    rw [hscan, Run.ok_bind]
    by_cases hfit : w.length < identifierSize
    · simp only [if_pos hfit, Run.ok_bind, if_neg hpos]
    · simp only [if_neg hfit, Run.error_bind]

/-- What the code removes is what is announced, if the argument is long enough or matches nothing. -/
theorem eraseP_eq_announced {list : List BpkgObj} {w : Str} :
    (list.eraseP fun obj => w.isPrefixOf obj.identifier) = announced list (some w) ↔
      20 ≤ w.length ∨ ∀ obj ∈ list, ¬ w <+: obj.identifier := by
  show _ = (if 20 ≤ w.length then list.eraseP fun obj => w.isPrefixOf obj.identifier else list) ↔ _
  by_cases hlong : 20 ≤ w.length
  · rw [if_pos hlong]
    exact iff_of_true rfl (Or.inl hlong)
  · rw [if_neg hlong, List.eraseP_eq_self_iff]
    simp only [hlong, false_or, List.isPrefixOf_iff_prefix]

/-- **When `REMPACKAGE` does what it announces.** For every list of packages and every command line, the
    first package whose identifier starts with an argument of at least 20 characters is removed, and
    nothing otherwise, if and only if the argument fits its buffer and is long enough or the beginning of
    no identifier. -/
theorem remPackage_removes_iff {s : Packages} {list : List BpkgObj} (h : s.Holds list) (input : Str) :
    RemovesAnnounced input s list ↔
      ∀ w, argument input = some w →
        w.length < identifierSize ∧ (20 ≤ w.length ∨ ∀ obj ∈ list, ¬ w <+: obj.identifier) := by
  cases harg : argument input with
  | none =>
      constructor
      · intro _ w hw
        cases hw
      · intro _
        refine ⟨s, _, remPackage_missing harg, ?_⟩
        rw [harg]
        exact h
  | some w =>
      by_cases hfit : w.length < identifierSize
      · obtain ⟨s', hrun, hs'⟩ := removePackage_erases h w
        have hrem : Settles (fun fuel => remPackage fuel input s) (.ok (s', removedMessage list w)) := by
          simp only [remPackage_eq s harg, if_pos hfit]
          exact hrun
        constructor
        · rintro ⟨t, message', hrun', ht⟩ w' hw'
          cases hw'
          cases hrem.unique hrun'
          rw [harg] at ht
          exact ⟨hfit, eraseP_eq_announced.mp (hs'.unique ht)⟩
        · intro hcond
          refine ⟨s', _, hrem, ?_⟩
          rw [harg, ← eraseP_eq_announced.mpr (hcond w rfl).2]
          exact hs'
      · constructor
        · rintro ⟨t, message', hrun', _⟩
          have hover : Settles (fun fuel => remPackage fuel input s) (.error .bufferOverflow) := by
            simp only [remPackage_eq s harg, if_neg hfit]
            exact Settles.const _
          cases hover.unique hrun'
        · intro hcond
          exact absurd (hcond w rfl).1 hfit

/-! ## A short argument -/

/-- One managed package. -/
def Packages.single (obj : BpkgObj) : Packages where
  heap := Heap.empty.alloc { val := obj, next := none }
  list := some 0

theorem Packages.single_holds (obj : BpkgObj) : (Packages.single obj).Holds [obj] := by
  refine ⟨[0], ⟨rfl, none, rfl, rfl⟩, rfl⟩

/-- **One character removes the package.** -/
theorem remPackage_short :
    ∃ obj : BpkgObj, obj.identifier = bytes "ab" ∧ (Packages.single obj).Holds [obj] ∧
      (∃ s' message,
        Settles (fun fuel => remPackage fuel (bytes "REMPACKAGE a\n") (Packages.single obj))
          (.ok (s', message)) ∧ s'.Holds []) ∧
      ¬ RemovesAnnounced (bytes "REMPACKAGE a\n") (Packages.single obj) [obj] := by
  let obj := (Package.uniform 0 (by decide)).obj
  have harg : argument (bytes "REMPACKAGE a\n") = some (bytes "a") := by decide
  obtain ⟨s', hrun, hs'⟩ := removePackage_erases (Packages.single_holds obj) (bytes "a")
  have hrem : Settles (fun fuel => remPackage fuel (bytes "REMPACKAGE a\n") (Packages.single obj))
      (.ok (s', removedMessage [obj] (bytes "a"))) := by
    simp only [remPackage_eq _ harg]
    exact hrun
  have hempty : s'.Holds [] := hs'
  refine ⟨obj, rfl, Packages.single_holds obj, ⟨s', _, hrem, hempty⟩, ?_⟩
  rintro ⟨t, message', hrun', ht⟩
  cases hrem.unique hrun'
  rw [harg] at ht
  have hlist : ([] : List BpkgObj) = [obj] := hempty.unique ht
  cases hlist

/-- An argument of 32 characters that no identifier starts with. -/
theorem remPackage_removes_iff_single :
    RemovesAnnounced (bytes "REMPACKAGE 0123456789abcdef0123456789abcdef\n")
      (Packages.single (Package.uniform 0 (by decide)).obj) [(Package.uniform 0 (by decide)).obj] := by
  refine (remPackage_removes_iff (Packages.single_holds _) _).mpr fun w hw => ?_
  have harg : argument (bytes "REMPACKAGE 0123456789abcdef0123456789abcdef\n")
      = some (bytes "0123456789abcdef0123456789abcdef") := by decide
  rw [harg] at hw
  cases hw
  exact ⟨by decide, Or.inl (by decide)⟩

end Btide
