import Btide.Command.Owned
import Btide.Command.Tracker

/-!
# `Command.Listing` — the lists that are printed

`print_peer` and `print_package` are one loop: a counter, a text and a newline for each entry
(`printLoop`). The counter is an `int`, which is the only thing that can go wrong; for the packages the
text takes a query of the tree, which returns as long as the tree is in memory (`Owned.printPackage`).
-/

namespace Btide

open LevelOrder

/-! ## A numbered list -/

section PrintLoop

variable {α : Type}

/-- The loop that `print_peer` and `print_package` have in common. -/
def printLoop (text : α → Run Str) (counter : Int) : List α → Run Str
  | [] => .ok []
  | x :: xs => do
    let shown ← text x
    let next ← cInt (counter + 1)
    let lines ← printLoop text next xs
    .ok (counterText counter ++ shown ++ bytes "\n" ++ lines)

theorem linesFrom_cons (counter : Nat) (text : Str) (texts : List Str) :
    linesFrom counter (text :: texts)
      = decimal counter ++ bytes ". " ++ text ++ bytes "\n" ++ linesFrom (counter + 1) texts := by
  rw [linesFrom, List.zipIdx_cons, List.flatMap_cons]
  rfl

theorem counterText_ofNat (counter : Nat) : counterText counter = decimal counter ++ bytes ". " := by
  rw [counterText, decimalInt, if_neg (by omega), Int.natAbs_natCast]

/-- The counter of a list can be counted up after each of its lines. -/
def CounterFits (counter length : Nat) : Prop := length = 0 ∨ (counter + length : Int) ≤ INT_MAX

instance (counter length : Nat) : Decidable (CounterFits counter length) :=
  inferInstanceAs (Decidable (_ ∨ _))

theorem counterFits_succ {counter length : Nat} (h : (counter : Int) + 1 ≤ INT_MAX) :
    CounterFits counter (length + 1) ↔ CounterFits (counter + 1) length := by
  unfold CounterFits
  omega

theorem printLoop_eq {text : α → Run Str} {shown : α → Str} {xs : List α}
    (h : ∀ x ∈ xs, text x = .ok (shown x)) : ∀ counter : Nat, printLoop text counter xs
      = if CounterFits counter xs.length then .ok (linesFrom counter (xs.map shown))
        else .error .intOverflow := by
  induction xs with
  | nil => intro counter; rfl
  | cons x xs ih =>
      intro counter
      rw [printLoop, h x List.mem_cons_self, Run.ok_bind, List.length_cons, List.map_cons,
        linesFrom_cons, counterText_ofNat]
      by_cases hnext : (counter : Int) + 1 ≤ INT_MAX
      · have hint : cInt ((counter : Int) + 1) = .ok ((counter + 1 : Nat) : Int) :=
          cInt_ok (by unfold INT_MIN; omega) hnext
        rw [hint, Run.ok_bind, ih (fun y hy => h y (List.mem_cons_of_mem _ hy)),
          if_congr (counterFits_succ hnext) rfl rfl]
        split
        · rfl
        · rfl
      · have hint : cInt ((counter : Int) + 1) = .error .intOverflow :=
          if_neg fun hboth => hnext hboth.2
        have hnot : ¬ CounterFits counter (xs.length + 1) := by
          unfold CounterFits
          omega
        rw [hint, if_neg hnot]
        rfl

/-- The same if every text is one that a computation settles on. -/
theorem printLoop_settles {text : Nat → α → Run Str} {shown : α → Str} {xs : List α}
    (h : ∀ x ∈ xs, Settles (fun fuel => text fuel x) (.ok (shown x))) (counter : Nat) :
    Settles (fun fuel => printLoop (text fuel) counter xs)
      (if CounterFits counter xs.length then .ok (linesFrom counter (xs.map shown))
        else .error .intOverflow) := by
  have hall : ∃ n, ∀ m, n ≤ m → ∀ x ∈ xs, text m x = .ok (shown x) := by
    induction xs with
    | nil => exact ⟨0, fun m _ x hx => absurd hx List.not_mem_nil⟩
    | cons x xs ih =>
        obtain ⟨n, hn⟩ := h x List.mem_cons_self
        obtain ⟨n', hn'⟩ := ih fun y hy => h y (List.mem_cons_of_mem _ hy)
        refine ⟨max n n', fun m hm y hy => ?_⟩
        rcases List.mem_cons.mp hy with rfl | hy
        · exact hn m (by omega)
        · exact hn' m (by omega) y hy
  obtain ⟨n, hn⟩ := hall
  exact ⟨n, fun m hm => printLoop_eq (hn m hm) counter⟩

/-- Whatever the texts are, the counter has been counted up. -/
theorem printLoop_fits {text : α → Run Str} {xs : List α} {shown : Str} : ∀ {counter : Nat},
    printLoop text counter xs = .ok shown → CounterFits counter xs.length := by
  induction xs generalizing shown with
  | nil => intro counter _; exact Or.inl rfl
  | cons x xs ih =>
      intro counter h
      obtain ⟨_, _, h⟩ := Run.bind_eq_ok.mp h
      obtain ⟨next, hnext, h⟩ := Run.bind_eq_ok.mp h
      obtain ⟨lines, hlines, _⟩ := Run.bind_eq_ok.mp h
      obtain ⟨rfl, _, hle⟩ := cInt_eq_ok.mp hnext
      have hrest : CounterFits (counter + 1) xs.length := ih hlines
      exact (counterFits_succ hle).mpr hrest

theorem printLoop_map {β : Type} (text : β → Run Str) (f : α → β) (xs : List α) : ∀ counter : Int,
    printLoop text counter (xs.map f) = printLoop (fun x => text (f x)) counter xs := by
  induction xs with
  | nil => intro counter; rfl
  | cons x xs ih =>
      intro counter
      simp only [List.map_cons, printLoop, ih]

end PrintLoop

/-! ## The peers -/

theorem printPeers_eq (peers : List PeerInfo) : ∀ counter : Int,
    printPeers counter peers = printLoop (fun peer => .ok peer.text) counter peers := by
  induction peers with
  | nil => intro counter; rfl
  | cons peer peers ih =>
      intro counter
      simp only [printPeers, printLoop, ih, Run.ok_bind, PeerInfo.text, List.append_assoc]

theorem peersCommand_eq (s : Session) :
    peersCommand s = if CounterFits 1 s.net.peerList.length then .ok (s, peersText s.net.peerList)
      else .error .intOverflow := by
  unfold peersCommand peersText
  cases hpeers : s.net.peerList with
  | nil => rfl
  | cons peer peers =>
      have hloop := @printLoop_eq PeerInfo (fun peer => .ok peer.text) PeerInfo.text (peer :: peers)
        (fun _ _ => rfl) 1
      show (printPeer (peer :: peers) >>= fun text => _) = _
      rw [printPeer, printPeers_eq]
      show ((printLoop _ ((1 : Nat) : Int) (peer :: peers) >>= fun lines => _) >>= fun text => _) = _
      rw [hloop, if_neg (List.cons_ne_nil peer peers)]
      split
      · rfl
      · rfl

/-! ## The packages -/

/-- What `print_package` writes after the counter. -/
def packageText (fuel : Nat) (mem : Mem) (obj : BpkgObj) : Run Str := do
  let complete ← isComplete fuel mem obj
  .ok (obj.identifier.take 32 ++ bytes ", " ++ obj.filename ++ bytes " : " ++
    if complete = 1 then bytes "COMPLETED" else bytes "INCOMPLETE")

theorem printPackages_eq (fuel : Nat) (mem : Mem) (list : List BpkgObj) : ∀ counter : Int,
    printPackages fuel mem counter list = printLoop (packageText fuel mem) counter list := by
  induction list with
  | nil => intro counter; rfl
  | cons obj list ih =>
      intro counter
      rw [printPackages, printLoop, packageText]
      cases isComplete fuel mem obj with
      | error e => rfl
      | ok complete => simp only [Run.ok_bind, ih, List.append_assoc]

/-- The package as it is listed. -/
def Holding.listed (p : Holding) : Listed where
  identifier := p.obj.identifier
  filename := p.obj.filename
  complete := decide p.Complete

theorem Holding.packageText_settles {p : Holding} {m : Mem} (h : p.In m) :
    Settles (fun fuel => packageText fuel m p.obj) (.ok p.listed.text) := by
  have hrun := (isComplete_labelled p.obj h p.root p.capacity).map fun complete =>
    p.obj.identifier.take 32 ++ bytes ", " ++ p.obj.filename ++ bytes " : " ++
      if complete = 1 then bytes "COMPLETED" else bytes "INCOMPLETE"
  have htext : p.listed.text = p.obj.identifier.take 32 ++ bytes ", " ++ p.obj.filename ++
      bytes " : " ++ if (if (topmost p.height (Agree p.comp p.exp)).length = 1 then (1 : Int) else 0) = 1
        then bytes "COMPLETED" else bytes "INCOMPLETE" := by
    unfold Listed.text Holding.listed Holding.Complete
    by_cases hone : (topmost p.height (Agree p.comp p.exp)).length = 1
    · simp [hone]
    · simp [hone]
  rw [htext]
  exact hrun

theorem printPackage_fits {fuel : Nat} {m : Mem} {list : List BpkgObj} {text : Str}
    (h : printPackage fuel m list = .ok text) : CounterFits 1 list.length := by
  cases list with
  | nil => exact Or.inl rfl
  | cons obj list =>
      have hloop : printPackages fuel m ((1 : Nat) : Int) (obj :: list) = .ok text := h
      rw [printPackages_eq] at hloop
      exact printLoop_fits hloop

/-- **`print_package`** prints the packages with the status of their trees. -/
theorem Owned.printPackage {s : Managed} {ps : List Holding} (h : Owned s ps) :
    Settles (fun fuel => printPackage fuel s.mem s.list)
      (if CounterFits 1 ps.length then .ok (packagesText (ps.map Holding.listed))
        else .error .intOverflow) := by
  have hloop := printLoop_settles (fun p hp => Holding.packageText_settles (h.lies p hp)) 1
  rw [h.list]
  cases ps with
  | nil => exact Settles.const _
  | cons p ps =>
      have heach : ∀ fuel, Btide.printPackage fuel s.mem ((p :: ps).map Holding.obj)
          = printLoop (fun p => packageText fuel s.mem p.obj) ((1 : Nat) : Int) (p :: ps) := by
        intro fuel
        rw [← printLoop_map (packageText fuel s.mem) Holding.obj, ← printPackages_eq]
        rfl
      have htexts : packagesText ((p :: ps).map Holding.listed)
          = linesFrom 1 ((p :: ps).map fun p => p.listed.text) := by
        rw [packagesText, List.map_cons, if_neg (List.cons_ne_nil _ _), ← List.map_cons, List.map_map]
        rfl
      simp only [heach]
      rw [htexts]
      exact hloop

end Btide
