import Btide.Command.Lifetime
import Btide.Package.Ends

/-!
# `Command.Ends` — every command comes to an end

A command reads strings, walks the lists and the trees, and may load a package. The string functions
need no fuel; the lists are finite and the trees are whole in every state that a session reaches (`Owned`),
and building a tree ends (`buildTree_ends`). So no line makes the program run for ever (`session_ends`).

The locks are left out, and so is the wait of `QUIT` for the server thread; that this one ends is the
subject of `Peer.Shutdown`.
-/

namespace Btide

open Run

/-! ## Addresses -/

section Address

variable (buffers : AddressBuffers) (ipport : Str)

theorem atoi_needsNoFuel (chars : Str) : NeedsNoFuel (atoi chars) := by
  refine (readStr_needsNoFuel chars).bind fun s _ => ?_
  split
  · exact Avoids.ok _
  · next z rest hscan =>
      unfold toInt32
      split
      · exact Avoids.ok _
      · exact Avoids.error (by simp)

theorem validIP_needsNoFuel : NeedsNoFuel (validIP buffers ipport) := by
  refine (strchr_needsNoFuel ipport colon).bind fun found _ => ?_
  cases found with
  | none => exact Avoids.ok _
  | some i =>
      show NeedsNoFuel (ite _ _ _)
      split
      · exact Avoids.ok _
      · refine (index_avoids outOfFuel_structural _ _).bind fun c _ => ?_
        split
        · exact Avoids.ok _
        · refine (buffers.ip.put_needsNoFuel _).bind fun ip _ => ?_
          refine (buffers.portstring.strcpy_needsNoFuel _).bind fun portstring _ => ?_
          refine (strlen_needsNoFuel _).bind fun iplen _ => ?_
          refine (strlen_needsNoFuel _).bind fun portlen _ => ?_
          split
          · exact Avoids.ok _
          · refine (sscanf_needsNoFuel _ _).bind fun vs _ => ?_
            split <;> exact Avoids.ok _

theorem readAddress_needsNoFuel : NeedsNoFuel (readAddress buffers ipport) := by
  refine (strchr_needsNoFuel ipport colon).bind fun found _ => ?_
  cases found with
  | none => exact Avoids.error (by simp)
  | some i =>
      refine (buffers.ip.put_needsNoFuel _).bind fun ip _ => ?_
      refine (buffers.portstring.strcpy_needsNoFuel _).bind fun portstring _ => ?_
      refine (atoi_needsNoFuel _).bind fun port _ => ?_
      exact (readStr_needsNoFuel _).bind fun ip _ => Avoids.ok _

end Address

/-! ## The commands -/

section Commands

variable {env : Env} {locals : Locals} {input : Str} {s : Session} {ps : List Holding}

theorem addressCommand_needsNoFuel {name : String} {use : Str → Int32 → Run (Session × Str)}
    (huse : ∀ ip port, NeedsNoFuel (use ip port)) :
    NeedsNoFuel (addressCommand locals input s name use) := by
  refine (locals.ipport.sscanf_needsNoFuel input _).bind fun r _ => ?_
  refine (validIP_needsNoFuel locals.validIP _).bind fun valid _ => ?_
  split
  · exact Avoids.ok _
  · exact (readAddress_needsNoFuel locals.address _).bind fun a _ => huse a.1 a.2

theorem connectTo_needsNoFuel (ip : Str) (port : Int32) : NeedsNoFuel (connectTo env s ip port) := by
  unfold connectTo
  split
  · exact Avoids.ok _
  · refine (storeStr_needsNoFuel _ _).bind fun _ _ => ?_
    split
    · exact Avoids.ok _
    · exact Avoids.error (by simp)

theorem addLoaded_ends {junk : Junk} {contents : Str} {obj : BpkgObj}
    (hload : bpkgLoad junk (some contents) = .ok obj) (pageSize : Nat) (dir : Str) (m : Managed) :
    Ends fun fuel => addLoaded fuel pageSize dir obj m := by
  refine Ends.after (storeStr_needsNoFuel _ _) fun pathtodata _ => ?_
  refine Ends.after (storeStr_needsNoFuel _ _) fun filename _ => ?_
  exact (buildTree_ends hload pageSize _ m.mem filename).bind fun r _ => (Settles.const _).ends

theorem addPackage_ends (pageSize : Nat) (junk : Junk) (path file : Str) (m : Managed) :
    Ends fun fuel => addPackage fuel pageSize junk path file m := by
  refine Ends.after ?_ fun dir _ => Ends.after (storeStr_needsNoFuel _ _) fun filepath _ => ?_
  · refine (storeStr_needsNoFuel _ _).bind fun dir _ => (storeStr_needsNoFuel _ _).bind fun dir _ => ?_
    show NeedsNoFuel (ite _ _ _)
    split_ifs
    · exact Avoids.error (by simp)
    · exact Avoids.ok _
    · exact Avoids.ok _
    · exact Avoids.ok _
  · cases htext : m.files.text filepath with
    | none => exact (Settles.const _).ends
    | some contents =>
        refine Ends.after (bpkgLoad_needsNoFuel junk _) fun obj hload => ?_
        exact (addLoaded_ends hload pageSize dir m).bind fun m _ => (Settles.const _).ends

theorem addCommand_ends : Ends fun fuel => addCommand fuel env locals input s := by
  refine Ends.after (locals.processedfile.sscanf_needsNoFuel input _) fun r _ => ?_
  refine Ends.ite (fun _ => (Settles.const _).ends) fun _ => ?_
  refine Ends.after ((readStr_needsNoFuel _).bind fun _ _ => Buffer.put_needsNoFuel _ _) fun file _ => ?_
  refine Ends.after (strlen_needsNoFuel _) fun length _ => ?_
  refine Ends.ite (fun _ => (Settles.const _).ends) fun _ => ?_
  refine Ends.after (readStr_needsNoFuel _) fun name _ => ?_
  exact (addPackage_ends _ _ _ _ _).bind fun r _ => (Settles.const _).ends

theorem remCommand_ends (h : Owned s.managed ps) : Ends fun fuel => remCommand fuel locals input s := by
  refine Ends.after (locals.identifier.sscanf_needsNoFuel input _) fun r _ => ?_
  refine Ends.ite (fun _ => (Settles.const _).ends) fun _ => ?_
  refine Ends.after (strlen_needsNoFuel _) fun length _ => ?_
  refine Ends.ite (fun _ => (Settles.const _).ends) fun _ => ?_
  refine Ends.after (readStr_needsNoFuel _) fun identifier _ => ?_
  obtain ⟨mem, hrun, _⟩ := h.removePackage identifier
  exact hrun.ends.bind fun r _ => (Settles.const _).ends

theorem packagesCommand_ends (h : Owned s.managed ps) : Ends fun fuel => packagesCommand fuel s := by
  refine Ends.bind ⟨_, h.printPackage, ?_⟩ fun text _ => (Settles.const _).ends
  split
  · exact Avoids.ok _
  · exact Avoids.error (by simp)

theorem peersCommand_needsNoFuel (s : Session) : NeedsNoFuel (peersCommand s) := by
  rw [peersCommand_eq]
  split
  · exact Avoids.ok _
  · exact Avoids.error (by simp)

/-- **A command comes to an end**, by its branch. -/
theorem runCommand_ends (h : Owned s.managed ps) :
    Ends fun fuel => runCommand fuel env locals input s := by
  unfold runCommand
  cases commandOf (cString input) with
  | quit =>
      obtain ⟨mem, hrun, _⟩ := h.freePackage
      exact hrun.ends.bind fun mem _ => (Settles.const _).ends
  | peers => exact Ends.const (peersCommand_needsNoFuel s)
  | addPackage => exact addCommand_ends
  | packages => exact packagesCommand_ends h
  | remPackage => exact remCommand_ends h
  | connect => exact Ends.const (addressCommand_needsNoFuel connectTo_needsNoFuel)
  | disconnect => exact Ends.const (addressCommand_needsNoFuel fun _ _ => Avoids.ok _)
  | invalid => exact (Settles.const _).ends

end Commands

/-! ## Whole sessions -/

section Sessions

variable {env : Env} {stdin : Str} {s : Session} {es : List SessionEvent}

/-- **No line makes the program run for ever.** In every state that a session reaches, whatever the next
    line, the memory and the files, `process_command` returns or stops the program. For `QUIT` this is about
    what follows `pthread_join`: that the server thread ends is the subject of `Peer.Shutdown`. -/
theorem session_ends (h : Steps (Session.Step env) (.start stdin) es s) (env' : Env) (locals : Locals) :
    Ends fun fuel => processCommand fuel env' locals s := by
  obtain ⟨ps, howned⟩ := session_owned h
  by_cases hstdin : s.stdin = []
  · simp only [processCommand_eof hstdin]
    exact Ends.const (Avoids.error (by simp))
  · obtain ⟨input, heq, _⟩ := processCommand_any env' locals hstdin
    simp only [heq]
    exact @runCommand_ends env' locals input s.read ps howned

theorem session_ends_addAb :
    ∃ s : Session, s.managed.list.length = 1 ∧ inputLine s.stdin = bytes "PACKAGES\n" ∧
      Ends fun fuel => processCommand fuel (.plain (bytes "packages")) (.fill 0) s := by
  obtain ⟨s, hrun, _, hstdin, hone, _⟩ := addAb_run (.fill 0) (bytes "PACKAGES\n")
  refine ⟨s, hone, ?_, session_ends hrun (.plain (bytes "packages")) (.fill 0)⟩
  rw [hstdin]
  decide

end Sessions

end Btide
