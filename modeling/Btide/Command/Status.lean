import Btide.Chk.Original
import Btide.Command.Lifetime
import Btide.Theory.Missing

/-!
# `Command.Status` — what `COMPLETED` says

`PACKAGES` calls a package completed if `bpkg_get_min_completed_hashes` returned a single hash when the
package was added. For a package made from some data this says that the chunks in which the data file had
the original bytes were those below one node of the tree (`added_status`). All the chunks are those below
the root; but a half of them are those below its child, and every single chunk is below its own leaf.
Bytes behind the end of the file count as zeros, up to the end of its last page.
-/

namespace Btide

open LevelOrder

/-! ## The status of a package -/

/-- The status of a package made from `orig`, in terms of the bytes. -/
theorem Describes.completeAt_iff {pageSize k : Nat} {hs : List Str} {cs : List ChunkInfo}
    {orig data : Str} (h : Describes k hs cs orig) (hinj : NoCollision pageSize k hs cs orig data) :
    completeAt pageSize hs cs data = true ↔ ∃ v, IsNode k v ∧ ∀ n, IsLeaf k n →
      (block k cs (mapping pageSize data) n = block k cs orig n ↔ Above v n) := by
  have hsame := topmost_congr fun n hn => h.agree_iff hinj hn
  rw [completeAt, decide_eq_true_iff, h.log_eq, hsame, intact_hereditary.topmost_length_eq_one_iff]
  constructor
  · rintro ⟨v, hv, hleaves⟩
    exact ⟨v, hv, fun n hn => (intact_leaf hn).symm.trans (hleaves n hn)⟩
  · rintro ⟨v, hv, hleaves⟩
    exact ⟨v, hv, fun n hn => (intact_leaf hn).trans (hleaves n hn)⟩

/-- An `ADDPACKAGE` that prints nothing appends the package whose file it reads. -/
theorem Tracker.Does.adds {env : Env} {line out : Str} {t t' : Tracker} (h : t.Does env line t' out)
    (hout : out = []) (hc : commandOf line = .addPackage) :
    ∃ w contents entry files, word "ADDPACKAGE" line = some w ∧
      t.files.text (directory env.directory ++ kept none w) = some contents ∧
      Adds env.pageSize env.junk (directory env.directory) contents t.files entry files ∧
      t'.packages = t.packages ++ [entry] := by
  have hother : ∀ c, commandOf line = c → c ≠ .addPackage → False := by
    rintro c rfl hne
    exact hne hc
  cases h with
  | missingFile _ _ => exact absurd hout (by decide)
  | unreadable _ _ _ => exact absurd hout (by decide)
  | added hword _ htext hadds => exact ⟨_, _, _, _, hword, htext, hadds, rfl⟩
  | remove hword =>
      have hrem := @commandOf_eq_iff line .remPackage (by simp)
      exact (hother _ (hrem.mpr (prefix_of_word hword)) (by simp)).elim
  | quit hq => exact (hother _ hq (by simp)).elim
  | peers hq => exact (hother _ hq (by simp)).elim
  | packages hq => exact (hother _ hq (by simp)).elim
  | missingIdentifier hq _ => exact (hother _ hq (by simp)).elim
  | connect hq _ => exact (hother _ hq (by simp)).elim
  | disconnect hq _ => exact (hother _ hq (by simp)).elim
  | missingAddress hq =>
      rcases hq with ⟨hq, _⟩ | ⟨hq, _⟩
      · exact (hother _ hq (by simp)).elim
      · exact (hother _ hq (by simp)).elim
  | invalid hq => exact (hother _ hq (by simp)).elim

/-! ## Sessions -/

section Sessions

variable {env : Env} {stdin w contents : Str} {s s₁ : Session} {es : List SessionEvent} {locals : Locals}
  {junk : Junk} {created : Bool} {obj : BpkgObj} {k : Nat} {hs : List Str} {cs : List ChunkInfo}
  {orig : Str}

/-- **What the status says.** After an `ADDPACKAGE` that prints nothing, for a package made from `orig`,
    the list ends in a line for this package, which says `COMPLETED` just if the chunks with the original
    bytes in the mapping of the data file are those below one node. -/
theorem added_status (h : Steps (Session.Step env) (.start stdin) es s)
    (hw : word "ADDPACKAGE" (inputLine s.stdin) = some w)
    (hadd : s.Step env (.command locals junk created []) s₁)
    (htext : s.managed.files.text (directory env.directory ++ kept none w) = some contents)
    (hload : bpkgLoad junk (some contents) = .ok obj) (hlists : obj.Lists hs cs)
    (hdesc : Describes k hs cs orig) :
    ∃ data, (s.managed.files.data (directory env.directory ++ obj.filename)).Holds obj.size data ∧
      (NoCollision env.pageSize k hs cs orig data →
        ∃ entries complete, entries.length = s.managed.list.length ∧
          (∀ text, s.Lists text ↔
            CounterFits 1 entries.length ∧ text = packagesText entries) ∧
          (∀ text, s₁.Lists text ↔ CounterFits 1 (entries.length + 1) ∧ text = packagesText
            (entries ++ [⟨obj.identifier, directory env.directory ++ obj.filename, complete⟩])) ∧
          (complete = true ↔ ∃ v, IsNode k v ∧ ∀ n, IsLeaf k n →
            (block k cs (mapping env.pageSize data) n = block k cs orig n ↔ Above v n))) := by
  obtain ⟨ps, howned⟩ := session_owned h
  have hshows : Shows s (s.view ps) := ⟨ps, howned, rfl⟩
  obtain ⟨_, ⟨_, _, hdoes⟩, qs, howned₁, rfl⟩ := hshows.step hadd
  have hcommand := (@commandOf_eq_iff (inputLine s.stdin) .addPackage (by simp)).mpr (prefix_of_word hw)
  obtain ⟨w', contents', entry, files, hw', htext', hadds, hpackages⟩ := hdoes.adds rfl hcommand
  obtain rfl : w = w' := Option.some.inj (hw.symm.trans hw')
  obtain rfl : contents = contents' := Option.some.inj (htext.symm.trans htext')
  cases hadds with
  | @intro obj' hs' cs' data hload' hlists' hholds =>
      obtain rfl : obj = obj' := Except.ok.inj (hload.symm.trans hload')
      obtain rfl : hs = hs' := Option.some.inj (hlists.hashes.symm.trans hlists'.hashes)
      obtain rfl : cs = cs' := Option.some.inj (hlists.chunks.symm.trans hlists'.chunks)
      refine ⟨data, hholds, fun hinj => ⟨ps.map Holding.listed, completeAt env.pageSize hs cs data,
        ?_, fun text => ?_, fun text => ?_, hdesc.completeAt_iff hinj⟩⟩
      · rw [howned.list, List.length_map, List.length_map]
      · rw [howned.lists_iff, List.length_map]
      · have hlisted : qs.map Holding.listed = ps.map Holding.listed
            ++ [⟨obj.identifier, directory env.directory ++ obj.filename,
              completeAt env.pageSize hs cs data⟩] := hpackages
        have hlen : qs.length = ps.length + 1 := by
          simpa using congrArg List.length hlisted
        rw [howned₁.lists_iff, hlisted, hlen, List.length_map]

end Sessions

theorem twoBytes_addable :
    Addable 4096 default (bytes "packages")
      { mem := .empty, files := twoBytesFiles (bytes "ac"), list := [] } Package.twoBytes.write :=
  ⟨_, _, _, twoBytes_load default, rfl, by decide, by decide, .present (by decide),
    (twoBytes_answerable .getRoot).hashable⟩

/-- The data file holds the first byte of two. It is the chunk below its own leaf, and the package is
    called completed. -/
theorem added_status_twoBytes :
    ∃ s s₁ : Session,
      s.Step (.plain (bytes "packages")) (.command (.fill 0) default true []) s₁ ∧
      s₁.Lists (bytes "1. 2b, packages/two : COMPLETED\n") := by
  obtain ⟨s, s₁, hrun, hstdin, hfiles, hadd, _⟩ := add_run rfl twoBytes_addable (.fill 0) []
  have hlist : s.managed.list = [] := by
    rw [Steps.single_iff.mp hrun]
    rfl
  have hw : word "ADDPACKAGE" (inputLine s.stdin) = some (bytes "ab") := by
    rw [(read_addAb hstdin).1]
    decide
  obtain ⟨data, hholds, hstatus⟩ := added_status (k := 1) hrun hw hadd (by rw [hfiles]; rfl)
    (twoBytes_load default) (twoBytes_answerable .getRoot).lists twoBytes_describes
  rw [hfiles] at hholds
  cases hholds with
  | present _ =>
      obtain ⟨entries, complete, hlen, _, hlists, hcomplete⟩ := hstatus twoBytes_noCollision
      rw [hlist] at hlen
      obtain rfl := List.length_eq_zero_iff.mp hlen
      have hhalf : complete = true := by
        refine hcomplete.mpr ⟨2, by decide, fun n hn => ?_⟩
        rcases isLeaf_one hn with rfl | rfl
        · exact iff_of_true (by rfl) (by decide)
        · exact iff_of_false (by decide) (by decide)
      refine ⟨s, s₁, hadd, (hlists _).mpr ⟨by decide, ?_⟩⟩
      rw [hhalf]
      decide +kernel

end Btide
