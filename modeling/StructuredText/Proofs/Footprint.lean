import StructuredText.Proofs.InPlace

/-!
# The footprint of a run that rewrites

A file is rewritten by way of a temporary file beside it. So a run that rewrites files touches those
that it reports, and besides only the places of their temporary files: it leaves nothing there, and
a file that stood there before is lost.

Results:
1. `Footprint.replace`: what replacing one more file does.
2. `formatFiles_footprint`: what rewriting a list of files does, also if a fault ends the run.
3. `perform_footprint`: no file is new, and one that is not reported is kept unless it stands in the
   place of a temporary file.
4. `perform_footprint_lost`: a file that stands there is lost.
-/

namespace StructuredText.CommandLine

open FileTree

variable {tree : FileTree} {progress : Progress}

/-- One of the paths leads to the place. -/
def LeadsTo (tree : FileTree) (paths : List Path) (place : List String) : Prop :=
  ∃ path ∈ paths, tree.locate path = .ok place

/-- The temporary file of one of the paths has this place. -/
def IsTemporary (tree : FileTree) (paths : List Path) (place : List String) : Prop :=
  ∃ path ∈ paths, tree.locate (path.withEnding temporaryEnding) = .ok place

/-- What rewriting files does to the places of a tree. Paths are followed in `tree`, whose
directories are those of both other trees. -/
structure Footprint (tree : FileTree) (written : List Path) (before after : FileTree) : Prop where
  reported : ∀ place, LeadsTo tree written place →
    before.hasFile place = true ∧ after.hasFile place = true
  lost : ∀ place, ¬ LeadsTo tree written place → IsTemporary tree written place →
    after.bytes? place = none
  kept : ∀ place, ¬ LeadsTo tree written place → ¬ IsTemporary tree written place →
    after.bytes? place = before.bytes? place

namespace Footprint

variable {place : List String}

variable {tree before between after : FileTree} {written : List Path}

theorem nothing (tree before : FileTree) : Footprint tree [] before before where
  reported := by
    rintro place ⟨path, hpath, -⟩
    cases hpath
  lost := by
    rintro place - ⟨path, hpath, -⟩
    cases hpath
  kept _ _ _ := rfl

variable {bytes : List UInt8}

theorem hasFile_of_read {path : Path} (hread : before.read path = .ok bytes)
    (hplace : before.locate path = .ok place) :
    before.hasFile place = true := by
  rw [FileTree.read, hplace] at hread
  simp only at hread
  split at hread
  · cases hread
  · split at hread
    · next found hfound => rw [hasFile, hfound, Option.isSome_some]
    · cases hread

/-- A file is replaced before others are rewritten that leave it alone. -/
theorem replace {path : Path} {old bytes : List UInt8} (hshape : SameShape tree before)
    (hread : before.read path = .ok old)
    (hreplace : before.replace path temporaryEnding bytes = .ok between)
    (hspares : ∀ other ∈ written, Spares tree other path)
    (h : Footprint tree written between after) :
    Footprint tree (path :: written) before after := by
  obtain ⟨target, besides, htarget, hbesides, rfl⟩ := replace_eq_ok hreplace
  have htarget' := (locate_of_sameShape hshape).mp htarget
  have hbesides' := (locate_of_sameShape hshape).mp hbesides
  -- The places that count for the whole list are those of the rest and the two of this file.
  have hleads : ∀ place, LeadsTo tree (path :: written) place ↔
      target = place ∨ LeadsTo tree written place := by
    intro place
    simp only [LeadsTo, List.mem_cons, exists_eq_or_imp, htarget', Except.ok.injEq]
  have htemporary : ∀ place, IsTemporary tree (path :: written) place ↔
      besides = place ∨ IsTemporary tree written place := by
    intro place
    simp only [IsTemporary, List.mem_cons, exists_eq_or_imp, hbesides', Except.ok.injEq]
  have hnot : ¬ IsTemporary tree written target := by
    rintro ⟨other, hother, hlocate⟩
    obtain ⟨place, hplace, -, hne⟩ := hspares other hother
    cases htarget'.symm.trans hplace
    exact hne hlocate
  refine ⟨fun place hplace => ?_, fun place hplace htemp => ?_, fun place hplace htemp => ?_⟩
  · by_cases hrest : LeadsTo tree written place
    · obtain ⟨hbetween, hafter⟩ := h.reported place hrest
      refine ⟨?_, hafter⟩
      by_cases heq : place = target
      · exact heq ▸ hasFile_of_read hread htarget
      · rw [hasFile, bytes?_put_of_ne heq] at hbetween
        by_cases hbeside : place = besides
        · rw [hbeside, bytes?_erase_self] at hbetween
          cases hbetween
        · rwa [bytes?_erase_of_ne hbeside] at hbetween
    · obtain rfl := ((hleads place).mp hplace).resolve_right hrest
      refine ⟨hasFile_of_read hread htarget, ?_⟩
      rw [hasFile, h.kept _ hrest hnot, bytes?_put_self, Option.isSome_some]
  · rw [hleads, not_or] at hplace
    by_cases hrest : IsTemporary tree written place
    · exact h.lost place hplace.2 hrest
    · obtain rfl := ((htemporary place).mp htemp).resolve_right hrest
      rw [h.kept _ hplace.2 hrest, bytes?_put_of_ne (Ne.symm hplace.1), bytes?_erase_self]
  · rw [hleads, not_or] at hplace
    rw [htemporary, not_or] at htemp
    rw [h.kept place hplace.2 htemp.2, bytes?_put_of_ne (Ne.symm hplace.1),
      bytes?_erase_of_ne (Ne.symm htemp.1)]

/-- No file is new. -/
theorem hasFile_before (h : Footprint tree written before after)
    (hafter : after.hasFile place = true) :
    before.hasFile place = true := by
  by_cases hleads : LeadsTo tree written place
  · exact (h.reported place hleads).1
  · by_cases htemp : IsTemporary tree written place
    · rw [hasFile, h.lost place hleads htemp] at hafter
      cases hafter
    · rwa [hasFile, h.kept place hleads htemp] at hafter

/-- A file that is not reported is kept exactly if it does not stand in the place of a temporary
one. -/
theorem kept_iff (h : Footprint tree written before after)
    (hbefore : before.bytes? place = some bytes) (hleads : ¬ LeadsTo tree written place) :
    after.bytes? place = some bytes ↔ ¬ IsTemporary tree written place := by
  constructor
  · intro hafter htemp
    rw [h.lost place hleads htemp] at hafter
    cases hafter
  · intro htemp
    rw [h.kept place hleads htemp, hbefore]

end Footprint

/-- The run has rewritten files, reports them and prints nothing behind that but why it ends. -/
def Rewrote (tree : FileTree) (paths : List Path) (progress : Progress) (outcome : Outcome) :
    Prop :=
  ∃ written closing, written.Sublist paths ∧
    outcome.output = progress.output ++ report "ok: wrote " written ++ Closing.text closing ∧
    Footprint tree written progress.tree outcome.tree

variable {paths : List Path} {outcome : Outcome}

/-- A run that ends before it comes to a file has rewritten none. -/
theorem Rewrote.ended (closing : Closing) (htree : outcome.tree = progress.tree)
    (houtput : outcome.output = progress.output ++ closing.text) :
    Rewrote tree paths progress outcome := by
  refine ⟨[], closing, List.nil_sublist _, ?_, htree ▸ .nothing tree _⟩
  rw [houtput, report, String.append_empty]

/-- A file whose rewriting ends the run is not reported. -/
theorem Rewrote.of_error {path : Path} {found : Verdict}
    (h : rewriteStep path progress found = .error outcome) :
    Rewrote tree paths progress outcome := by
  rcases rewriteStep_error h with ⟨message, rfl⟩ | ⟨_, _, rfl⟩
  · refine .ended (.failed message) rfl ?_
    simp [Progress.fail, Progress.print, Progress.finish, Closing.text]
  · exact .ended .nothing rfl (by simp [Progress.notify, Progress.finish, Closing.text])

section

variable [Host]

variable {vocabulary : Vocabulary} {request : Request}

/-- A file that rewriting gets past is left as it is, or replaced and reported. -/
theorem rewriteStep_reports {mode : Format.Mode} {path : Path} {next : Progress}
    (h : rewriteStep path progress (verdict mode vocabulary progress.tree path) = .ok next) :
    next.tree = progress.tree ∧ next.output = progress.output ∨
      ∃ bytes old, progress.tree.read path = .ok old ∧
        progress.tree.replace path temporaryEnding bytes = .ok next.tree ∧
        next.output = progress.output ++ ("ok: wrote " ++ path.render ++ "\n") := by
  cases hfound : verdict mode vocabulary progress.tree path with
  | unreadable fault =>
    rw [hfound] at h
    cases h
  | unexpected failure notices =>
    rw [hfound] at h
    cases h
  | tidy notices =>
    rw [hfound] at h
    cases h
    exact .inl ⟨rfl, rfl⟩
  | untidy formatted =>
    obtain ⟨text, htext, -⟩ := verdict_eq_untidy hfound
    obtain ⟨old, hread⟩ := exists_read_of_readText htext
    rw [hfound, rewriteStep] at h
    split at h
    · next tree hreplace =>
      cases h
      exact .inr ⟨_, old, hread, hreplace, rfl⟩
    · cases h

/-- Rewriting a list of files of which none is in the way of another. -/
theorem formatFiles_footprint (paths : List Path) (hspares : paths.Pairwise fun first second =>
      Spares tree first second ∧ Spares tree second first) :
    ∀ progress, SameShape tree progress.tree →
      Rewrote tree paths progress (formatFiles request.rewriting vocabulary paths progress) := by
  induction paths with
  | nil =>
    intro progress _
    exact .ended .nothing rfl (by simp [formatFiles_nil, Progress.finish, Closing.text])
  | cons path paths ih =>
    intro progress hshape
    obtain ⟨hfirst, hspares⟩ := List.pairwise_cons.mp hspares
    have hstep := @formatFile_rewriting _ request vocabulary progress path
    cases hresult :
      rewriteStep path progress (verdict request.mode vocabulary progress.tree path) with
    | error outcome =>
      rw [formatFiles_cons_error (hstep.trans hresult)]
      exact .of_error hresult
    | ok next =>
      rw [formatFiles_cons_ok (hstep.trans hresult)]
      obtain ⟨htree, houtput⟩ | ⟨bytes, old, hread, hreplace, houtput⟩ :=
        rewriteStep_reports hresult
      · obtain ⟨written, closing, hsublist, hprinted, hfootprint⟩ :=
          ih hspares next (htree ▸ hshape)
        rw [houtput] at hprinted
        rw [htree] at hfootprint
        exact ⟨written, closing, hsublist.cons _, hprinted, hfootprint⟩
      · obtain ⟨written, closing, hsublist, hprinted, hfootprint⟩ :=
          ih hspares next (hshape.trans (sameShape_of_replace hreplace))
        refine ⟨path :: written, closing, hsublist.cons_cons _, ?_, hfootprint.replace hshape hread
          hreplace fun other hother => (hfirst other (hsublist.subset hother)).2⟩
        rw [hprinted, houtput]
        simp [report, String.append_assoc]

omit [Host] in
theorem rewriting_of_isSound (hsound : request.IsSound) (hplace : request.inPlace = true) :
    request.rewriting = request := by
  obtain ⟨script, mode, style, check, inPlace, vocabulary⟩ := request
  cases hplace
  cases check with
  | true => cases hsound.1
  | false => rfl

theorem perform_rewrote (request : Request) (hplace : request.inPlace = true)
    (proper : tree.IsProper) :
    Rewrote tree (collected request tree) (.start tree) (perform request tree) := by
  have hfail : ∀ reason, Rewrote tree (collected request tree) (.start tree)
      ((Progress.start tree).fail reason) :=
    fun reason => .ended (.failed reason) rfl rfl
  by_cases hsound : request.IsSound
  · cases hvocabulary : requestVocabulary tree request with
    | error error =>
      obtain ⟨reason, -, hperform⟩ | ⟨-, hperform⟩ := perform_of_error hsound hvocabulary
      · exact hperform ▸ hfail _
      · exact hperform ▸ .ended .nothing rfl rfl
    | ok vocabulary =>
      rw [perform_of_loaded hsound hvocabulary]
      cases hsearch : tree.searchFault (.ofString request.script) with
      | some fault => exact formatScripts_escapes hsearch _ ▸ .ended .nothing rfl rfl
      | none =>
        rw [formatScripts_eq (by rw [hplace, Bool.or_true]) hsearch]
        split
        · exact .ended .noScripts rfl rfl
        · rw [← rewriting_of_isSound hsound hplace]
          exact formatFiles_footprint _ (spares_collected proper _ hsearch) (.start tree)
            (.refl tree)
  · obtain ⟨reason, hperform⟩ := perform_of_not_sound hsound tree
    exact hperform ▸ hfail _

/-- A run that rewrites touches what it reports: no file is new, and a file that is not reported is
kept as it is, unless it stands in the place of the temporary file of a reported one. -/
theorem perform_footprint (request : Request) (hplace : request.inPlace = true) {tree : FileTree}
    (proper : tree.IsProper) :
    ∃ written closing,
      (perform request tree).output = report "ok: wrote " written ++ Closing.text closing ∧
      written.Sublist (collected request tree) ∧
      (∀ place, (perform request tree).tree.hasFile place = true → tree.hasFile place = true) ∧
      ∀ place bytes, tree.bytes? place = some bytes → ¬ LeadsTo tree written place →
        ((perform request tree).tree.bytes? place = some bytes ↔
          ¬ IsTemporary tree written place) := by
  obtain ⟨written, closing, hsublist, houtput, hfootprint⟩ :=
    perform_rewrote request hplace proper
  rw [Progress.start, String.empty_append] at houtput
  exact ⟨written, closing, houtput, hsublist, fun _ => hfootprint.hasFile_before,
    fun _ _ => hfootprint.kept_iff⟩

end

/-- A script that needs formatting, and a file in the place of its temporary file. -/
def crowdedTree : FileTree :=
  ⟨["w"], [["w"]],
    [(["w", "a.st"], Utf8.encode "a:=b".toList), (["w", "a.st.tmp"], []), (["w", "a.tmp"], [])]⟩

theorem perform_footprint_crowded :
    let request : Request := ⟨"a.st", .canonical, "v0", false, true, none⟩
    let outcome := @perform Host.plain request crowdedTree
    crowdedTree.IsProper ∧ ∃ written closing,
      outcome.output = report "ok: wrote " written ++ Closing.text closing ∧
      written.Sublist (collected request crowdedTree) ∧
      (∀ place, outcome.tree.hasFile place = true → crowdedTree.hasFile place = true) ∧
      ∀ place bytes, crowdedTree.bytes? place = some bytes → ¬ LeadsTo crowdedTree written place →
        (outcome.tree.bytes? place = some bytes ↔ ¬ IsTemporary crowdedTree written place) := by
  intro request
  have proper : crowdedTree.IsProper := ⟨by decide, by decide, by decide, by decide⟩
  exact ⟨proper, @perform_footprint Host.plain request rfl _ proper⟩

/-- A file in the place of a temporary file is not reported, and lost. -/
theorem perform_footprint_lost :
    let outcome := @run Host.plain ["fmt", "a.st", "--in-place"] crowdedTree
    crowdedTree.bytes? ["w", "a.st.tmp"] = some [] ∧ outcome.output = "ok: wrote a.st\n" ∧
      outcome.tree.bytes? ["w", "a.st.tmp"] = none := by
  decide +kernel

end StructuredText.CommandLine
