import Mathlib
import StructuredText.CommandLine.Run
import StructuredText.Proofs.FileTrees

/-!
# Checking and rewriting files

A run that checks files and a run that rewrites them go through the same files in the same order.
What they find about a file depends on its path and text alone, and rewriting one file leaves the
text of the files to come as it is.

Results:
1. `formatFile_checking`, `formatFile_rewriting`: what the two runs do with one file.
2. `read_formatFiles`: a run that rewrites files leaves all others alone.
3. `formatFiles_checking`, `formatFiles_rewriting`: what the two runs do with a list of files.
4. `perform_agrees`: the files that a check reports are those that rewriting replaces.
-/

namespace StructuredText.CommandLine

open FileTree

variable {tree other : FileTree} {outcome : Outcome} {path : Path} {progress : Progress}
  {request : Request} {vocabulary : Vocabulary}

/-! ## Reports -/

/-- The lines that tell about paths, each behind a sign. -/
def report (sign : String) : List Path → String
  | [] => ""
  | path :: paths => sign ++ path.render ++ "\n" ++ report sign paths

/-- What a run prints behind its reports. -/
inductive Closing where
  | nothing
  | noScripts
  | failed (reason : String)
deriving Repr, DecidableEq

def Closing.text : Closing → String
  | .nothing => ""
  | .noScripts => "ok: no " ++ scriptSuffix ++ " files found\n"
  | .failed reason => "failed: " ++ reason ++ "\n"

def Closing.isFailed : Closing → Bool
  | .failed _ => true
  | .nothing | .noScripts => false

/-- Whether a run ends with a fault that it does not expect. -/
def Outcome.escapes (outcome : Outcome) : Bool :=
  match outcome.ending with
  | .failure _ => true
  | .status _ | .misuse _ => false

/-- The request as one that only tells which files need formatting. -/
def Request.checking (request : Request) : Request :=
  { request with check := true, inPlace := false }

/-- The request as one that replaces the files that need formatting. -/
def Request.rewriting (request : Request) : Request :=
  { request with check := false, inPlace := true }

/-- The files that a request is about. -/
def collected (request : Request) (tree : FileTree) : List Path :=
  let script := Path.ofString request.script
  if tree.isDirectory script then scriptsBelow tree script else [script]

/-! ## One file -/

/-- What is found about a file. -/
inductive Verdict where
  | unreadable (fault : FileTree.Fault)
  | unexpected (failure : Failure) (notices : List Notice)
  | tidy (notices : List Notice)
  | untidy (formatted : Formatted)
deriving Repr, DecidableEq

def verdict [Host] (mode : Format.Mode) (vocabulary : Vocabulary) (tree : FileTree)
    (path : Path) : Verdict :=
  match tree.readText path with
  | .error (.file fault) => .unreadable fault
  | .error (.content fault) => .unexpected (.content fault) []
  | .ok text =>
      match Format.inMode mode vocabulary path.render text with
      | .error fault =>
          .unexpected (.pattern fault) (Format.unterminatedNotice path.render text)
      | .ok formatted =>
          if formatted.text = text then .tidy formatted.notices else .untidy formatted

/-- What a check does about a file. -/
def checkStep (path : Path) (progress : Progress) : Verdict → Except Outcome Progress
  | .unreadable fault => .error (progress.fail fault.message)
  | .unexpected failure notices => .error ((progress.notify notices).finish (.failure failure))
  | .tidy notices => .ok (progress.notify notices)
  | .untidy formatted =>
      .ok { (progress.notify formatted.notices).print ("needs format: " ++ path.render ++ "\n") with
        changed := true }

/-- What rewriting does about a file. -/
def rewriteStep (path : Path) (progress : Progress) : Verdict → Except Outcome Progress
  | .unreadable fault => .error (progress.fail fault.message)
  | .unexpected failure notices => .error ((progress.notify notices).finish (.failure failure))
  | .tidy notices => .ok (progress.notify notices)
  | .untidy formatted =>
      match progress.tree.replace path temporaryEnding (Utf8.encode formatted.text) with
      | .ok tree =>
          .ok ({ progress.notify formatted.notices with tree }.print
            ("ok: wrote " ++ path.render ++ "\n"))
      | .error fault =>
          .error ((progress.notify formatted.notices).finish (.failure (.file fault)))

section

variable [Host] {request : Request} {vocabulary : Vocabulary}

theorem formatFile_checking (progress : Progress) (path : Path) :
    formatFile request.checking vocabulary progress path =
      checkStep path progress (verdict request.mode vocabulary progress.tree path) := by
  simp only [formatFile, verdict]
  cases progress.tree.readText path with
  | error fault => cases fault <;> simp [checkStep, Progress.notify, Progress.finish]
  | ok text =>
    simp only [Request.checking, deliver]
    cases Format.inMode request.mode vocabulary path.render text with
    | error fault => rfl
    | ok formatted => by_cases h : formatted.text = text <;> simp [checkStep, h]

theorem formatFile_rewriting (progress : Progress) (path : Path) :
    formatFile request.rewriting vocabulary progress path =
      rewriteStep path progress (verdict request.mode vocabulary progress.tree path) := by
  simp only [formatFile, verdict]
  cases progress.tree.readText path with
  | error fault => cases fault <;> simp [rewriteStep, Progress.notify, Progress.finish]
  | ok text =>
    simp only [Request.rewriting, deliver]
    cases Format.inMode request.mode vocabulary path.render text with
    | error fault => rfl
    | ok formatted =>
      by_cases h : formatted.text = text
      · simp [rewriteStep, h]
      · cases hreplace : progress.tree.replace path temporaryEnding (Utf8.encode formatted.text) <;>
          simp [rewriteStep, Progress.notify, h, hreplace]

theorem formatFiles_nil (progress : Progress) :
    formatFiles request vocabulary [] progress =
      progress.finish (.status (if progress.changed then 1 else 0)) :=
  rfl

theorem formatFiles_cons_ok {next : Progress}
    (h : formatFile request vocabulary progress path = .ok next) (paths : List Path) :
    formatFiles request vocabulary (path :: paths) progress =
      formatFiles request vocabulary paths next := by
  rw [formatFiles, List.foldlM_cons, h]
  rfl

theorem formatFiles_cons_error (h : formatFile request vocabulary progress path = .error outcome)
    (paths : List Path) :
    formatFiles request vocabulary (path :: paths) progress = outcome := by
  rw [formatFiles, List.foldlM_cons, h]
  rfl

end

/-! ## Files that are left alone -/

/-- Rewriting `first` writes to no place that `second` leads to. -/
def Spares (tree : FileTree) (first second : Path) : Prop :=
  ∃ place, tree.locate second = .ok place ∧ tree.locate first ≠ .ok place ∧
    tree.locate (first.withEnding temporaryEnding) ≠ .ok place

variable {first second : Path} {found : Verdict}

theorem Spares.of_sameShape (h : Spares tree first second) (hshape : SameShape tree other) :
    Spares other first second := by
  obtain ⟨place, hplace, hfirst, hbesides⟩ := h
  refine ⟨place, (locate_of_sameShape hshape).mpr hplace, ?_, ?_⟩
  · rwa [ne_eq, locate_of_sameShape hshape]
  · rwa [ne_eq, locate_of_sameShape hshape]

/-- Replacing a file leaves what is read elsewhere as it is. -/
theorem Spares.read_eq {bytes : List UInt8} (h : Spares tree first second)
    (hreplace : tree.replace first temporaryEnding bytes = .ok other) :
    other.read second = tree.read second := by
  obtain ⟨place, hplace, hfirst, hbesides⟩ := h
  exact read_congr (sameShape_of_replace hreplace) hplace
    (bytes?_replace_of_ne hreplace hfirst hbesides)

/-- What rewriting one file does to the tree. -/
theorem rewriteStep_tree {next : Progress} (h : rewriteStep path progress found = .ok next) :
    next.tree = progress.tree ∨ ∃ formatted, found = .untidy formatted ∧
      progress.tree.replace path temporaryEnding (Utf8.encode formatted.text) = .ok next.tree := by
  cases found with
  | unreadable fault | unexpected failure notices => cases h
  | tidy notices =>
    cases h
    exact .inl rfl
  | untidy formatted =>
    rw [rewriteStep] at h
    split at h
    · next tree hreplace =>
      cases h
      exact .inr ⟨formatted, rfl, hreplace⟩
    · cases h

/-- A file ends the run with a message or with a failure. -/
theorem rewriteStep_error (h : rewriteStep path progress found = .error outcome) :
    (∃ message, outcome = progress.fail message) ∨
      ∃ notices failure, outcome = (progress.notify notices).finish (.failure failure) := by
  cases found with
  | unreadable fault => exact .inl ⟨_, (Except.error.inj h).symm⟩
  | unexpected failure notices => exact .inr ⟨notices, failure, (Except.error.inj h).symm⟩
  | tidy notices => cases h
  | untidy formatted =>
    rw [rewriteStep] at h
    split at h
    · cases h
    · exact .inr ⟨_, _, (Except.error.inj h).symm⟩

/-- A file whose rewriting ends the run has not been rewritten. -/
theorem rewriteStep_tree_of_error (h : rewriteStep path progress found = .error outcome) :
    outcome.tree = progress.tree := by
  rcases rewriteStep_error h with ⟨_, rfl⟩ | ⟨_, _, rfl⟩
  · rfl
  · rfl

/-- A run that rewrites files leaves what is read elsewhere as it is. -/
theorem read_formatFiles [Host] {other : Path} (paths : List Path) :
    ∀ progress, (∀ path ∈ paths, Spares progress.tree path other) →
      (formatFiles request.rewriting vocabulary paths progress).tree.read other =
        progress.tree.read other := by
  induction paths with
  | nil => exact fun _ _ => rfl
  | cons path paths ih =>
    intro progress hspares
    have hstep := @formatFile_rewriting _ request vocabulary progress path
    cases hresult :
      rewriteStep path progress (verdict request.mode vocabulary progress.tree path) with
    | error outcome =>
      rw [formatFiles_cons_error (hstep.trans hresult), rewriteStep_tree_of_error hresult]
    | ok next =>
      rw [formatFiles_cons_ok (hstep.trans hresult)]
      rcases rewriteStep_tree hresult with htree | ⟨formatted, -, hreplace⟩
      · rw [ih next fun later hlater =>
          htree ▸ hspares later (List.mem_cons_of_mem _ hlater), htree]
      · rw [ih next fun later hlater =>
          (hspares later (List.mem_cons_of_mem _ hlater)).of_sameShape
            (sameShape_of_replace hreplace)]
        exact (hspares path List.mem_cons_self).read_eq hreplace

/-! ## Lists of files -/

section

variable [Host]

/-- The files that need formatting, up to one that ends the run. -/
def untidyPaths (mode : Format.Mode) (vocabulary : Vocabulary) (tree : FileTree) :
    List Path → List Path
  | [] => []
  | path :: paths =>
      match verdict mode vocabulary tree path with
      | .unreadable _ | .unexpected _ _ => []
      | .tidy _ => untidyPaths mode vocabulary tree paths
      | .untidy _ => path :: untidyPaths mode vocabulary tree paths

/-- What is printed behind the reports on files. -/
def closingOf (mode : Format.Mode) (vocabulary : Vocabulary) (tree : FileTree) :
    List Path → Closing
  | [] => .nothing
  | path :: paths =>
      match verdict mode vocabulary tree path with
      | .unreadable fault => .failed fault.message
      | .unexpected _ _ => .nothing
      | .tidy _ | .untidy _ => closingOf mode vocabulary tree paths

theorem untidyPaths_sublist (mode : Format.Mode) (vocabulary : Vocabulary) (tree : FileTree)
    (paths : List Path) : (untidyPaths mode vocabulary tree paths).Sublist paths := by
  induction paths with
  | nil => exact .slnil
  | cons path paths ih =>
    rw [untidyPaths]
    split
    · exact List.nil_sublist _
    · exact List.nil_sublist _
    · exact ih.cons _
    · exact ih.cons_cons _

variable {mode : Format.Mode}

/-- What is found about a file depends on what is read. -/
theorem verdict_congr (h : other.read path = tree.read path) :
    verdict mode vocabulary other path = verdict mode vocabulary tree path := by
  rw [verdict, verdict, readText_congr h]

theorem verdict_eq_untidy {formatted : Formatted}
    (h : verdict mode vocabulary tree path = .untidy formatted) :
    ∃ text, tree.readText path = .ok text ∧
      Format.inMode mode vocabulary path.render text = .ok formatted ∧ formatted.text ≠ text := by
  rw [verdict] at h
  split at h
  · cases h
  · cases h
  · next text htext =>
    split at h
    · cases h
    · next found hfound =>
      split at h
      · cases h
      · next hne =>
        cases h
        exact ⟨text, htext, hfound, hne⟩

end

theorem exists_read_of_readText {text : List Char} (h : tree.readText path = .ok text) :
    ∃ bytes, tree.read path = .ok bytes := by
  rw [readText] at h
  split at h
  · cases h
  · cases hread : tree.read path with
    | error fault =>
      rw [hread] at h
      cases h
    | ok bytes => exact ⟨bytes, rfl⟩

section

variable [Host] {request : Request} {vocabulary : Vocabulary}

/-- A check reports the files that need formatting, and changes none. -/
theorem formatFiles_checking (paths : List Path) :
    ∀ progress, (formatFiles request.checking vocabulary paths progress).escapes = false →
      let outcome := formatFiles request.checking vocabulary paths progress
      let untidy := untidyPaths request.mode vocabulary progress.tree paths
      let closing := closingOf request.mode vocabulary progress.tree paths
      outcome.tree = progress.tree ∧
        outcome.output = progress.output ++ report "needs format: " untidy ++ closing.text ∧
        (closing.isFailed = false →
          outcome.ending = .status (if progress.changed || !untidy.isEmpty then 1 else 0)) := by
  induction paths with
  | nil =>
    intro progress _
    rw [formatFiles_nil]
    refine ⟨rfl, ?_, fun _ => ?_⟩
    · simp [untidyPaths, closingOf, report, Closing.text, Progress.finish]
    · simp [untidyPaths, Progress.finish]
  | cons path paths ih =>
    intro progress hescapes
    have hstep := @formatFile_checking _ request vocabulary progress path
    cases hfound : verdict request.mode vocabulary progress.tree path with
    | unreadable fault =>
      rw [hfound, checkStep] at hstep
      simp only [untidyPaths, closingOf, hfound]
      rw [formatFiles_cons_error hstep]
      refine ⟨rfl, ?_, nofun⟩
      simp [Progress.fail, Progress.print, Progress.finish, report, Closing.text]
    | unexpected failure notices =>
      rw [hfound, checkStep] at hstep
      rw [formatFiles_cons_error hstep] at hescapes
      cases hescapes
    | tidy notices =>
      rw [hfound, checkStep] at hstep
      simp only [untidyPaths, closingOf, hfound]
      rw [formatFiles_cons_ok hstep] at hescapes ⊢
      exact ih (progress.notify notices) hescapes
    | untidy formatted =>
      rw [hfound, checkStep] at hstep
      simp only [untidyPaths, closingOf, hfound]
      rw [formatFiles_cons_ok hstep] at hescapes ⊢
      obtain ⟨htree, houtput, hending⟩ := ih _ hescapes
      refine ⟨htree, ?_, fun hclosing => ?_⟩
      · rw [houtput]
        simp [Progress.print, Progress.notify, report, String.append_assoc]
      · rw [hending hclosing]
        simp

/-- Rewriting replaces the files that need formatting, and leaves the others. -/
theorem formatFiles_rewriting (paths : List Path)
    (hspares : paths.Pairwise fun first second =>
      Spares tree first second ∧ Spares tree second first) :
    ∀ progress, SameShape tree progress.tree →
      (∀ path ∈ paths, progress.tree.read path = tree.read path) →
      (formatFiles request.rewriting vocabulary paths progress).escapes = false →
      let outcome := formatFiles request.rewriting vocabulary paths progress
      let untidy := untidyPaths request.mode vocabulary tree paths
      outcome.output = progress.output ++ report "ok: wrote " untidy ++
          (closingOf request.mode vocabulary tree paths).text ∧
        (∀ path ∈ untidy, ∃ formatted,
          verdict request.mode vocabulary tree path = .untidy formatted ∧
            outcome.tree.read path = .ok (Utf8.encode formatted.text)) ∧
        ∀ path ∈ paths, path ∉ untidy → outcome.tree.read path = tree.read path := by
  induction paths with
  | nil =>
    intro progress _ _ _
    rw [formatFiles_nil]
    refine ⟨?_, nofun, nofun⟩
    simp [untidyPaths, closingOf, report, Closing.text, Progress.finish]
  | cons path paths ih =>
    intro progress hshape hread hescapes
    obtain ⟨hfirst, hspares⟩ := List.pairwise_cons.mp hspares
    have hlater : ∀ other ∈ paths, progress.tree.read other = tree.read other :=
      fun other hother => hread other (List.mem_cons_of_mem _ hother)
    have hsame := hread path List.mem_cons_self
    have hstep := @formatFile_rewriting _ request vocabulary progress path
    rw [verdict_congr hsame] at hstep
    cases hfound : verdict request.mode vocabulary tree path with
    | unreadable fault =>
      rw [hfound, rewriteStep] at hstep
      simp only [untidyPaths, closingOf, hfound]
      rw [formatFiles_cons_error hstep]
      refine ⟨?_, nofun, fun other hother _ => hread other hother⟩
      simp [Progress.fail, Progress.print, Progress.finish, report, Closing.text]
    | unexpected failure notices =>
      rw [hfound, rewriteStep] at hstep
      rw [formatFiles_cons_error hstep] at hescapes
      cases hescapes
    | tidy notices =>
      rw [hfound, rewriteStep] at hstep
      simp only [untidyPaths, closingOf, hfound]
      rw [formatFiles_cons_ok hstep] at hescapes ⊢
      obtain ⟨houtput, hrewritten, hkept⟩ :=
        ih hspares (progress.notify notices) hshape hlater hescapes
      refine ⟨houtput, hrewritten, fun other hother huntidy => ?_⟩
      rcases List.mem_cons.mp hother with rfl | hother
      · rw [read_formatFiles paths (progress.notify notices) fun later hmem =>
          (hfirst later hmem).2.of_sameShape hshape]
        exact hsame
      · exact hkept other hother huntidy
    | untidy formatted =>
      rw [hfound, rewriteStep] at hstep
      simp only [untidyPaths, closingOf, hfound]
      split at hstep
      · next written hreplace =>
        rw [formatFiles_cons_ok hstep] at hescapes ⊢
        have hshape' := hshape.trans (sameShape_of_replace hreplace)
        have hlater' : ∀ other ∈ paths, written.read other = tree.read other := by
          intro other hother
          rw [((hfirst other hother).1.of_sameShape hshape).read_eq hreplace, hlater other hother]
        obtain ⟨houtput, hrewritten, hkept⟩ := ih hspares _ hshape' hlater' hescapes
        refine ⟨?_, fun other hother => ?_, fun other hother huntidy => ?_⟩
        · rw [houtput]
          simp [Progress.print, Progress.notify, report, String.append_assoc]
        · rcases List.mem_cons.mp hother with rfl | hother
          · refine ⟨formatted, hfound, ?_⟩
            rw [read_formatFiles paths _ fun later hmem =>
              (hfirst later hmem).2.of_sameShape hshape']
            obtain ⟨text, htext, -⟩ := verdict_eq_untidy hfound
            obtain ⟨bytes, hbytes⟩ := exists_read_of_readText htext
            exact read_replace_self hreplace (hsame.trans hbytes)
          · exact hrewritten other hother
        · rw [List.mem_cons, not_or] at huntidy
          exact hkept other ((List.mem_cons.mp hother).resolve_left huntidy.1) huntidy.2
      · next fault _ =>
        rw [formatFiles_cons_error hstep] at hescapes
        cases hescapes

end

/-! ## The files of a request -/

/-- The name of a temporary file has no suffix of its file's kind. -/
theorem lower_suffixOf_temporary (name : List Char) :
    lower (Path.suffixOf (name ++ temporaryEnding.toList)) ≠ scriptSuffix.toList := by
  have hending : ((name ++ temporaryEnding.toList).reverse.takeWhile (· != '.')).reverse =
      ['t', 'm', 'p'] := by
    rw [List.reverse_append]
    rfl
  rw [Path.suffixOf, hending]
  simp only [List.isEmpty_cons, Bool.false_or]
  split <;> decide

theorem append_temporaryEnding_ne (name : String) : name ++ temporaryEnding ≠ ".." := by
  intro h
  have hlength := congrArg String.length h
  rw [String.length_append] at hlength
  have : temporaryEnding.length = 4 := rfl
  have : "..".length = 2 := rfl
  omega

section

variable [Host]

/-- Of two scripts below a directory, rewriting one leaves the other alone. -/
theorem spares_of_mem_scriptsBelow {tree : FileTree} (proper : tree.IsProper) {script : Path}
    (hsearch : tree.searchFault script = none) {directory : List String}
    (hlocate : tree.locate script = .ok directory)
    (hdirectory : tree.hasDirectory directory = true) {first second : Path}
    (hfirst : first ∈ scriptsBelow tree script) (hsecond : second ∈ scriptsBelow tree script)
    (hne : first ≠ second) : Spares tree first second := by
  obtain ⟨hfirst, -⟩ := List.mem_filter.mp hfirst
  obtain ⟨hsecond, hsuffix⟩ := List.mem_filter.mp hsecond
  have hshort := isTooLong_of_mem_filesBelow hsearch hlocate hdirectory hsecond
  obtain ⟨names, last, hlast, rfl, hplaces⟩ :=
    proper.exists_names_of_mem_filesBelow hlocate hdirectory hfirst
  obtain ⟨names', last', hlast', rfl, hplaces'⟩ :=
    proper.exists_names_of_mem_filesBelow hlocate hdirectory hsecond
  -- A path beside the first one leads to its own place or to none.
  have hplace : ∀ name place, name ≠ ".." →
      tree.locate (script.below (names ++ [name])) = .ok place →
      directory ++ names ++ [name] = place := by
    intro name place hname hfound
    rcases hplaces name hname with heq | hlong
    · exact Except.ok.inj (heq.symm.trans hfound)
    · rw [isTooLong_iff, hfound] at hlong
      cases hlong
  have htemporary : (script.below (names ++ [last])).withEnding temporaryEnding =
      script.below (names ++ [last ++ temporaryEnding]) := by
    simp [Path.withEnding, Path.below, Path.fileName, ← List.append_assoc]
  refine ⟨_, (hplaces' last' hlast').resolve_right (Bool.eq_false_iff.mp hshort), ?_, ?_⟩
  · intro hfound
    have heq := hplace last _ hlast hfound
    rw [List.append_assoc, List.append_assoc] at heq
    exact hne (congrArg script.below (List.append_cancel_left heq))
  · rw [htemporary]
    intro hfound
    have heq := hplace _ _ (append_temporaryEnding_ne last) hfound
    have hname := List.append_inj_right' heq rfl
    rw [List.singleton_inj] at hname
    have hfile : (script.below (names' ++ [last'])).suffix =
        Path.suffixOf (last.toList ++ temporaryEnding.toList) := by
      rw [Path.suffix, ← String.toList_append, hname]
      simp [Path.below, Path.fileName, ← List.append_assoc]
    rw [beq_iff_eq, hfile] at hsuffix
    exact lower_suffixOf_temporary _ hsuffix

theorem spares_collected (proper : tree.IsProper) (request : Request)
    (hsearch : tree.searchFault (.ofString request.script) = none) :
    (collected request tree).Pairwise fun first second =>
      Spares tree first second ∧ Spares tree second first := by
  rw [collected]
  split
  · next hscript =>
    rw [isDirectory] at hscript
    split at hscript
    · next directory hlocate =>
      have hspares := @spares_of_mem_scriptsBelow _ tree proper _ hsearch directory hlocate hscript
      have hnodup := (proper.nodup_filesBelow (.ofString request.script)).filter
        fun path => lower path.suffix == scriptSuffix.toList
      exact hnodup.imp_of_mem fun hfirst hsecond hne =>
        ⟨hspares hfirst hsecond hne, hspares hsecond hfirst hne.symm⟩
    · cases hscript
  · exact List.pairwise_singleton _ _

/-! ## Whole runs -/

/-- A check and a run that rewrites agree: they report the same files, in the order in which they
are collected, and print the same behind that. -/
structure Agreement (request : Request) (tree : FileTree) (changed : List Path) (closing : Closing)
    (checked written : Outcome) : Prop where
  reported : checked.output = report "needs format: " changed ++ closing.text
  rewritten : written.output = report "ok: wrote " changed ++ closing.text
  inOrder : changed.Sublist (collected request tree)
  /-- Without a failure, the check tells by its status whether a file needs formatting. -/
  status : closing.isFailed = false → checked.ending = .status (if changed = [] then 0 else 1)
  /-- A reported file holds its formatted text, which is another one than before. -/
  formatted : ∀ path ∈ changed, ∃ vocabulary text formatted,
    requestVocabulary tree request = .ok vocabulary ∧ tree.readText path = .ok text ∧
      Format.inMode request.mode vocabulary path.render text = .ok formatted ∧
      formatted.text ≠ text ∧ written.tree.read path = .ok (Utf8.encode formatted.text)
  kept : ∀ path ∈ collected request tree, path ∉ changed → written.tree.read path = tree.read path
  unchanged : checked.tree = tree

/-- Runs that fail before they come to any file agree. -/
theorem Agreement.of_closing (request : Request) (tree : FileTree) (closing : Closing)
    (htree : outcome.tree = tree) (houtput : outcome.output = closing.text)
    (hending : closing.isFailed = false → outcome.ending = .status 0) :
    Agreement request tree [] closing outcome outcome where
  reported := by rw [houtput, report, String.empty_append]
  rewritten := by rw [houtput, report, String.empty_append]
  inOrder := List.nil_sublist _
  status := hending
  formatted := nofun
  kept _ _ _ := by rw [htree]
  unchanged := htree

/-- Runs through the collected files agree. -/
theorem formatFiles_agrees (proper : tree.IsProper)
    (hsearch : tree.searchFault (.ofString request.script) = none)
    (hvocabulary : requestVocabulary tree request = .ok vocabulary)
    (hchecked : (formatFiles request.checking vocabulary (collected request tree)
      (.start tree)).escapes = false)
    (hwritten : (formatFiles request.rewriting vocabulary (collected request tree)
      (.start tree)).escapes = false) :
    ∃ changed closing, Agreement request tree changed closing
      (formatFiles request.checking vocabulary (collected request tree) (.start tree))
      (formatFiles request.rewriting vocabulary (collected request tree) (.start tree)) := by
  obtain ⟨htree, hreported, hending⟩ := formatFiles_checking _ _ hchecked
  obtain ⟨hrewritten, hformatted, hkept⟩ := formatFiles_rewriting _
    (spares_collected proper request hsearch) (.start tree) (.refl tree) (fun _ _ => rfl) hwritten
  rw [Progress.start, String.empty_append] at hreported hrewritten
  refine ⟨untidyPaths request.mode vocabulary tree (collected request tree),
    closingOf request.mode vocabulary tree (collected request tree),
    hreported, hrewritten, untidyPaths_sublist _ _ _ _, fun hclosing => ?_, fun path hpath => ?_,
    hkept, htree⟩
  · rw [hending hclosing]
    by_cases hnone : untidyPaths request.mode vocabulary tree (collected request tree) = []
    · simp [Progress.start, hnone]
    · simp [Progress.start, hnone]
  · obtain ⟨formatted, hfound, hread⟩ := hformatted path hpath
    obtain ⟨text, htext, hmode, hne⟩ := verdict_eq_untidy hfound
    exact ⟨vocabulary, text, formatted, hvocabulary, htext, hmode, hne, hread⟩

/-- A run that checks or rewrites goes through the collected files, if there are any. -/
theorem formatScripts_eq (hmode : (request.check || request.inPlace) = true)
    (hsearch : tree.searchFault (.ofString request.script) = none) (vocabulary : Vocabulary) :
    formatScripts request vocabulary tree =
      if (collected request tree).isEmpty then
        ((Progress.start tree).print (Closing.text .noScripts)).finish (.status 0)
      else formatFiles request vocabulary (collected request tree) (.start tree) := by
  rw [formatScripts, collected]
  by_cases hdirectory : tree.isDirectory (.ofString request.script) = true
  · simp only [hsearch, hdirectory, if_true, hmode, Closing.text]
  · simp [hsearch, hdirectory]

theorem formatScripts_escapes {fault : SearchFault}
    (hsearch : tree.searchFault (.ofString request.script) = some fault) (vocabulary : Vocabulary) :
    formatScripts request vocabulary tree =
      (Progress.start tree).finish (.failure (.search fault)) := by
  simp only [formatScripts, hsearch]

/-- The modes do not exclude each other, and the style is the one there is. -/
def Request.IsSound (request : Request) : Prop :=
  (request.check && request.inPlace) = false ∧ request.style = Format.styleName

theorem perform_of_not_sound (hsound : ¬ request.IsSound) (tree : FileTree) :
    ∃ reason, perform request tree = (Progress.start tree).fail reason := by
  rw [perform]
  split
  · exact ⟨_, rfl⟩
  next hone =>
    split
    · exact ⟨_, rfl⟩
    next hstyle => exact absurd ⟨Bool.eq_false_iff.mpr hone, not_not.mp hstyle⟩ hsound

/-- A run without a vocabulary tells why, or it does not expect the reason. -/
theorem perform_of_error (hsound : request.IsSound) {error : Vocabulary.Error}
    (herror : requestVocabulary tree request = .error error) :
    (∃ loading, error = .load loading ∧
      perform request tree = (Progress.start tree).fail loading.message) ∨
    (∀ loading, error ≠ .load loading) ∧
      perform request tree = (Progress.start tree).finish (.failure (.vocabulary error)) := by
  rw [perform, hsound.1, if_neg Bool.false_ne_true, if_neg (not_not_intro hsound.2), herror]
  cases error with
  | load error => exact .inl ⟨error, rfl, rfl⟩
  | _ => exact .inr ⟨nofun, rfl⟩

theorem perform_of_loaded (hsound : request.IsSound)
    (hloaded : requestVocabulary tree request = .ok vocabulary) :
    perform request tree = formatScripts request vocabulary tree := by
  rw [perform, hsound.1, if_neg Bool.false_ne_true, if_neg (not_not_intro hsound.2), hloaded]

/-- Without an escape, a check and a run that rewrites either fail for the same reason, or have a
vocabulary and come to the scripts. -/
theorem perform_cases (hescapes : (perform request.checking tree).escapes = false) :
    (∃ reason, perform request.checking tree = (Progress.start tree).fail reason ∧
      perform request.rewriting tree = (Progress.start tree).fail reason) ∨
    ∃ vocabulary, requestVocabulary tree request = .ok vocabulary ∧
      tree.searchFault (.ofString request.script) = none ∧
      perform request.checking tree = formatScripts request.checking vocabulary tree ∧
      perform request.rewriting tree = formatScripts request.rewriting vocabulary tree := by
  by_cases hstyle : request.style = Format.styleName
  · have hchecking : request.checking.IsSound := ⟨rfl, hstyle⟩
    have hrewriting : request.rewriting.IsSound := ⟨rfl, hstyle⟩
    cases hvocabulary : requestVocabulary tree request with
    | error error =>
      obtain ⟨reason, hload, hfail⟩ | ⟨-, hfinish⟩ := perform_of_error hchecking hvocabulary
      · obtain ⟨_, rfl, hfail'⟩ | ⟨hnot, -⟩ := perform_of_error hrewriting hvocabulary
        · cases hload
          exact .inl ⟨_, hfail, hfail'⟩
        · exact absurd hload (hnot reason)
      · rw [hfinish] at hescapes
        cases hescapes
    | ok vocabulary =>
      have hcheck := perform_of_loaded hchecking hvocabulary
      cases hsearch : tree.searchFault (.ofString request.script) with
      | none =>
        exact .inr ⟨vocabulary, rfl, rfl, hcheck, perform_of_loaded hrewriting hvocabulary⟩
      | some fault =>
        rw [hcheck, @formatScripts_escapes tree request.checking _ fault hsearch] at hescapes
        cases hescapes
  · have hfail : ∀ other : Request, other.style = request.style →
        (other.check && other.inPlace) = false → perform other tree = (Progress.start tree).fail
          ("unsupported style '" ++ request.style ++ "' (expected '" ++ Format.styleName ++
            "')") := by
      intro other hsame hmodes
      rw [perform, hmodes, if_neg Bool.false_ne_true, hsame, if_pos hstyle]
    exact .inl ⟨_, hfail _ rfl rfl, hfail _ rfl rfl⟩

/-- The files that a check reports are those that rewriting replaces, whatever the tree, the script,
the mode and the vocabulary, as long as no run ends with a fault that it does not expect. -/
theorem perform_agrees (request : Request) (proper : tree.IsProper)
    (hchecked : (perform request.checking tree).escapes = false)
    (hwritten : (perform request.rewriting tree).escapes = false) :
    ∃ changed closing, Agreement request tree changed closing (perform request.checking tree)
      (perform request.rewriting tree) := by
  obtain ⟨reason, hchecking, hrewriting⟩ |
    ⟨vocabulary, hvocabulary, hsearch, hchecking, hrewriting⟩ := perform_cases hchecked
  · rw [hchecking, hrewriting]
    exact ⟨[], .failed reason, .of_closing _ _ _ rfl String.empty_append nofun⟩
  · rw [hchecking, @formatScripts_eq tree request.checking _ rfl hsearch] at hchecked ⊢
    rw [hrewriting, @formatScripts_eq tree request.rewriting _ rfl hsearch] at hwritten ⊢
    have hcollected : collected request.checking tree = collected request tree := rfl
    have hcollected' : collected request.rewriting tree = collected request tree := rfl
    rw [hcollected] at hchecked ⊢
    rw [hcollected'] at hwritten ⊢
    by_cases hnone : (collected request tree).isEmpty = true
    · rw [if_pos hnone, if_pos hnone]
      exact ⟨[], .noScripts, .of_closing _ _ _ rfl String.empty_append fun _ => rfl⟩
    · rw [if_neg hnone] at hchecked hwritten
      rw [if_neg hnone, if_neg hnone]
      exact formatFiles_agrees proper hsearch hvocabulary hchecked hwritten

end

/-- A directory with a script that needs formatting, one that does not, and another file. -/
def sampleTree : FileTree :=
  ⟨["w"], [["w"], ["w", "d"]],
    [(["w", "d", "b.ST"], []), (["w", "d", "a.st"], Utf8.encode "a:=b".toList),
      (["w", "d", "c"], [])]⟩

theorem perform_agrees_directory :
    let request : Request := ⟨"d", .canonical, "v0", false, false, none⟩
    sampleTree.IsProper ∧ (@perform Host.plain request.checking sampleTree).escapes = false ∧
      (@perform Host.plain request.rewriting sampleTree).escapes = false ∧
      ∃ changed closing, @Agreement Host.plain request sampleTree changed closing
        (@perform Host.plain request.checking sampleTree)
        (@perform Host.plain request.rewriting sampleTree) := by
  let _ := Host.plain
  intro request
  have proper : sampleTree.IsProper := ⟨by decide, by decide, by decide, by decide⟩
  have hsearch : sampleTree.searchFault (.ofString "d") = none := by cbv
  have hdirectory : sampleTree.isDirectory (.ofString "d") = true := by cbv
  have hfiles : scriptsBelow sampleTree (.ofString "d") =
      [⟨"", ["d", "a.st"]⟩, ⟨"", ["d", "b.ST"]⟩] := by
    cbv
  have hperform : ∀ other : Request, (other.check || other.inPlace) = true → other.script = "d" →
      perform other sampleTree = formatScripts other .standard sampleTree →
      perform other sampleTree = formatFiles other .standard
        [⟨"", ["d", "a.st"]⟩, ⟨"", ["d", "b.ST"]⟩] (.start sampleTree) := by
    intro other hmode hscript hscripts
    have hcollected : collected other sampleTree = scriptsBelow sampleTree (.ofString "d") := by
      rw [collected, hscript]
      exact if_pos hdirectory
    rw [hscripts, formatScripts_eq hmode (by rw [hscript, hsearch]), hcollected, hfiles]
    rfl
  have hescapes : (perform request.checking sampleTree).escapes = false ∧
      (perform request.rewriting sampleTree).escapes = false := by
    rw [hperform _ rfl rfl (perform_of_loaded ⟨rfl, rfl⟩ rfl),
      hperform _ rfl rfl (perform_of_loaded ⟨rfl, rfl⟩ rfl)]
    decide +kernel
  exact ⟨proper, hescapes.1, hescapes.2, perform_agrees request proper hescapes.1 hescapes.2⟩

/-- A run does not expect a file that is no UTF-8, and tells nothing about it. -/
theorem run_undecodable :
    let outcome := @run Host.plain ["fmt", "a"] ⟨["w"], [["w"]], [(["w", "a"], [0xFF])]⟩
    outcome.output = "" ∧ outcome.escapes = true := by
  decide +kernel

end StructuredText.CommandLine
