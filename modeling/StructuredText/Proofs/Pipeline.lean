import StructuredText.Format
import StructuredText.Proofs.Calls
import StructuredText.Proofs.Indenting
import StructuredText.Proofs.Joining
import StructuredText.Proofs.Padding

/-!
# The passes of formatting

Formatting runs a list of passes, one after another. What each pass keeps of every text is kept by
all of them.

Results:
1. `canonical_eq`: the canonical form is the result of the passes.
2. `runPasses_rel`: what each pass keeps, all passes keep.
3. `passes_outline`: each pass keeps skeleton and word joints.
4. `canonical_skeleton`: formatting changes blanks and letter case only.
-/

namespace StructuredText.Format

open Literal

/-- A pass takes a text to another. -/
abbrev Pass := List Char → Except Pattern.Fault (List Char)

/-- The passes before comments are padded. -/
def earlyPasses [Host] (vocabulary : Vocabulary) : List Pass :=
  [Casing.apply vocabulary, fun text => .ok (Spacing.collapse text),
   Spacing.closeCalls vocabulary, fun text => .ok (Spacing.spaceParentheses text)]

/-- The passes on blanks inside lines behind the padding of comments. -/
def spacingPasses : List Pass :=
  [fun text => .ok (Spacing.spaceOperators text), fun text => .ok (Spacing.trimLineEnds text),
   fun text => .ok (Spacing.tightenColons text)]

/-- The passes on lines behind the line breaks that end blocks. -/
def linePasses : List Pass :=
  [fun text => .ok (LineBreak.reduceBlankLines text), fun text => .ok (Indentation.apply text),
   fun text => .ok (Header.joinAll Header.families text)]

/-- All passes but the first, which normalises line breaks. -/
def passes [Host] (vocabulary : Vocabulary) : List Pass :=
  earlyPasses vocabulary ++ (fun text => .ok (Spacing.padComments text)) :: spacingPasses ++
    (fun text => .ok (LineBreak.breakBlocks text)) :: linePasses

/-- Runs passes one after another. -/
def runPasses (passes : List Pass) (text : List Char) : Except Pattern.Fault (List Char) :=
  passes.foldlM (fun text pass => pass text) text

theorem runPasses_nil (text : List Char) : runPasses [] text = .ok text :=
  rfl

theorem runPasses_cons (pass : Pass) (passes : List Pass) (text : List Char) :
    runPasses (pass :: passes) text = (pass text).bind (runPasses passes) :=
  rfl

theorem runPasses_append (first second : List Pass) (text : List Char) :
    runPasses (first ++ second) text = (runPasses first text).bind (runPasses second) :=
  List.foldlM_append

/-- The canonical form is the result of the passes. -/
theorem canonical_eq [Host] (vocabulary : Vocabulary) (file : String) (text : List Char) :
    (canonical vocabulary file text).map (·.text) =
      runPasses (passes vocabulary) (normalizeNewlines text) := by
  unfold canonical passes earlyPasses spacingPasses linePasses Spacing.normalize
  simp only [List.cons_append, List.nil_append, runPasses_cons, runPasses_nil, bind, Except.bind,
    pure, Except.pure]
  generalize Casing.apply vocabulary (normalizeNewlines text) = cased
  cases cased with
  | error fault => rfl
  | ok cased =>
    generalize hclosed : Spacing.closeCalls vocabulary (Spacing.collapse cased) = closed
    simp only [hclosed]
    cases closed with
    | error fault => rfl
    | ok closed =>
      simp only [Except.map, layOut, Indentation.apply]

/-- What each pass keeps, all passes keep. -/
theorem runPasses_rel {kept : List Char → List Char → Prop} (hrefl : ∀ text, kept text text)
    (htrans : ∀ first second third, kept first second → kept second third → kept first third)
    {passes : List Pass}
    (h : ∀ pass ∈ passes, ∀ text, ∃ out, pass text = .ok out ∧ kept text out) :
    ∀ text, ∃ out, runPasses passes text = .ok out ∧ kept text out := by
  induction passes with
  | nil => exact fun text => ⟨text, rfl, hrefl text⟩
  | cons pass passes ih =>
    intro text
    obtain ⟨middle, hmiddle, hkept⟩ := h pass List.mem_cons_self text
    obtain ⟨out, hout, hkept'⟩ :=
      ih (fun other hother => h other (List.mem_cons_of_mem _ hother)) middle
    exact ⟨out, by rw [runPasses_cons, hmiddle]; exact hout, htrans _ _ _ hkept hkept'⟩

/-! ## What passes keep -/

/-- The early passes change letter case or move blanks. -/
theorem earlyPasses_rel [Host] {kept : List Char → List Char → Prop}
    (hcasing : ∀ {text cased}, Casing.apply Vocabulary.standard text = .ok cased → kept text cased)
    (hmoves : ∀ {before after}, Respaced .strict before after → kept before after) :
    ∀ pass ∈ earlyPasses Vocabulary.standard, ∀ text, ∃ out, pass text = .ok out ∧
      kept text out := by
  intro pass hpass text
  simp only [earlyPasses, List.mem_cons, List.not_mem_nil, or_false] at hpass
  rcases hpass with rfl | rfl | rfl | rfl
  · obtain ⟨cased, hcased, -⟩ := Casing.apply_standard text
    exact ⟨cased, hcased, hcasing hcased⟩
  · exact ⟨_, rfl, hmoves (Spacing.collapse_respaced text)⟩
  · obtain ⟨closed, hclosed, hclose⟩ := Spacing.closeCalls_standard text
    exact ⟨closed, hclosed, hmoves hclose⟩
  · exact ⟨_, rfl, hmoves (Spacing.spaceParentheses_respaced text)⟩

theorem earlyPasses_keep [Host] : ∀ pass ∈ earlyPasses Vocabulary.standard, ∀ text,
    ∃ out, pass text = .ok out ∧ Keeps text out :=
  earlyPasses_rel Casing.apply_standard_keeps Respaced.keeps

/-- What the later passes make of a text. -/
def finish (text : List Char) : List Char :=
  let spaced := Spacing.tightenColons (Spacing.trimLineEnds (Spacing.spaceOperators text))
  Header.joinAll Header.families
    (Indentation.apply (LineBreak.reduceBlankLines (LineBreak.breakBlocks spaced)))

/-- The passes up to the padding of comments succeed on every text. -/
theorem runPasses_finish [Host] (text : List Char) :
    ∃ parted, runPasses (earlyPasses Vocabulary.standard) text = .ok parted ∧
      runPasses (passes Vocabulary.standard) text = .ok (finish (Spacing.padComments parted)) := by
  obtain ⟨parted, hparted, -⟩ := runPasses_rel Keeps.refl (fun _ _ _ => Keeps.trans)
    earlyPasses_keep text
  refine ⟨parted, hparted, ?_⟩
  rw [passes, List.append_assoc, runPasses_append, hparted]
  rfl

theorem spacingPasses_keep : ∀ pass ∈ spacingPasses, ∀ text,
    ∃ out, pass text = .ok out ∧ Keeps text out := by
  intro pass hpass text
  simp only [spacingPasses, List.mem_cons, List.not_mem_nil, or_false] at hpass
  rcases hpass with rfl | rfl | rfl
  · exact ⟨_, rfl, Spacing.spaceOperators_keeps text⟩
  · exact ⟨_, rfl, (Spacing.trimLineEnds_respaced text).keeps⟩
  · exact ⟨_, rfl, (Spacing.tightenColons_respaced text).keeps⟩

theorem linePasses_keep : ∀ pass ∈ linePasses, ∀ text,
    ∃ out, pass text = .ok out ∧ Keeps text out := by
  intro pass hpass text
  simp only [linePasses, List.mem_cons, List.not_mem_nil, or_false] at hpass
  rcases hpass with rfl | rfl | rfl
  · exact ⟨_, rfl, (LineBreak.reduceBlankLines_respaced text).keeps⟩
  · exact ⟨_, rfl, (Indentation.apply_respaced text).keeps⟩
  · exact ⟨_, rfl, (Header.joinAll_respaced text).keeps⟩

/-- The second text differs from the first in blanks, none of them between words, and in letter
case. -/
def SameOutline (before after : List Char) : Prop :=
  skeleton after = skeleton before ∧ wordJoints after = wordJoints before

theorem passes_outline [Host] : ∀ pass ∈ passes Vocabulary.standard, ∀ text,
    ∃ out, pass text = .ok out ∧ SameOutline text out := by
  have hkeeps : ∀ {passes : List Pass},
      (∀ pass ∈ passes, ∀ text, ∃ out, pass text = .ok out ∧ Keeps text out) →
      ∀ pass ∈ passes, ∀ text, ∃ out, pass text = .ok out ∧ SameOutline text out := by
    intro passes h pass hpass text
    obtain ⟨out, hout, hkeeps⟩ := h pass hpass text
    exact ⟨out, hout, hkeeps.skeleton, hkeeps.wordJoints⟩
  intro pass hpass text
  simp only [passes, List.mem_append, List.mem_cons] at hpass
  rcases hpass with (hpass | rfl | hpass) | rfl | hpass
  · exact hkeeps earlyPasses_keep pass hpass text
  · exact ⟨_, rfl, Spacing.outline_padComments text⟩
  · exact hkeeps spacingPasses_keep pass hpass text
  · have := (LineBreak.breakBlocks_respaced text).keeps
    exact ⟨_, rfl, this.skeleton, this.wordJoints⟩
  · exact hkeeps linePasses_keep pass hpass text

/-- A run that is checked by evaluation succeeds. -/
theorem exists_ok_of_any {α ε : Type} {result : Except ε α} {p : α → Bool}
    (h : result.toOption.any p = true) : ∃ value, result = .ok value ∧ p value = true := by
  cases result with
  | error fault => cases h
  | ok value => exact ⟨value, rfl, h⟩

/-- Formatting succeeds with the result of the passes. -/
theorem canonical_of_runPasses [Host] {vocabulary : Vocabulary} {text out : List Char}
    (h : runPasses (passes vocabulary) (normalizeNewlines text) = .ok out) (file : String) :
    ∃ formatted, canonical vocabulary file text = .ok formatted ∧ formatted.text = out := by
  rw [← canonical_eq vocabulary file] at h
  cases hformatted : canonical vocabulary file text with
  | error fault =>
    rw [hformatted] at h
    cases h
  | ok formatted =>
    rw [hformatted] at h
    cases h
    exact ⟨formatted, rfl, rfl⟩

theorem canonical_outline [Host] (file : String) (text : List Char) :
    ∃ formatted, canonical Vocabulary.standard file text = .ok formatted ∧
      SameOutline text formatted.text := by
  obtain ⟨out, hout, hskeleton, hjoints⟩ := runPasses_rel (fun _ => ⟨rfl, rfl⟩)
    (fun _ _ _ h h' => ⟨h'.1.trans h.1, h'.2.trans h.2⟩) passes_outline (normalizeNewlines text)
  obtain ⟨formatted, hformatted, rfl⟩ := canonical_of_runPasses hout file
  refine ⟨formatted, hformatted, ?_, ?_⟩
  · rw [hskeleton, skeleton_normalizeNewlines]
  · rw [hjoints, wordJoints_normalizeNewlines]

/-- Formatting changes blanks and letter case only: the code points that are not blank, each in
capitals, are the same before and behind each pass, and so before and behind all of them. -/
theorem canonical_skeleton [Host] :
    (∀ pass ∈ passes Vocabulary.standard, ∀ text,
      ∃ out, pass text = .ok out ∧ skeleton out = skeleton text) ∧
    ∀ file text, ∃ formatted, canonical Vocabulary.standard file text = .ok formatted ∧
      (canonical Vocabulary.standard file text).map (·.text) =
        runPasses (passes Vocabulary.standard) (normalizeNewlines text) ∧
      skeleton formatted.text = skeleton text := by
  refine ⟨fun pass hpass text => ?_, fun file text => ?_⟩
  · obtain ⟨out, hout, hskeleton, -⟩ := passes_outline pass hpass text
    exact ⟨out, hout, hskeleton⟩
  · obtain ⟨formatted, hformatted, hskeleton, -⟩ := canonical_outline file text
    exact ⟨formatted, hformatted, canonical_eq _ file text, hskeleton⟩

end StructuredText.Format
