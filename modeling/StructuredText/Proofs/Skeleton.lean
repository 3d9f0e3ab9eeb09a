import StructuredText.Proofs.Respacing
import StructuredText.Text.Newline

/-!
# What formatting keeps

The skeleton of a text are its code points that are not blank, each in capitals. The word joints of
a text tell, for each two neighbours among these that are both word characters, whether blanks stand
between them. Formatting keeps both: it changes only blanks and the case of letters, and neither
splits nor joins words.

Results:
1. `skeleton_of_forall₂`, `wordJoints_of_forall₂`: the case of letters does not matter.
2. `skeleton_normalizeNewlines`, `wordJoints_normalizeNewlines`: nor does the way to write line
   breaks.
3. `Move.skeleton_eq`, `Move.wordJoints_eq`: moves keep both.
-/

namespace StructuredText

open List

variable {cells cells' : List Cell} {c : Char} {licence : Licence} {text : List Char}

/-- The code points of a text that are not blank, each in capitals. -/
def skeleton (text : List Char) : List (List Char) :=
  (text.filter fun c => !isBlank c).map upperChars

/-- Whether two neighbours are apart, if both are word characters. -/
def joint (apart : Bool) (c d : Char) : Option Bool :=
  if isWordChar c && isWordChar d then some apart else none

/-- The joints of a text behind `last`, the code point before it that is not blank. `apart` tells
whether blanks have been read since. -/
def jointsFrom (last : Option Char) (apart : Bool) : List Char → List (Option Bool)
  | [] => []
  | c :: rest =>
      if isBlank c then jointsFrom last true rest
      else last.toList.map (joint apart · c) ++ jointsFrom (some c) false rest

/-- For each two neighbours among the code points that are not blank: whether they are apart, if
both are word characters. -/
def wordJoints (text : List Char) : List (Option Bool) :=
  jointsFrom none false text

/-! ## Reading on -/

/-- What `jointsFrom` knows behind a text: the last code point that is not blank, and whether blanks
follow it. -/
def trail (last : Option Char) (apart : Bool) : List Char → Option Char × Bool
  | [] => (last, apart)
  | c :: rest => if isBlank c then trail last true rest else trail (some c) false rest

theorem jointsFrom_append (first second : List Char) (last : Option Char) (apart : Bool) :
    jointsFrom last apart (first ++ second) =
      jointsFrom last apart first ++
        jointsFrom (trail last apart first).1 (trail last apart first).2 second := by
  induction first generalizing last apart with
  | nil => rfl
  | cons c first ih =>
    simp only [cons_append, jointsFrom, trail]
    split
    · rw [ih]
    · rw [ih, append_assoc]

/-- If no blank follows the last code point that is not blank, then it is the last of all. -/
theorem getLast?_of_trail {last : Option Char} {apart : Bool}
    (h : trail last apart text = (some c, false)) :
    (text = [] ∧ last = some c ∧ apart = false) ∨ (text.getLast? = some c ∧ isBlank c = false) := by
  induction text generalizing last apart with
  | nil =>
    cases h
    exact .inl ⟨rfl, rfl, rfl⟩
  | cons d rest ih =>
    rw [trail] at h
    split at h
    · rcases ih h with ⟨-, -, hfalse⟩ | ⟨hlast, hblank⟩
      · cases hfalse
      · exact .inr ⟨by rw [getLast?_cons, hlast]; rfl, hblank⟩
    next hd =>
      rcases ih h with ⟨rfl, hlast, -⟩ | ⟨hlast, hblank⟩
      · cases hlast
        exact .inr ⟨rfl, Bool.eq_false_iff.mpr hd⟩
      · exact .inr ⟨by rw [getLast?_cons, hlast]; rfl, hblank⟩

theorem jointsFrom_blanks {gap : List Char} (hgap : ∀ c ∈ gap, isBlank c = true)
    (last : Option Char) (apart : Bool) (rest : List Char) :
    jointsFrom last apart (gap ++ rest) = jointsFrom last (apart || !gap.isEmpty) rest := by
  induction gap generalizing apart with
  | nil => simp
  | cons c gap ih =>
    rw [cons_append, jointsFrom, if_pos (hgap c mem_cons_self),
      ih fun d hd => hgap d (mem_cons_of_mem _ hd)]
    simp

/-- Blanks do not matter where words do not meet. -/
theorem jointsFrom_congr {last : Option Char}
    (h : ∀ c ∈ last, ∀ d ∈ text.head?, isBlank d = true ∨ isWordChar c = false ∨
      isWordChar d = false)
    (apart apart' : Bool) : jointsFrom last apart text = jointsFrom last apart' text := by
  cases text with
  | nil => rfl
  | cons d rest =>
    rw [jointsFrom, jointsFrom]
    split
    · rfl
    next hd =>
      cases last with
      | none => rfl
      | some c =>
        have : joint apart c d = joint apart' c d := by
          rcases h c rfl d rfl with hblank | hc | hd
          · exact absurd hblank hd
          · simp [joint, hc]
          · simp [joint, hd]
        simp [this]

theorem isWordChar_of_isSeparator (h : licence.isSeparator c = true) : isWordChar c = false := by
  simp only [Licence.isSeparator, Bool.or_eq_true, Bool.and_eq_true, beq_iff_eq] at h
  rcases h with (rfl | rfl) | ⟨-, rfl⟩ <;> decide

/-! ## Moves -/

theorem Move.skeleton_eq (h : Move licence cells cells') :
    skeleton (chars cells') = skeleton (chars cells) := by
  cases h with
  | mk hgap hgap' =>
    have hnone : ∀ {text : List Char}, (∀ c ∈ text, isBlank c = true) →
        (text.filter fun c => !isBlank c) = [] := by
      intro text htext
      simpa using htext
    simp only [skeleton, chars_append, chars_codeCells, filter_append, hnone hgap,
      hnone (isBlank_of_layout hgap')]

/-- Where blanks are put in or go, words do not meet. -/
theorem Move.wordJoints_eq (h : Move licence cells cells') :
    wordJoints (chars cells') = wordJoints (chars cells) := by
  cases h with
  | @mk left right gap gap' hgap hgap' hright hopens hcloses hline =>
    simp only [wordJoints, chars_append, chars_codeCells, append_assoc, jointsFrom_append,
      jointsFrom_blanks hgap, jointsFrom_blanks (isBlank_of_layout hgap')]
    congr 1
    generalize htrail : trail none false (chars left) = state
    obtain ⟨last, apart⟩ := state
    cases apart with
    | true => rfl
    | false =>
      by_cases hsame : gap.isEmpty = gap'.isEmpty
      · rw [hsame]
      refine jointsFrom_congr ?_ _ _
      rintro c rfl d hd
      obtain ⟨hc, hblank⟩ : (chars left).getLast? = some c ∧ isBlank c = false := by
        rcases getLast?_of_trail htrail with ⟨-, hnone, -⟩ | hlast
        · cases hnone
        · exact hlast
      cases gap with
      | nil =>
        cases gap' with
        | nil => exact absurd rfl hsame
        | cons _ _ => exact .inr ((hopens rfl (cons_ne_nil _ _)).words c hc d hd)
      | cons _ _ =>
        cases gap' with
        | cons _ _ => exact absurd rfl hsame
        | nil =>
          rcases hcloses (cons_ne_nil _ _) rfl with hlast | hfirst
          · rw [hlast c hc] at hblank
            cases hblank
          · exact (hfirst d hd).imp_right fun hsep => .inr (isWordChar_of_isSeparator hsep)

theorem Respacing.skeleton_eq (h : Respacing licence cells cells') :
    skeleton (chars cells') = skeleton (chars cells) := by
  induction h with
  | refl => rfl
  | tail _ hmove ih => rw [hmove.skeleton_eq, ih]

theorem Respacing.wordJoints_eq (h : Respacing licence cells cells') :
    wordJoints (chars cells') = wordJoints (chars cells) := by
  induction h with
  | refl => rfl
  | tail _ hmove ih => rw [hmove.wordJoints_eq, ih]

/-! ## Letter case and line breaks -/

theorem Recased.isBlank_eq {d : Char} (h : Recased c d) : isBlank c = isBlank d := by
  refine h.eq_of_letter fun e he => ?_
  by_contra hblank
  rw [Bool.not_eq_false] at hblank
  simp [isLetter, isWordChar_of_isBlank hblank] at he

theorem skeleton_of_forall₂ {text' : List Char} (h : List.Forall₂ Recased text text') :
    skeleton text' = skeleton text := by
  rw [skeleton, skeleton]
  induction h with
  | nil => rfl
  | cons hcd _ ih =>
    rw [filter_cons, filter_cons, hcd.isBlank_eq]
    split
    · rw [map_cons, map_cons, ih, hcd.upperChars_eq]
    · exact ih

theorem wordJoints_of_forall₂ {text' : List Char} (h : List.Forall₂ Recased text text') :
    wordJoints text' = wordJoints text := by
  -- The last code point read may differ in case as well.
  have hfrom : ∀ {last last' : Option Char} (apart : Bool), Option.Rel Recased last last' →
      jointsFrom last' apart text' = jointsFrom last apart text := by
    induction h with
    | nil => exact fun _ _ => rfl
    | @cons c d rest rest' hcd _ ih =>
      intro last last' apart hlast
      rw [jointsFrom, jointsFrom, hcd.isBlank_eq]
      split
      · exact ih true hlast
      · rw [ih false (.some hcd)]
        congr 1
        cases hlast with
        | none => rfl
        | some hlast => simp [joint, hlast.isWordChar_eq, hcd.isWordChar_eq]
  exact hfrom false .none

theorem skeleton_normalizeNewlines (text : List Char) :
    skeleton (normalizeNewlines text) = skeleton text := by
  have hblank : isBlank '\n' = true ∧ isBlank '\r' = true := by decide
  rw [skeleton, skeleton]
  fun_induction normalizeNewlines text with
  | case1 => rfl
  | case2 rest ih => simpa [hblank] using ih
  | case3 c rest _ ih =>
    by_cases hc : c = '\r'
    · simpa [hc, hblank] using ih
    · simp only [if_neg hc, filter_cons]
      split <;> simp [ih]

theorem wordJoints_normalizeNewlines (text : List Char) :
    wordJoints (normalizeNewlines text) = wordJoints text := by
  have hblank : isBlank '\n' = true ∧ isBlank '\r' = true := by decide
  have hfrom : ∀ last apart,
      jointsFrom last apart (normalizeNewlines text) = jointsFrom last apart text := by
    fun_induction normalizeNewlines text with
    | case1 => exact fun _ _ => rfl
    | case2 rest ih =>
      intro last apart
      simp [jointsFrom, hblank, ih]
    | case3 c rest _ ih =>
      intro last apart
      by_cases hc : c = '\r'
      · simp [jointsFrom, hc, hblank, ih]
      · simp [jointsFrom, hc, ih]
  exact hfrom none false

end StructuredText
