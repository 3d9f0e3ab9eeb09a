import StructuredText.Proofs.CasingTwice
import StructuredText.Proofs.OpenLiterals

/-!
# Capitals that are longer than the word

Words are put in capitals where they stand, and the units of dates are looked for afterwards,
outside the spans of the text as it was. This keeps literals as long as nothing in front of them has
changed its length. A vocabulary may match letters such as `ß` whose capitals are several code
points: then the result is longer, and what was a literal may be read as a date.

Results:
1. `length_replaceOutside`: a replacement by longer texts keeps the length only if it keeps all
   lengths.
2. `Casing.apply_sameLength`: when the length is kept, and which literals are.
3. `Casing.apply_longer`: a string that is changed behind a word with longer capitals.
-/

namespace StructuredText

open Literal

/-! ## Lengths of replacements -/

section

variable {α : Type} {find : Recognizer α} {write : α → List Char} {spans : List Span}
  {text : List Char}

/-- An occurrence is what the search has read at its start. -/
theorem exists_find_of_mem (bounded : find.IsBounded) {found : Occurrence α} :
    ∀ pos skip before, found ∈ occurrencesFrom find pos skip before text →
      ∃ advance cursor n, find advance cursor = some (n, found.value) ∧
        found.start + n = found.stop := by
  induction text with
  | nil =>
    intro pos skip before hmem
    cases skip with
    | zero =>
      rw [occurrencesFrom] at hmem
      split at hmem
      next read hfind =>
        obtain rfl := List.mem_singleton.mp hmem
        have hnone : read.1 = 0 := Nat.le_zero.mp (bounded _ _ _ _ hfind)
        exact ⟨_, _, read.1, hfind, by rw [hnone, Nat.add_zero]⟩
      next => cases hmem
    | succ skip => cases hmem
  | cons c rest ih =>
    intro pos skip before hmem
    cases skip with
    | succ skip => exact ih _ _ _ hmem
    | zero =>
      rw [occurrencesFrom] at hmem
      split at hmem
      next => exact ih _ _ _ hmem
      next n value hfind =>
        rcases List.mem_cons.mp hmem with rfl | hmem
        · exact ⟨_, _, _, hfind, rfl⟩
        · exact ih _ _ _ hmem
      next value hfind =>
        rcases List.mem_cons.mp hmem with rfl | hmem
        · exact ⟨_, _, _, hfind, rfl⟩
        · split at hmem
          next n longer hlonger =>
            rcases List.mem_cons.mp hmem with rfl | hmem
            · exact ⟨_, _, _, hlonger, rfl⟩
            · exact ih _ _ _ hmem
          next => exact ih _ _ _ hmem

/-- What is written is not shorter than what it replaces. -/
def WritesLonger (write : α → List Char) (found : List (Occurrence α)) : Prop :=
  ∀ occurrence ∈ found, occurrence.stop ≤ occurrence.start + (write occurrence.value).length

theorem Substituted.length {pos : Nat} {found : List (Occurrence α)} {out : List Char}
    (h : Substituted write pos found text out) (hlonger : WritesLonger write found) :
    text.length ≤ out.length ∧ (out.length = text.length ↔ WritesSame write found) := by
  induction h with
  | done => exact ⟨Nat.le_refl _, iff_of_true rfl fun _ hmem => absurd hmem List.not_mem_nil⟩
  | replace _ ih =>
    obtain ⟨hfirst, hlater⟩ := List.forall_mem_cons.mp hlonger
    obtain ⟨hle, hiff⟩ := ih hlater
    rw [WritesSame, List.forall_mem_cons, ← WritesSame, ← hiff]
    simp only [List.length_append] at hfirst ⊢
    constructor <;> omega

theorem length_replaceOutside (bounded : find.IsBounded)
    (hlonger : WritesLonger write (freeOccurrences find spans text)) :
    text.length ≤ (replaceOutside find spans write text).length ∧
      ((replaceOutside find spans write text).length = text.length ↔
        WritesSame write (freeOccurrences find spans text)) :=
  (freeOccurrences_chained bounded spans text).substituted.length hlonger

/-! ## Literals behind words that keep their length -/

/-- Between two parts of a chain a text stays in its place, if the first part keeps lengths. -/
theorem getElem?_applyEditsFrom_of_between {first second : List (Occurrence α)} {low high k : Nat}
    (hfirst : Chained 0 low first) (hsecond : Chained high text.length second)
    (hsame : WritesSame write first) (hlow : low ≤ k) (hhigh : k < high) :
    (applyEditsFrom 0 (editsOf write (first ++ second)) text)[k]? = text[k]? := by
  have hwithin := hsecond.le
  have hlength : (text.take high).length = high := by
    rw [List.length_take]
    omega
  have hfirst' : Chained 0 (0 + (text.take high).length) first := by
    refine hfirst.of_bounds (Nat.zero_le _) fun occurrence hmem => ?_
    obtain ⟨hstart, -, hstop⟩ := hfirst.bounds occurrence hmem
    omega
  -- The text is cut at `high`, and the second part changes only what is behind.
  have hsplit := @applyEditsFrom_append_append _ write 0 first second (text.take high)
    (text.drop high) hfirst' fun occurrence hmem => by
      obtain ⟨hstart, hle, -⟩ := hsecond.bounds occurrence hmem
      omega
  have hkept := @getElem?_applyEditsFrom_of_apart _ _ _ k (hfirst'.keepLengths hsame)
    fun edit hedit => by
      obtain ⟨occurrence, hmem, rfl⟩ := List.mem_map.mp hedit
      obtain ⟨-, -, hstop⟩ := hfirst.bounds occurrence hmem
      simp only
      omega
  rw [List.getElem?_take_of_lt hhigh] at hkept
  have hlt : k < (applyEditsFrom 0 (editsOf write first) (text.take high)).length := by
    by_contra hge
    rw [List.getElem?_eq_none (by omega), eq_comm, List.getElem?_eq_none_iff] at hkept
    omega
  rw [List.take_append_drop] at hsplit
  rw [hsplit, List.getElem?_append_left hlt, hkept]

/-- A replacement keeps a span in its place if it keeps all lengths in front of it. -/
theorem getElem?_replaceOutside_of_covered (bounded : find.IsBounded) (ordered : Ordered spans)
    {span : Span} (hspan : span ∈ spans) (hwithin : span.stop ≤ text.length)
    (hsame : WritesSame write
      ((freeOccurrences find spans text).filter fun found => found.stop ≤ span.start))
    {k : Nat} (hstart : span.start ≤ k) (hstop : k < span.stop) :
    (replaceOutside find spans write text)[k]? = text[k]? := by
  have hclear : ∀ occurrence ∈ freeOccurrences find spans text,
      ¬ span.Meets occurrence.start occurrence.stop := by
    intro occurrence hmem
    rw [freeOccurrences_eq_clearOf find ordered] at hmem
    exact of_decide_eq_true (List.mem_filter.mp hmem).2 span hspan
  obtain ⟨first, second, hfound, hfirst, hsecond⟩ :=
    (freeOccurrences_chained bounded spans text).cut (Nat.zero_le _) (ordered.nonempty span hspan)
      (by omega) hclear
  rw [Nat.zero_add] at hsecond
  rw [replaceOutside, applyEdits, ← editsOf, hfound]
  refine getElem?_applyEditsFrom_of_between hfirst hsecond (fun occurrence hmem => ?_) hstart hstop
  refine hsame occurrence
    (List.mem_filter.mpr ⟨?_, decide_eq_true (hfirst.bounds occurrence hmem).2.2⟩)
  rw [hfound]
  exact List.mem_append_left _ hmem

end

/-! ## Capitals -/

/-- The capitals of some code point of the word are several. -/
def Lengthens (word : List Char) : Prop :=
  ∃ c ∈ word, 1 < (upperChars c).length

instance (word : List Char) : Decidable (Lengthens word) :=
  decidable_of_iff (word.any fun c => 1 < (upperChars c).length) (by simp [Lengthens])

theorem upperChars_length_pos (c : Char) : 0 < (upperChars c).length := by
  have hspelled : ∀ entry ∈ upperSpellings, 0 < entry.2.length := by decide
  rw [upperChars]
  split
  · split <;> exact Nat.one_pos
  · split
    next spelling hspelling =>
      obtain ⟨first, second, hentries, -⟩ := List.lookup_eq_some_iff.mp hspelling
      rw [List.length_map]
      exact hspelled (c.toNat, spelling) (hentries ▸ List.mem_append_right _ List.mem_cons_self)
    next => exact Nat.one_pos

/-- Capitals are as long as the word, or longer if it has letters of which they are. -/
theorem length_upper (word : List Char) :
    word.length ≤ (upper word).length ∧ ((upper word).length = word.length ↔ ¬ Lengthens word) := by
  induction word with
  | nil => exact ⟨Nat.le_refl _, iff_of_true rfl (by simp [Lengthens])⟩
  | cons c rest ih =>
    obtain ⟨hle, hiff⟩ := ih
    have hpos := upperChars_length_pos c
    rw [Lengthens, List.exists_mem_cons_iff, ← Lengthens, not_or, ← hiff, upper, List.flatMap_cons,
      List.length_append, ← upper, List.length_cons]
    constructor <;> omega

namespace Casing

variable {pattern : Pattern} {text : List Char}

theorem length_of_mem {found : Occurrence Pattern.Found}
    (h : found ∈ freeOccurrences (pattern.recognize text.length) (scan text) text) :
    found.start + found.value.text.length = found.stop := by
  obtain ⟨advance, cursor, n, hfind, hstop⟩ :=
    exists_find_of_mem (pattern.recognize_isBounded text.length) 0 0 [] (List.mem_filter.mp h).1
  rw [← (Pattern.recognize_eq_some hfind).2.1, hstop]

/-- A match is as long in capitals exactly if none of its letters has longer ones. -/
theorem length_upper_of_mem {found : Occurrence Pattern.Found}
    (h : found ∈ freeOccurrences (pattern.recognize text.length) (scan text) text) :
    found.stop ≤ found.start + (upper found.value.text).length ∧
      (found.start + (upper found.value.text).length = found.stop ↔
      ¬ Lengthens found.value.text) := by
  obtain ⟨hle, hiff⟩ := length_upper found.value.text
  rw [← hiff, ← length_of_mem h]
  constructor <;> omega

theorem length_capitals (pattern : Pattern) (text : List Char) :
    text.length ≤ (capitals pattern text).length ∧
      ((capitals pattern text).length = text.length ↔
        ∀ found ∈ freeOccurrences (pattern.recognize text.length) (scan text) text,
          ¬ Lengthens found.value.text) := by
  obtain ⟨hle, hiff⟩ := @length_replaceOutside _ _ (fun found => upper found.text) (scan text) text
    (pattern.recognize_isBounded text.length) fun found hfound => (length_upper_of_mem hfound).1
  exact ⟨hle, hiff.trans (forall₂_congr fun found hfound => (length_upper_of_mem hfound).2)⟩

theorem length_units (spans : List Span) (text : List Char) :
    (replaceOutside (.ofReader dateUnits) spans id text).length = text.length := by
  have hsame : WritesSame id (freeOccurrences (.ofReader dateUnits) spans text) :=
      fun found hfound =>
    writesInPlace_dateUnits text found (List.mem_filter.mp hfound).1
  exact (length_replaceOutside dateUnits_spec.isProper.isBounded
    fun found hfound => (hsame found hfound).ge).2.mpr hsame

/-- A literal with no longer capitals in front of it is kept, as both steps leave its span out. -/
theorem getElem?_applyPattern_of_covered {span : Span} (hspan : span ∈ scan text)
    (hsame : ∀ found ∈ freeOccurrences (pattern.recognize text.length) (scan text) text,
      found.stop ≤ span.start → ¬ Lengthens found.value.text)
    {k : Nat} (hstart : span.start ≤ k) (hstop : k < span.stop) :
    (applyPattern pattern text)[k]? = text[k]? := by
  obtain ⟨-, -, -, hwithin, -⟩ := exists_literal_of_mem_scan hspan
  have hcapitals : (capitals pattern text)[k]? = text[k]? := by
    rw [capitals, Pattern.replaceOutside]
    refine getElem?_replaceOutside_of_covered (pattern.recognize_isBounded text.length)
      (scan_ordered text) hspan hwithin (fun found hfound => ?_) hstart hstop
    obtain ⟨hfree, hbefore⟩ := List.mem_filter.mp hfound
    exact (length_upper_of_mem hfree).2.mpr (hsame found hfree (of_decide_eq_true hbefore))
  rw [applyPattern_eq, ← hcapitals]
  refine getElem?_replaceOutside_of_apart dateUnits_spec.isProper (writesInPlace_dateUnits _)
    fun found hfound hcovered => ?_
  rw [freeOccurrences_eq_clearOf _ (scan_ordered text)] at hfound
  refine of_decide_eq_true (List.mem_filter.mp hfound).2 span hspan ?_
  rw [Span.Meets, if_neg (by omega)]
  exact ⟨k, hcovered.2, hcovered.1, hstart, hstop⟩

/-- The result is never shorter, and of the same length exactly if the capitals of all words are as
long as the words. A literal is kept in its place if this holds of the words in front of it. -/
theorem apply_sameLength [Host] {vocabulary : Vocabulary}
    (hpattern : vocabulary.casingPattern = .ok pattern) (text : List Char) :
    ∃ cased, apply vocabulary text = .ok cased ∧ text.length ≤ cased.length ∧
      (cased.length = text.length ↔
        ∀ found ∈ freeOccurrences (pattern.recognize text.length) (scan text) text,
          ¬ Lengthens found.value.text) ∧
      ∀ span ∈ scan text,
        (∀ found ∈ freeOccurrences (pattern.recognize text.length) (scan text) text,
          found.stop ≤ span.start → ¬ Lengthens found.value.text) →
        span.text cased = span.text text := by
  refine ⟨applyPattern pattern text, by rw [apply, hpattern]; rfl, ?_, ?_,
    fun span hspan hsame => ?_⟩
  · rw [applyPattern_eq, length_units]
    exact (length_capitals pattern text).1
  · rw [applyPattern_eq, length_units]
    exact (length_capitals pattern text).2
  · have hlt := (scan_ordered text).nonempty span hspan
    rw [Span.text, Span.text, ← Nat.add_sub_cancel' hlt.le]
    exact slice_congr fun i hi =>
      getElem?_applyPattern_of_covered hspan hsame (Nat.le_add_right _ _) (by omega)

/-- In `'a' ß` the result is longer, and the string in front of the word is kept. -/
theorem apply_sameLength_front :
    let vocabulary : Vocabulary := ⟨[], ["(?x: ß )"], [], []⟩
    let text := "'a' ß".toList
    ∃ pattern cased, @Vocabulary.casingPattern Host.plain vocabulary = .ok pattern ∧
      @apply Host.plain vocabulary text = .ok cased ∧ cased.length ≠ text.length ∧
      slice cased 0 3 = "'a'".toList := by
  intro vocabulary text
  obtain ⟨cased, hcased, -, hlength, hspans⟩ :=
    @apply_sameLength _ Host.plain vocabulary rfl text
  refine ⟨_, cased, rfl, hcased, hlength.not.mpr ?_, ?_⟩
  · decide +kernel
  · exact hspans ⟨0, 3, .string⟩ (by decide +kernel) (by decide +kernel)

/-- Six letters with capitals of two code points push a string out of its span, and the hours of the
date that it spells are written in small letters. -/
theorem apply_longer :
    let vocabulary : Vocabulary := ⟨[], ["ß+"], [], []⟩
    let text := "ßßßßßß'T#1H'".toList
    let cased := "SSSSSSSSSSSS'T#1h'".toList
    @Vocabulary.IsValid Host.plain vocabulary ∧ scan text = [⟨6, 12, .string⟩] ∧
      @apply Host.plain vocabulary text = .ok cased ∧ cased.length ≠ text.length := by
  refine ⟨by decide +kernel, by decide +kernel, ?_, by decide +kernel⟩
  rfl

end Casing

end StructuredText
