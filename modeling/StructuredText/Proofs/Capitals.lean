import StructuredText.Proofs.BlockEnds
import StructuredText.Proofs.CasedWords
import StructuredText.Proofs.Gaps
import StructuredText.Proofs.SteadyEdits

/-!
# Words in capitals

The words that count are written in capitals, unless they meet a literal, and all other words are
kept. The text in capitals depends on which words count and on nothing else.

Results:
1. `getElem?_replaceOutside_of_mem`, `getElem?_replaceOutside_of_apart`: where replacements that
   keep lengths change a text.
2. `Vocabulary.capitalised`: the words of a text in capitals.
3. `Capitalised.unique`: two vocabularies with the same words give the same text.
-/

namespace StructuredText

open List Literal

variable {text left word right out : List Char} {length start : Nat}

/-! ## Replacements that keep lengths -/

section

variable {α : Type} {find : Recognizer α} {spans : List Span} {write : α → List Char}
  {text : List Char}

/-- What is written is as long as what it replaces. -/
def WritesSame (write : α → List Char) (found : List (Occurrence α)) : Prop :=
  ∀ occurrence ∈ found, occurrence.start + (write occurrence.value).length = occurrence.stop

theorem Chained.keepLengths {pos : Nat} {found : List (Occurrence α)}
    (h : Chained pos (pos + length) found) (hsame : WritesSame write found) :
    KeepLengths pos length (editsOf write found) where
  apart := pairwise_map.mpr h.pairwise
  within := by
    intro edit hedit
    obtain ⟨occurrence, hmem, rfl⟩ := mem_map.mp hedit
    obtain ⟨hstart, -, hstop⟩ := h.bounds occurrence hmem
    exact ⟨hstart, hstop⟩
  same := by
    intro edit hedit
    obtain ⟨occurrence, hmem, rfl⟩ := mem_map.mp hedit
    exact hsame occurrence hmem

/-- What is written for the occurrences is as long as they are. -/
def WritesInPlace (find : Recognizer α) (write : α → List Char) (text : List Char) : Prop :=
  ∀ found ∈ occurrences find text, found.start + (write found.value).length = found.stop

theorem freeOccurrences_chained (bounded : find.IsBounded) (spans : List Span) (text : List Char) :
    Chained 0 (0 + text.length) (freeOccurrences find spans text) := by
  rw [Nat.zero_add]
  exact (occurrences_chained bounded text).filter _

theorem WritesInPlace.keepLengths (proper : find.IsProper) (h : WritesInPlace find write text) :
    KeepLengths 0 text.length ((freeOccurrences find spans text).map fun found =>
      ⟨found.start, found.stop, write found.value⟩) :=
  (freeOccurrences_chained proper.isBounded spans text).keepLengths fun found hfound =>
    h found (mem_filter.mp hfound).1

theorem getElem?_replaceOutside_of_mem (proper : find.IsProper) (h : WritesInPlace find write text)
    {found : Occurrence α} (hfound : found ∈ freeOccurrences find spans text) {k : Nat}
    (hstart : found.start ≤ k) (hstop : k < found.stop) :
    (replaceOutside find spans write text)[k]? = (write found.value)[k - found.start]? := by
  have hmem := mem_map_of_mem (f := fun found : Occurrence α =>
    (⟨found.start, found.stop, write found.value⟩ : Edit)) hfound
  rw [replaceOutside, applyEdits, getElem?_applyEditsFrom_of_mem (h.keepLengths proper) hmem
    (by simpa using hstart) (by simpa using hstop), Nat.zero_add]

theorem getElem?_replaceOutside_of_apart (proper : find.IsProper)
    (h : WritesInPlace find write text) {k : Nat}
    (hapart : ∀ found ∈ freeOccurrences find spans text, ¬ (found.start ≤ k ∧ k < found.stop)) :
    (replaceOutside find spans write text)[k]? = text[k]? := by
  refine getElem?_applyEditsFrom_of_apart (h.keepLengths proper) fun edit hedit => ?_
  obtain ⟨found, hfound, rfl⟩ := mem_map.mp hedit
  rw [Nat.zero_add]
  exact hapart found hfound

end

/-! ## Words of a text -/

/-- A word, where it stands in a text. -/
structure WordAt (text left word right : List Char) : Prop where
  eq : text = left ++ (word ++ right)
  isWord : IsWord left.reverse word right

theorem WordAt.apart {left' word' right' : List Char} (h : WordAt text left word right)
    (h' : WordAt text left' word' right') (hlt : left.length < left'.length) :
    left.length + word.length < left'.length := by
  by_contra hle
  obtain ⟨first, rfl, hrest⟩ :=
    append_eq_append_of_length_le (h.eq.symm.trans h'.eq) (Nat.le_of_lt hlt)
  rw [length_append] at hlt hle
  obtain ⟨second, rfl, -⟩ := append_eq_append_of_length_le hrest.symm (by omega)
  -- The code point before the second word is part of the first one.
  obtain ⟨init, c, rfl⟩ := (eq_nil_or_concat first).resolve_left (by rintro rfl; simp at hlt)
  have hstarts := h'.isWord.starts
  have hc := h.isWord.isWordChar c (by simp)
  simp [startsWithWordChar, hc] at hstarts

theorem IsWord.takeWhile_eq {before rest : List Char} (h : IsWord before word rest) :
    (word ++ rest).takeWhile StructuredText.isWordChar = word := by
  have hends : ∀ c ∈ rest.head?, StructuredText.isWordChar c = false := by
    intro c hc
    obtain ⟨rest, rfl⟩ := head?_eq_some_iff.mp hc
    exact h.ends
  rw [takeWhile_append_of_head hends, takeWhile_eq_self_iff]
  exact h.isWordChar

theorem WordAt.unique {left' word' right' : List Char} (h : WordAt text left word right)
    (h' : WordAt text left' word' right') (heq : left.length = left'.length) :
    left = left' ∧ word = word' ∧ right = right' := by
  obtain ⟨rfl, hrest⟩ := append_inj (h.eq.symm.trans h'.eq) heq
  obtain rfl : word = word' := by
    rw [← h.isWord.takeWhile_eq, hrest, h'.isWord.takeWhile_eq]
  exact ⟨rfl, rfl, append_cancel_left hrest⟩

theorem startsWithWordChar_dropWhile (text : List Char) :
    startsWithWordChar (text.dropWhile isWordChar) = false := by
  induction text with
  | nil => rfl
  | cons c rest ih =>
    rw [dropWhile_cons]
    split
    next => exact ih
    next hc => exact Bool.eq_false_iff.mpr hc

/-- Every word character is part of a word. -/
theorem exists_wordAt {before after : List Char} {c : Char} (hc : isWordChar c = true) :
    ∃ left word right, WordAt (before ++ c :: after) left word right ∧
      left.length ≤ before.length ∧ before.length < left.length + word.length := by
  have hsplit := @takeWhile_append_dropWhile _ isWordChar before.reverse
  refine ⟨(before.reverse.dropWhile isWordChar).reverse,
    (before.reverse.takeWhile isWordChar).reverse ++ c :: after.takeWhile isWordChar,
    after.dropWhile isWordChar, ⟨?_, ⟨by simp, ?_, ?_, startsWithWordChar_dropWhile after⟩⟩, ?_, ?_⟩
  · rw [append_assoc, cons_append, takeWhile_append_dropWhile, ← append_assoc,
      ← reverse_append, hsplit, reverse_reverse]
  · intro d hd
    simp only [mem_append, mem_reverse, mem_cons] at hd
    rcases hd with hd | rfl | hd
    · exact mem_takeWhile_imp hd
    · exact hc
    · exact mem_takeWhile_imp hd
  · rw [reverse_reverse]
    exact startsWithWordChar_dropWhile _
  · have hlength := congrArg List.length hsplit
    simp only [length_append, length_reverse] at hlength ⊢
    omega
  · have hlength := congrArg List.length hsplit
    simp only [length_append, length_reverse, length_cons] at hlength ⊢
    omega

/-! ## The words that are found -/

namespace Vocabulary

open Pattern

variable {vocabulary : Vocabulary} {pattern : Pattern} {text : List Char}

/-- A word that counts is found, perhaps with a number sign. -/
structure FindsWord [Host] (vocabulary : Vocabulary) (text : List Char) (found : Occurrence Found)
    (left word right : List Char) : Prop where
  wordAt : WordAt text left word right
  counts : Counts vocabulary word right
  start : found.start = left.length
  stop : found.stop = found.start + found.value.text.length
  value : found.value.text = word ∨ found.value.text = word ++ ['#'] ∧ right.head? = some '#'

/-- What is found is a word that counts. -/
theorem exists_findsWord [Host] (h : vocabulary.OfWords)
    (hpattern : vocabulary.casingPattern = .ok pattern)
    {found : Occurrence Found} (hfound : found ∈ occurrences (pattern.recognize text.length) text) :
    ∃ left word right, FindsWord vocabulary text found left word right := by
  obtain ⟨-, hconsumes, -⟩ := h.searchable hpattern
  obtain ⟨gap, block, last, htext, hstart, hstop, hfind⟩ :=
    mem_occurrencesFrom (recognize_isProper hconsumes) text 0 0 [] hfound
  obtain ⟨word, rest, hafter, hword, hcounts, hlength, hvalue⟩ := recognize_casing h hpattern hfind
  rw [Nat.zero_add] at hstart
  rw [append_nil] at hword
  refine ⟨gap, word, rest, ⟨?_, hword⟩, hcounts, hstart, ?_, hvalue⟩
  · rw [htext, show block ++ last = _ from hafter]
  · rw [hstop, hlength]

/-- Every word that counts is found. -/
theorem exists_occurrence [Host] (h : vocabulary.OfWords)
    (hpattern : vocabulary.casingPattern = .ok pattern)
    (hword : WordAt text left word right) (hcounts : Counts vocabulary word right) :
    ∃ found ∈ occurrences (pattern.recognize text.length) text, found.start = left.length := by
  obtain ⟨-, hconsumes, hreads⟩ := h.searchable hpattern
  have proper : (pattern.recognize text.length).IsProper := recognize_isProper hconsumes
  have hsize : (word ++ right).length ≤ text.length := by
    have hlength := congrArg List.length hword.eq
    rw [length_append] at hlength
    omega
  obtain ⟨⟨n, value⟩, hfind⟩ := Option.ne_none_iff_exists'.mp
    (recognize_casing_ne_none h hpattern hword.isWord hcounts hsize left.length)
  have hn := (proper _ _ _ _ hfind).2
  obtain ⟨block, last, hsplit, hblock⟩ :
      ∃ block last, word ++ right = block ++ last ∧ block.length = n :=
    ⟨_, _, (List.take_append_drop n _).symm, by rw [length_take]; exact Nat.min_eq_left hn⟩
  -- Whatever is found before is a word too, which ends before this one starts.
  have hmem := @mem_occurrencesFrom_of_find _ _ proper block last value _ left 0 [] rfl
    (by rw [Nat.zero_add, append_nil, ← hsplit, hblock]; exact hfind) ?_
  · rw [Nat.zero_add, ← hsplit, ← hword.eq] at hmem
    exact ⟨_, hmem, rfl⟩
  · rintro first second length other rfl hne hother
    obtain ⟨word', rest', hafter, hword', -, hlength, hvalue⟩ := recognize_casing h hpattern hother
    rw [append_nil] at hword'
    have hat : WordAt text first word' rest' := by
      refine ⟨?_, hword'⟩
      rw [← show _ = word' ++ rest' from hafter, ← hsplit, hword.eq, append_assoc]
    have hapart := hat.apart hword (by simpa using length_pos_iff.mpr hne)
    have hle : other.text.length ≤ word'.length + 1 := by
      rcases hvalue with hvalue | ⟨hvalue, -⟩ <;> simp [hvalue]
    rw [length_append] at hapart
    omega

end Vocabulary

/-! ## Words in capitals -/

theorem slice_congr {text' : List Char} (h : ∀ i < length, text[start + i]? = text'[start + i]?) :
    slice text start (start + length) = slice text' start (start + length) := by
  apply ext_getElem?
  intro i
  by_cases hi : i < length
  · rw [getElem?_slice hi, getElem?_slice hi, h i hi]
  · rw [getElem?_eq_none (by rw [length_slice]; omega),
      getElem?_eq_none (by rw [length_slice]; omega)]

theorem slice_eq_of_forall (h : ∀ i < word.length, text[start + i]? = word[i]?) :
    slice text start (start + word.length) = word := by
  apply ext_getElem?
  intro i
  by_cases hi : i < word.length
  · rw [getElem?_slice hi, h i hi]
  · rw [getElem?_eq_none (by rw [length_slice]; omega), getElem?_eq_none (by omega)]

/-- A code point that is no part of words has no other case. -/
theorem getElem?_of_recased (h : List.Forall₂ Recased text out) {i : Nat} {c : Char}
    (hat : text[i]? = some c) (hc : isWordChar c = false) : out[i]? = some c := by
  induction h generalizing i with
  | nil => cases hat
  | @cons d e _ _ hde _ ih =>
    cases i with
    | succ i => exact ih hat
    | zero =>
      cases hat
      obtain rfl | ⟨hletter, -⟩ := hde
      · rfl
      · rw [isLetter, hc] at hletter
        cases hletter

/-- The words of the text that count for the vocabulary are in capitals, other than in literals, and
the other ones are kept. -/
structure Capitalised [Host] (vocabulary : Vocabulary) (text out : List Char) : Prop where
  recased : List.Forall₂ Recased text out
  counted : ∀ left word right, WordAt text left word right →
    Uncovered (scan text) left.length word.length → vocabulary.Counts word right →
    slice out left.length (left.length + word.length) = upper word
  kept : ∀ left word right, WordAt text left word right →
    ¬ (Uncovered (scan text) left.length word.length ∧ vocabulary.Counts word right) →
    slice out left.length (left.length + word.length) = word

section

variable [Host] {vocabulary other : Vocabulary} {out' : List Char}
  (hsame : ∀ word rest, vocabulary.Counts word rest ↔ other.Counts word rest)
  (h : Capitalised vocabulary text out) (h' : Capitalised other text out')
include hsame h h'

theorem Capitalised.slice_eq (hword : WordAt text left word right) :
    slice out left.length (left.length + word.length) =
      slice out' left.length (left.length + word.length) := by
  by_cases hcase : Uncovered (scan text) left.length word.length ∧ vocabulary.Counts word right
  · rw [h.counted left word right hword hcase.1 hcase.2,
      h'.counted left word right hword hcase.1 ((hsame word right).mp hcase.2)]
  · rw [h.kept left word right hword hcase, h'.kept left word right hword (by rwa [← hsame])]

/-- The text in capitals depends on which words count. -/
theorem Capitalised.unique : out = out' := by
  apply ext_getElem?
  intro i
  cases hat : text[i]? with
  | none =>
    rw [getElem?_eq_none_iff] at hat
    rw [getElem?_eq_none (h.recased.length_eq ▸ hat),
      getElem?_eq_none (h'.recased.length_eq ▸ hat)]
  | some c =>
    cases hc : isWordChar c with
    | false => rw [getElem?_of_recased h.recased hat hc, getElem?_of_recased h'.recased hat hc]
    | true =>
      obtain ⟨before, after, rfl, rfl⟩ :
          ∃ before after, text = before ++ c :: after ∧ before.length = i := by
        obtain ⟨hi, rfl⟩ := List.getElem?_eq_some_iff.mp hat
        refine ⟨text.take i, text.drop (i + 1), ?_, List.length_take_of_le (Nat.le_of_lt hi)⟩
        rw [List.getElem_cons_drop, List.take_append_drop]
      obtain ⟨left, word, right, hword, hle, hlt⟩ := @exists_wordAt before after c hc
      have hslice := congrArg (·[before.length - left.length]?) (h.slice_eq hsame h' hword)
      simpa only [getElem?_slice (show before.length - left.length < word.length by omega),
        Nat.add_sub_cancel' hle] using hslice

end

theorem scan_ordered (text : List Char) : Ordered (scan text) := by
  obtain ⟨cells, rfl, hmarked⟩ := exists_marked_recognize text
  rw [hmarked.scan_eq]
  exact spansFrom_ordered cells 0

/-- Strings and comments do not start with a number sign. -/
theorem uncovered_sign (hpos : 0 < length) (h : Uncovered (scan text) start length)
    (hsign : text[start + length]? = some '#') :
    Uncovered (scan text) start (length + 1) := by
  intro i hi span hspan hcovered
  have hlast := h (length - 1) (by omega) span hspan
  have hearlier : ¬ i < length := fun hi => h i hi span hspan hcovered
  obtain ⟨found, hfound, rfl⟩ := mem_map.mp hspan
  obtain ⟨gap, block, last, htext, hstart, -, hfind⟩ :=
    mem_occurrencesFrom Literal.recognize_isProper text 0 0 [] hfound
  simp only [Span.ofOccurrence] at hcovered hlast
  -- The literal would have to start at the sign.
  have hgap : gap.length = start + length := by omega
  rw [htext, getElem?_append_right (by omega), hgap, Nat.sub_self, ← head?_eq_getElem?]
    at hsign
  obtain ⟨rest, hrest⟩ := head?_eq_some_iff.mp hsign
  have hnone : literalAt ('#' :: rest) = none :=
    literalAt_eq_none_iff.mpr (opensLiteral_eq_false (by decide) _)
  rw [recognize, hrest, hnone] at hfind
  cases hfind

/-- Plain code points are as long in capitals. -/
theorem Pattern.writesInPlace_upper {pattern : Pattern}
    (hreads : pattern.readsOnly isPlainSet = true)
    (hconsumes : pattern.consumes = true) (text : List Char) :
    WritesInPlace (pattern.recognize text.length) (fun found => upper found.text) text := by
  intro found hfound
  obtain ⟨gap, block, last, -, -, hstop, hfind⟩ :=
    mem_occurrencesFrom (recognize_isProper hconsumes) text 0 0 [] hfound
  obtain ⟨hmatches, hlength, -⟩ := recognize_eq_some hfind
  have hplain := hmatches.mem_of_readsOnly (fun _ hset _ hc => (isPlain_of_holds hset hc).1) hreads
  rw [hstop, hlength, (recased_upper hplain).length_eq]

namespace Vocabulary

open Pattern

variable {found : Occurrence Found}

variable {vocabulary : Vocabulary} {pattern : Pattern}

theorem writesInPlace [Host] (h : vocabulary.OfWords)
    (hpattern : vocabulary.casingPattern = .ok pattern) (text : List Char) :
    WritesInPlace (pattern.recognize text.length) (fun found => upper found.text) text := by
  obtain ⟨-, hconsumes, hreads⟩ := h.searchable hpattern
  exact writesInPlace_upper hreads hconsumes text

theorem FindsWord.length_bounds [Host] (h : FindsWord vocabulary text found left word right) :
    left.length + word.length ≤ found.stop ∧ found.stop ≤ left.length + word.length + 1 := by
  rw [h.stop, h.start]
  rcases h.value with hvalue | ⟨hvalue, -⟩
  · rw [hvalue]
    omega
  · rw [hvalue, length_append, length_singleton]
    omega

/-- Number signs have no case. -/
theorem FindsWord.upper_eq [Host] (h : FindsWord vocabulary text found left word right) :
    ∃ more, upper found.value.text = upper word ++ more ∧
      found.value.text.length = word.length + more.length := by
  rcases h.value with hvalue | ⟨hvalue, -⟩
  · exact ⟨[], by rw [hvalue, append_nil], by rw [hvalue]; rfl⟩
  · refine ⟨['#'], ?_, by rw [hvalue, length_append]⟩
    rw [hvalue, upper, flatMap_append]
    rfl

/-- The number sign makes no difference to whether a literal is met. -/
theorem FindsWord.overlaps_eq_false_iff [Host]
    (h : FindsWord vocabulary text found left word right) :
    overlaps (scan text).toArray found.start found.stop = false ↔
      Uncovered (scan text) left.length word.length := by
  have hpos := length_pos_iff.mpr h.wordAt.isWord.ne_nil
  rcases h.value with hvalue | ⟨hvalue, hsign⟩
  · rw [h.stop, hvalue, h.start, Literal.overlaps_eq_false_iff (scan_ordered text) hpos]
  · rw [h.stop, hvalue, h.start, length_append, length_singleton,
      Literal.overlaps_eq_false_iff (scan_ordered text) (Nat.succ_pos _)]
    constructor
    · exact fun hfree i hi => hfree i (Nat.lt_succ_of_lt hi)
    · refine fun hfree => uncovered_sign hpos hfree ?_
      rw [h.wordAt.eq, getElem?_append_right (by omega), Nat.add_sub_cancel_left,
        getElem?_append_right (Nat.le_refl _), Nat.sub_self, ← head?_eq_getElem?, hsign]

theorem capitalised [Host] (h : vocabulary.OfWords)
    (hpattern : vocabulary.casingPattern = .ok pattern) (text : List Char) :
    Capitalised vocabulary text
      (pattern.replaceOutside (scan text) (fun found => upper found.text) text) := by
  obtain ⟨-, hconsumes, hreads⟩ := h.searchable hpattern
  have proper : (pattern.recognize text.length).IsProper := recognize_isProper hconsumes
  have hwrites := writesInPlace h hpattern text
  refine ⟨?_, fun left word right hword hfree hcounts => ?_, fun left word right hword hcase => ?_⟩
  · obtain ⟨cells, rfl, hmarked⟩ := exists_marked_recognize text
    obtain ⟨out, hout, hrecast⟩ := Casing.capitals_recast hreads hconsumes hmarked
    rw [hout]
    exact hrecast.chars
  · obtain ⟨found, hmem, hstart⟩ := exists_occurrence h hpattern hword hcounts
    obtain ⟨left', word', right', hfinds⟩ := exists_findsWord h hpattern hmem
    obtain ⟨rfl, rfl, rfl⟩ := hword.unique hfinds.wordAt (hstart.symm.trans hfinds.start)
    have hfound : found ∈ freeOccurrences (pattern.recognize text.length) (scan text) text :=
      mem_filter.mpr ⟨hmem, by rw [hfinds.overlaps_eq_false_iff.mpr hfree]; rfl⟩
    obtain ⟨more, hupper, hlength⟩ := hfinds.upper_eq
    have hbounds := hfinds.length_bounds
    have hwritten : found.start + (upper found.value.text).length = found.stop := hwrites found hmem
    rw [hupper, length_append] at hwritten
    have hsame : word.length = (upper word).length := by
      have := hfinds.stop
      omega
    rw [hsame]
    refine slice_eq_of_forall fun i hi => ?_
    rw [Pattern.replaceOutside,
      getElem?_replaceOutside_of_mem proper hwrites hfound (by omega) (by omega), hupper, hstart,
      Nat.add_sub_cancel_left, getElem?_append_left hi]
  · refine slice_eq_of_forall fun i hi => ?_
    rw [Pattern.replaceOutside, getElem?_replaceOutside_of_apart proper hwrites]
    · rw [hword.eq, getElem?_append_right (by omega), Nat.add_sub_cancel_left,
        getElem?_append_left hi]
    · rintro found hfound ⟨hle, hlt⟩
      obtain ⟨hmem, hfree⟩ := mem_filter.mp hfound
      obtain ⟨left', word', right', hfinds⟩ := exists_findsWord h hpattern hmem
      have hbounds := hfinds.length_bounds
      rw [hfinds.start] at hle
      rcases Nat.lt_trichotomy left.length left'.length with hlt' | heq | hlt'
      · have := hword.apart hfinds.wordAt hlt'
        omega
      · obtain ⟨rfl, rfl, rfl⟩ := hword.unique hfinds.wordAt heq
        rw [Bool.not_eq_true', hfinds.overlaps_eq_false_iff] at hfree
        exact hcase ⟨hfree, hfinds.counts⟩
      · have := hfinds.wordAt.apart hword hlt'
        omega

end Vocabulary

end StructuredText
