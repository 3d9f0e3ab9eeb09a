import StructuredText.Proofs.Capitals

/-!
# The case of words

Letter case is settled word by word. A word that counts is written in capitals and every other word
is kept, unless it is part of the units of a date or time literal, which are written in small
letters. Which entry of the vocabulary describes a word makes no difference, and the order of the
entries makes none either.

Results:
1. `dateParts_alike`: dates are found in the same places, whatever the case of letters.
2. `getElem?_dateUnits`: only the units of dates are written in small letters.
3. `Casing.apply_words`: what becomes of the words of a text.
-/

namespace StructuredText

open Literal

/-! ## Reading texts that differ in case -/

/-- The cursors stand at the same place, in texts that differ in case only. -/
structure Cursor.Alike (cursor cursor' : Cursor) : Prop where
  pos : cursor'.pos = cursor.pos
  before : List.Forall₂ Recased cursor.before cursor'.before
  after : List.Forall₂ Recased cursor.after cursor'.after

theorem Cursor.Alike.refl (cursor : Cursor) : cursor.Alike cursor :=
  ⟨rfl, List.forall₂_same.mpr fun c _ => .refl c, List.forall₂_same.mpr fun c _ => .refl c⟩

/-- A reader that reads as far in texts that differ in case only. -/
def IgnoresCase (read : Cursor → Option Cursor) : Prop :=
  ∀ cursor cursor', cursor.Alike cursor' → read cursor = none ∧ read cursor' = none ∨
    ∃ stop stop', read cursor = some stop ∧ read cursor' = some stop' ∧ stop.Alike stop'

namespace IgnoresCase

theorem bind {first second : Cursor → Option Cursor} (hfirst : IgnoresCase first)
    (hsecond : IgnoresCase second) : IgnoresCase fun cursor => (first cursor).bind second := by
  intro cursor cursor' h
  rcases hfirst cursor cursor' h with ⟨hnone, hnone'⟩ | ⟨middle, middle', hsome, hsome', hmiddle⟩
  · exact .inl ⟨by simp [hnone], by simp [hnone']⟩
  · simpa only [hsome, hsome', Option.bind_some] using hsecond middle middle' hmiddle

theorem findSome? {α : Type} {read : α → Cursor → Option Cursor} {options : List α}
    (h : ∀ option ∈ options, IgnoresCase (read option)) :
    IgnoresCase fun cursor => options.findSome? fun option => read option cursor := by
  intro cursor cursor' halike
  induction options with
  | nil => exact .inl ⟨rfl, rfl⟩
  | cons option options ih =>
    obtain ⟨hoption, hoptions⟩ := List.forall_mem_cons.mp h
    simp only [List.findSome?_cons]
    rcases hoption cursor cursor' halike with ⟨hnone, hnone'⟩ | ⟨stop, stop', hsome, hsome', hstop⟩
    · rw [hnone, hnone']
      exact ih hoptions
    · rw [hsome, hsome']
      exact .inr ⟨stop, stop', rfl, rfl, hstop⟩

end IgnoresCase

namespace Cursor

variable {p : Char → Bool}

theorem next_ignoresCase (hp : ∀ c d, Recased c d → p c = p d) : IgnoresCase (next p) := by
  rintro ⟨pos, before, after⟩ ⟨_, before', after'⟩ ⟨rfl, hbefore, hafter⟩
  rw [next, next]
  cases hafter with
  | nil => exact .inl ⟨rfl, rfl⟩
  | @cons c d rest rest' hcd hrest =>
    simp only [hp c d hcd]
    split
    · exact .inr ⟨_, _, rfl, rfl, rfl, .cons hcd hbefore, hrest⟩
    · exact .inl ⟨rfl, rfl⟩

theorem word_ignoresCase (text : List Char) : IgnoresCase (word text) := by
  induction text with
  | nil => exact fun _ _ h => .inr ⟨_, _, rfl, rfl, h⟩
  | cons c rest ih => exact (next_ignoresCase fun _ _ h => h.sameUpToCase_eq c).bind ih

theorem char_ignoresCase {c : Char} (hc : isLetter c = false) : IgnoresCase (char c) :=
  next_ignoresCase fun _ _ h => h.beq_eq hc

theorem Alike.atBoundary_eq {cursor cursor' : Cursor} (h : cursor.Alike cursor') :
    cursor.atBoundary = cursor'.atBoundary := by
  have hstarts : ∀ {text text' : List Char}, List.Forall₂ Recased text text' →
      startsWithWordChar text = startsWithWordChar text' := by
    intro text text' htext
    cases htext with
    | nil => rfl
    | cons hcd _ => exact hcd.isWordChar_eq
  rw [atBoundary, atBoundary, atWordBoundary, atWordBoundary, hstarts h.before, hstarts h.after]

theorem boundary_ignoresCase : IgnoresCase boundary := by
  intro cursor cursor' h
  rw [boundary, boundary, h.atBoundary_eq]
  split
  · exact .inr ⟨_, _, rfl, rfl, h⟩
  · exact .inl ⟨rfl, rfl⟩

theorem runFrom_alike (hp : ∀ c d, Recased c d → p c = p d) {after after' : List Char}
    (h : List.Forall₂ Recased after after') :
    ∀ pos before before', List.Forall₂ Recased before before' →
      (runFrom p pos before after).Alike (runFrom p pos before' after') := by
  induction h with
  | nil => exact fun _ _ _ hbefore => ⟨rfl, hbefore, .nil⟩
  | @cons c d rest rest' hcd hrest ih =>
    intro pos before before' hbefore
    rw [runFrom, runFrom, hp c d hcd]
    split
    · exact ih _ _ _ (.cons hcd hbefore)
    · exact ⟨rfl, hbefore, .cons hcd hrest⟩

theorem someRun_ignoresCase (hp : ∀ c d, Recased c d → p c = p d) : IgnoresCase (someRun p) := by
  intro cursor cursor' h
  rw [someRun, someRun]
  rcases next_ignoresCase hp cursor cursor' h with
    ⟨hnone, hnone'⟩ | ⟨stop, stop', hsome, hsome', hstop⟩
  · exact .inl ⟨by rw [hnone]; rfl, by rw [hnone']; rfl⟩
  · refine .inr ⟨stop.run p, stop'.run p, by rw [hsome]; rfl, by rw [hsome']; rfl, ?_⟩
    rw [run, run, hstop.pos]
    exact runFrom_alike hp hstop.after _ _ _ hstop.before

end Cursor

/-! ## Occurrences in texts that differ in case -/

/-- Where an occurrence stands. -/
def Occurrence.stretch {α : Type} (found : Occurrence α) : Nat × Nat :=
  (found.start, found.stop)

/-- Constructs that are as long at places that are alike, and are the same there through a view,
occur in the same places and are the same there. -/
theorem occurrencesFrom_views {α β γ : Type} {find : Recognizer α} {find' : Recognizer β}
    (proper : find.IsProper) (proper' : find'.IsProper) {view : α → γ} {view' : β → γ}
    (hfind : ∀ cursor cursor', cursor.Alike cursor' →
      (find false cursor).map (Prod.map id view) = (find' false cursor').map (Prod.map id view'))
    {text text' : List Char} (h : List.Forall₂ Recased text text') :
    ∀ pos skip before before', List.Forall₂ Recased before before' →
      (occurrencesFrom find pos skip before text).map (fun found =>
        (found.stretch, view found.value)) = (occurrencesFrom find' pos skip before' text').map
          fun found => (found.stretch, view' found.value) := by
  induction h with
  | nil =>
    intro pos skip before before' hbefore
    cases skip with
    | succ skip => rfl
    | zero => rw [occurrencesFrom_nil proper, occurrencesFrom_nil proper']; rfl
  | @cons c d rest rest' hcd hrest ih =>
    intro pos skip before before' hbefore
    have hlater := fun skip => ih (pos + 1) skip (c :: before) (d :: before') (.cons hcd hbefore)
    cases skip with
    | succ skip => exact hlater skip
    | zero =>
      have hlength := hfind ⟨pos, before, c :: rest⟩ ⟨pos, before', d :: rest'⟩
        ⟨rfl, hbefore, .cons hcd hrest⟩
      cases hfound : find false ⟨pos, before, c :: rest⟩ with
      | none =>
        rw [hfound, Option.map_none, eq_comm, Option.map_eq_none_iff] at hlength
        rw [occurrencesFrom_miss hfound, occurrencesFrom_miss hlength]
        exact hlater 0
      | some found =>
        obtain ⟨n, value⟩ := found
        obtain ⟨n, rfl⟩ := Nat.exists_eq_add_one.mpr (proper _ _ _ _ hfound).1
        rw [hfound, Option.map_some, eq_comm, Option.map_eq_some_iff] at hlength
        obtain ⟨⟨_, value'⟩, hfound', heq⟩ := hlength
        obtain ⟨rfl, hview⟩ := Prod.mk.inj heq
        simp only [occurrencesFrom, hfound, hfound', id, List.map_cons, hlater n, hview]
        rfl

variable {α : Type} {text : List Char}

/-- Constructs that are as long at places that are alike occur in the same places. -/
theorem occurrencesFrom_alike {β : Type} {find : Recognizer α} {find' : Recognizer β}
    (proper : find.IsProper) (proper' : find'.IsProper)
    (hfind : ∀ cursor cursor', cursor.Alike cursor' →
      (find false cursor).map Prod.fst = (find' false cursor').map Prod.fst) {text' : List Char}
    (h : List.Forall₂ Recased text text') (pos skip : Nat) (before before' : List Char)
    (hbefore : List.Forall₂ Recased before before') :
    (occurrencesFrom find pos skip before text).map Occurrence.stretch =
      (occurrencesFrom find' pos skip before' text').map Occurrence.stretch := by
  have hviews := @occurrencesFrom_views α β Unit find find' proper proper' (fun _ => ())
    (fun _ => ()) (fun cursor cursor' halike => ?_) _ _ h pos skip before before' hbefore
  · have hstretches := congrArg (List.map Prod.fst) hviews
    rwa [List.map_map, List.map_map] at hstretches
  · have hlength := congrArg (Option.map fun n => (n, ())) (hfind cursor cursor' halike)
    rwa [Option.map_map, Option.map_map] at hlength

/-- What is found at an occurrence. -/
theorem find_of_mem_occurrences {find : Recognizer α} (proper : find.IsProper)
    {found : Occurrence α} (h : found ∈ occurrences find text) :
    find false ⟨found.start, (text.take found.start).reverse, text.drop found.start⟩ =
      some (found.stop - found.start, found.value) := by
  obtain ⟨gap, block, last, rfl, hstart, hstop, hfind⟩ := mem_occurrencesFrom proper text 0 0 [] h
  rw [Nat.zero_add] at hstart
  rw [hstop, Nat.add_sub_cancel_left, hstart, List.take_left, List.drop_left, ← hstart]
  simpa using hfind

/-! ## Dates -/

namespace Casing

/-- A date or time literal, with the offset of its units. -/
def dateParts (cursor : Cursor) : Option (Cursor × Nat) :=
  (dateType cursor).bind fun behindType =>
    (behindType.someRun isDatePart).map fun stop => (stop, behindType.pos)

theorem isDatePart_eq {c d : Char} (h : Recased c d) : isDatePart c = isDatePart d := by
  have hdigit : ∀ e, isLetter e = true → (decide ('0' ≤ e) && decide (e ≤ '9')) = false := by
    intro e he
    rw [Bool.eq_false_iff, ne_eq, Bool.and_eq_true, decide_eq_true_eq, decide_eq_true_eq]
    rintro ⟨hlow, hhigh⟩
    have hascii : e.toNat < 128 := Nat.lt_of_le_of_lt hhigh (by decide)
    simp [isLetter, isDigit, hascii, hlow, hhigh] at he
  rw [isDatePart, isDatePart, h.eq_of_letter hdigit, h.beq_eq (by decide : isLetter ':' = false),
    h.beq_eq (by decide : isLetter '-' = false), h.beq_eq (by decide : isLetter '_' = false),
    h.beq_eq (by decide : isLetter '.' = false)]
  simp only [h.sameUpToCase_eq]

theorem dateType_ignoresCase : IgnoresCase dateType :=
  .findSome? fun name _ => (Cursor.boundary_ignoresCase.bind (Cursor.word_ignoresCase name)).bind
    (Cursor.char_ignoresCase (by decide))

variable {cursor cursor' : Cursor}

/-- Dates are read alike, and the text before their units is kept. -/
theorem dateParts_alike (h : cursor.Alike cursor') :
    dateParts cursor = none ∧ dateUnits cursor' = none ∨
      ∃ stop stop' units written, dateParts cursor = some (stop, units) ∧
        dateUnits cursor' = some (stop', written) ∧ stop'.pos = stop.pos ∧
        written.take (units - cursor.pos) = cursor'.after.take (units - cursor.pos) := by
  rw [dateParts, dateUnits_eq]
  rcases dateType_ignoresCase cursor cursor' h with
    ⟨hnone, hnone'⟩ | ⟨type, type', htype, htype', halike⟩
  · exact .inl ⟨by rw [hnone]; rfl, by rw [hnone']; rfl⟩
  rw [htype, htype', Option.bind_some, Option.bind_some]
  rcases Cursor.someRun_ignoresCase (fun _ _ => isDatePart_eq) type type' halike with
    ⟨hnone, hnone'⟩ | ⟨stop, stop', hstop, hstop', hstops⟩
  · exact .inl ⟨by rw [hnone]; rfl, by rw [hnone']; rfl⟩
  · refine .inr ⟨stop, stop', type.pos, _, by rw [hstop]; rfl, by rw [hstop']; rfl, hstops.pos, ?_⟩
    obtain ⟨text, hreads⟩ := dateType_reads htype'
    rw [← halike.pos, ← h.pos, hreads.upTo_eq, hreads.pos, Nat.add_sub_cancel_left, List.take_left,
      hreads.after, List.take_left]

theorem length_dateParts (h : cursor.Alike cursor') (advance : Bool) :
    (Recognizer.ofReader dateParts advance cursor).map Prod.fst =
      (Recognizer.ofReader dateUnits advance cursor').map Prod.fst := by
  rw [Recognizer.ofReader, Recognizer.ofReader]
  rcases dateParts_alike h with
    ⟨hnone, hnone'⟩ | ⟨stop, stop', units, written, hsome, hsome', hpos, -⟩
  · rw [hnone, hnone']
    rfl
  · rw [hsome, hsome']
    simp only [Option.map_some, hpos, h.pos]

/-- The text of a date before its units is kept. -/
theorem take_dateUnits (h : cursor.Alike cursor') {n n' units : Nat} {written : List Char}
    (hparts : Recognizer.ofReader dateParts false cursor = some (n, units))
    (hwritten : Recognizer.ofReader dateUnits false cursor' = some (n', written)) :
    written.take (units - cursor.pos) = cursor'.after.take (units - cursor.pos) := by
  obtain ⟨stop, hparts, -⟩ := ofReader_eq_some.mp hparts
  obtain ⟨stop', hwritten, -⟩ := ofReader_eq_some.mp hwritten
  rcases dateParts_alike h with ⟨hnone, -⟩ | ⟨_, _, _, _, hsome, hsome', -, htake⟩
  · cases hparts.symm.trans hnone
  · cases hparts.symm.trans hsome
    cases hwritten.symm.trans hsome'
    exact htake

theorem dateParts_isProper : (Recognizer.ofReader dateParts).IsProper := by
  intro advance cursor n value hfound
  have hlength := length_dateParts (.refl cursor) advance
  rw [hfound, Option.map_some, eq_comm, Option.map_eq_some_iff] at hlength
  obtain ⟨⟨_, written⟩, hfound', rfl⟩ := hlength
  exact dateUnits_spec.isProper _ _ _ _ hfound'

theorem writesInPlace_dateUnits (text : List Char) :
    WritesInPlace (Recognizer.ofReader dateUnits) id text := by
  intro found hfound
  obtain ⟨gap, block, last, -, -, hstop, hfind⟩ :=
    mem_occurrencesFrom dateUnits_spec.isProper text 0 0 [] hfound
  obtain ⟨stop, hread, hlength⟩ := ofReader_eq_some.mp hfind
  obtain ⟨read, hreads, -, hwritten⟩ := dateUnits_spec _ _ _ hread
  rw [hreads.pos, Nat.add_sub_cancel_left, hwritten.length_eq] at hlength
  rw [hstop, hlength, id]

/-- Small letters are written in the units of dates only. -/
theorem getElem?_dateUnits {text cased : List Char} (h : List.Forall₂ Recased text cased)
    {spans : List Span} {k : Nat}
    (hk : ∀ found ∈ freeOccurrences (.ofReader dateParts) spans text,
      ¬ (found.value ≤ k ∧ k < found.stop)) :
    (replaceOutside (.ofReader dateUnits) spans id cased)[k]? = cased[k]? := by
  by_cases hapart : ∀ found ∈ freeOccurrences (.ofReader dateUnits) spans cased,
      ¬ (found.start ≤ k ∧ k < found.stop)
  · exact getElem?_replaceOutside_of_apart dateUnits_spec.isProper (writesInPlace_dateUnits cased)
      hapart
  · obtain ⟨found', hfound', hcovered⟩ : ∃ found ∈ freeOccurrences (.ofReader dateUnits)
        spans cased, found.start ≤ k ∧ k < found.stop := by
      simpa using hapart
    rw [getElem?_replaceOutside_of_mem
      dateUnits_spec.isProper (writesInPlace_dateUnits cased) hfound' hcovered.1 hcovered.2]
    obtain ⟨hmem', hfree⟩ := List.mem_filter.mp hfound'
    -- The date stands at the same place before its case is changed.
    have hstretch := List.mem_map_of_mem (f := Occurrence.stretch) hmem'
    rw [occurrences, ← occurrencesFrom_alike dateParts_isProper dateUnits_spec.isProper
      (fun _ _ halike => length_dateParts halike false) h 0 0 [] [] .nil] at hstretch
    obtain ⟨found, hmem, hsame⟩ := List.mem_map.mp hstretch
    obtain ⟨hstart, hstop⟩ := Prod.mk.inj hsame
    have hunits : k < found.value := by
      by_contra hle
      refine hk found (List.mem_filter.mpr ⟨hmem, by rwa [hstart, hstop]⟩) ⟨by omega, by omega⟩
    have hparts := find_of_mem_occurrences dateParts_isProper hmem
    have hwritten := find_of_mem_occurrences dateUnits_spec.isProper hmem'
    have halike : Cursor.Alike ⟨found.start, (text.take found.start).reverse, text.drop found.start⟩
        ⟨found'.start, (cased.take found'.start).reverse, cased.drop found'.start⟩ := by
      rw [hstart]
      exact ⟨rfl, List.forall₂_reverse_iff.mpr (List.forall₂_take _ h), List.forall₂_drop _ h⟩
    have htake := take_dateUnits halike hparts hwritten
    simp only [hstart] at htake
    have hlt : k - found'.start < found.value - found'.start := by omega
    rw [id, ← List.getElem?_take_of_lt hlt, htake, List.getElem?_take_of_lt (by omega),
      List.getElem?_drop, Nat.add_sub_cancel' hcovered.1]

/-- The code points from `start` on, `length` of them, are in no units of dates. -/
def OutsideUnits (text : List Char) (start length : Nat) : Prop :=
  ∀ i < length, ∀ found ∈ freeOccurrences (.ofReader dateParts) (scan text) text,
    ¬ (found.value ≤ start + i ∧ start + i < found.stop)

instance (text : List Char) (start length : Nat) : Decidable (OutsideUnits text start length) :=
  inferInstanceAs (Decidable (∀ i < length,
    ∀ found ∈ freeOccurrences (.ofReader dateParts) (scan text) text,
      ¬ (found.value ≤ start + i ∧ start + i < found.stop)))

/-! ## The case of words -/

/-- A change of case that writes the words of the standard vocabulary in capitals, outside literals
and the units of dates, and keeps all other words there and all that is no part of words. -/
structure CasesWords [Host] (text cased : List Char) : Prop where
  length_eq : cased.length = text.length
  capitals : ∀ left word right, WordAt text left word right →
    Uncovered (scan text) left.length word.length → OutsideUnits text left.length word.length →
    Vocabulary.standard.Counts word right →
    slice cased left.length (left.length + word.length) = upper word
  kept : ∀ left word right, WordAt text left word right →
    Uncovered (scan text) left.length word.length → OutsideUnits text left.length word.length →
    ¬ Vocabulary.standard.Counts word right →
    slice cased left.length (left.length + word.length) = word
  others : ∀ (i : Nat) (c : Char), text[i]? = some c → isWordChar c = false → cased[i]? = some c

/-- The words of a text are cased one by one, whatever the order of the entries of the
vocabulary. -/
theorem apply_words [Host] (text : List Char) :
    ∃ cased, (∀ vocabulary : Vocabulary, vocabulary.SameEntries .standard →
      apply vocabulary text = .ok cased) ∧ CasesWords text cased := by
  have hstandard := Vocabulary.standard_ofWords
  obtain ⟨pattern, hpattern, -⟩ := Vocabulary.exists_casing hstandard
  obtain ⟨-, hconsumes, hreads⟩ := hstandard.searchable hpattern
  have hcapitals := Vocabulary.capitalised hstandard hpattern text
  refine ⟨applyPattern pattern text, fun vocabulary hsame => ?_, ?_⟩
  · have hwords := hsame.ofWords hstandard
    obtain ⟨pattern', hpattern', -⟩ := Vocabulary.exists_casing hwords
    have hunique := (Vocabulary.capitalised hwords hpattern' text).unique hsame.counts_iff hcapitals
    have happly : apply vocabulary text = .ok (applyPattern pattern' text) := by
      rw [apply, hpattern']
      rfl
    rw [happly, applyPattern, hunique]
    rfl
  · obtain ⟨cells, rfl, hmarked⟩ := exists_marked_recognize text
    obtain ⟨middle, out, hout, hfirst, hsecond⟩ := applyPattern_recast hreads hconsumes hmarked
    have hkept : ∀ {left word : List Char}, OutsideUnits (chars cells) left.length word.length →
        slice (applyPattern pattern (chars cells)) left.length (left.length + word.length) =
          slice (pattern.replaceOutside (scan (chars cells)) (fun found => upper found.text)
            (chars cells)) left.length (left.length + word.length) :=
      fun houtside => slice_congr fun i hi => getElem?_dateUnits hcapitals.recased (houtside i hi)
    refine ⟨?_, ?_, ?_, ?_⟩
    · rw [hout, ← hsecond.chars.length_eq, ← hfirst.chars.length_eq]
    · intro left word right hword hfree houtside hcounts
      rw [hkept houtside, hcapitals.counted left word right hword hfree hcounts]
    · intro left word right hword hfree houtside hcounts
      rw [hkept houtside, hcapitals.kept left word right hword fun h => hcounts h.2]
    · intro i c hat hc
      rw [hout]
      exact getElem?_of_recased hsecond.chars (getElem?_of_recased hfirst.chars hat hc) hc

/-- A function with a long s, a name that is no word of the vocabulary, and the type of a date. -/
theorem apply_words_sine :
    let text := "ſin (x); t#1H".toList
    ∃ cased, (∀ vocabulary : Vocabulary, vocabulary.SameEntries .standard →
        @apply Host.plain vocabulary text = .ok cased) ∧
      slice cased 0 3 = "SIN".toList ∧ slice cased 5 6 = "x".toList ∧ slice cased 9 10 =
        "T".toList ∧
      cased[10]? = some '#' := by
  intro text
  let _ := Host.plain
  obtain ⟨cased, happly, hcases⟩ := apply_words text
  refine ⟨cased, happly, ?_, ?_, ?_, hcases.others 10 '#' rfl rfl⟩
  · have hnames : Vocabulary.Names "sin" "ſin".toList :=
      ⟨.literal "sin".toList true, by decide +kernel, ['ſ'], ['i', 'n'], rfl,
        ⟨'ſ', rfl, by decide +kernel⟩, ['i'], ['n'], rfl, ⟨'i', rfl, by decide +kernel⟩, 'n', rfl,
        by decide +kernel⟩
    exact (hcases.capitals [] "ſin".toList " (x); t#1H".toList
      ⟨rfl, by decide, by decide +kernel, rfl, rfl⟩ (by decide +kernel) (by decide +kernel)
      (.inl (.function (by decide) hnames rfl))).trans (by decide +kernel)
  · have hword : WordAt text "ſin (".toList "x".toList "); t#1H".toList :=
      ⟨rfl, by decide, by decide +kernel, rfl, rfl⟩
    -- The pattern finds nothing there, which it would do if the word counted.
    have hnone : ((@Vocabulary.casingPattern Host.plain .standard).toOption.all fun pattern =>
        (pattern.recognize 8 false ⟨5, "ſin (".toList.reverse, "x); t#1H".toList⟩).isNone) =
          true := by
      decide +kernel
    refine hcases.kept _ _ _ hword (by decide +kernel) (by decide +kernel) fun hcounts => ?_
    have hstandard := Vocabulary.standard_ofWords
    obtain ⟨pattern, hpattern, -⟩ := Vocabulary.exists_casing hstandard
    rw [hpattern] at hnone
    exact Vocabulary.recognize_casing_ne_none hstandard hpattern hword.isWord hcounts (by decide) 5
      (Option.isNone_iff_eq_none.mp hnone)
  · have hdate : Vocabulary.OpensDate "t".toList "#1H".toList :=
      ⟨⟨"T".toList, by decide, .cons (by decide +kernel) .nil⟩, '1', ['H'],
      rfl, by decide, by decide⟩
    exact (hcases.capitals "ſin (x); ".toList "t".toList "#1H".toList
      ⟨rfl, by decide, by decide +kernel, rfl, rfl⟩ (by decide +kernel) (by decide +kernel)
      (.inr hdate)).trans (by decide +kernel)

end Casing

end StructuredText
