import StructuredText.Proofs.CaselessPatterns

/-!
# Letter case a second time

One step writes words in capitals and the next writes the units of dates in small letters, and both
can change the same letter: `D` in `T#1-D#2` is raised and lowered. Each step finds the same places
in all texts that differ in case only, so what it makes of a letter is decided by the place. A
second time the letters go the same way and arrive where they are.

Results:
1. `Casing.getElem?_capitals`, `Casing.getElem?_units`: what the two steps make of each code point.
2. `Casing.inWord_recased`, `Casing.dates_recased`: the places do not depend on case.
3. `Casing.apply_apply`: a second time nothing changes, and all matches stand where they stood.
-/

namespace StructuredText

open Literal

/-! ## Letters -/

/-- The capital of a letter that has a single one. -/
def capitalChar (c : Char) : Char :=
  (upperChars c).headD c

/-- Plain letters have one capital, and capitals and small letters stay what they are. A letter that
has been raised and lowered is what it becomes when this is done again. -/
theorem capitalChar_checked :
    (plainPoints.all fun n =>
      let c := Char.ofNat n
      decide (upperChars c = [capitalChar c]) &&
        decide (capitalChar (capitalChar c) = capitalChar c) &&
        decide (lowerChar (lowerChar c) = lowerChar c) &&
        decide (lowerChar (capitalChar (lowerChar (capitalChar c))) = lowerChar (capitalChar c))) =
      true := by
  decide +kernel

theorem capitalChar_laws {c : Char} (h : isPlain c) :
    upperChars c = [capitalChar c] ∧ capitalChar (capitalChar c) = capitalChar c ∧
      lowerChar (lowerChar c) = lowerChar c ∧
      lowerChar (capitalChar (lowerChar (capitalChar c))) = lowerChar (capitalChar c) := by
  have := @forall_plain (fun c => decide (upperChars c = [capitalChar c]) &&
    decide (capitalChar (capitalChar c) = capitalChar c) &&
    decide (lowerChar (lowerChar c) = lowerChar c) &&
    decide (lowerChar (capitalChar (lowerChar (capitalChar c))) = lowerChar (capitalChar c)))
    capitalChar_checked c h
  simpa [and_assoc] using this

theorem upper_eq_map {text : List Char} (h : ∀ c ∈ text, isPlain c) :
    upper text = text.map capitalChar := by
  induction text with
  | nil => rfl
  | cons c rest ih =>
    obtain ⟨hc, hrest⟩ := List.forall_mem_cons.mp h
    rw [upper, List.flatMap_cons, (capitalChar_laws hc).1, ← upper, ih hrest, List.map_cons]
    rfl

namespace Casing

/-- A pattern for words: it reads plain code points only, at least one of them, and ignores case. -/
structure IsCaseless (pattern : Pattern) : Prop where
  plain : pattern.readsOnly Pattern.isPlainSet = true
  consumes : pattern.consumes = true
  ignoresCase : pattern.ignoresCase = true

theorem casingPattern_caseless :
    ((@Vocabulary.casingPattern Host.plain .standard).toOption.all Pattern.ignoresCase) = true := by
  decide +kernel

theorem exists_isCaseless [Host] :
    ∃ pattern, Vocabulary.standard.casingPattern = .ok pattern ∧ IsCaseless pattern := by
  obtain ⟨pattern, hpattern, hplain, hconsumes⟩ := Vocabulary.exists_casingPattern
  have hcase := casingPattern_caseless
  rw [Vocabulary.standard_casingPattern _ ‹Host›, hpattern] at hcase
  exact ⟨pattern, hpattern, hplain, hconsumes, hcase⟩

/-! ## What becomes of each code point -/

/-- The text with the words that a pattern matches in capitals. -/
def capitals (pattern : Pattern) (text : List Char) : List Char :=
  pattern.replaceOutside (scan text) (fun found => upper found.text) text

theorem applyPattern_eq (pattern : Pattern) (text : List Char) :
    applyPattern pattern text =
      replaceOutside (.ofReader dateUnits) (scan text) id (capitals pattern text) :=
  rfl

/-- A match outside literals holds the code point at `k`. -/
def InWord (pattern : Pattern) (text : List Char) (k : Nat) : Prop :=
  ∃ found ∈ freeOccurrences (pattern.recognize text.length) (scan text) text,
    found.start ≤ k ∧ k < found.stop

/-- The units of a date that meets none of the spans hold the code point at `k`. -/
def InUnits (spans : List Span) (text : List Char) (k : Nat) : Prop :=
  ∃ found ∈ freeOccurrences (.ofReader dateParts) spans text, found.value ≤ k ∧ k < found.stop

section

variable {pattern : Pattern} {text : List Char} {k : Nat}

theorem getElem?_capitals (h : IsCaseless pattern) (hk : InWord pattern text k) :
    ∃ c, text[k]? = some c ∧ isPlain c ∧ (capitals pattern text)[k]? = some (capitalChar c) := by
  obtain ⟨found, hfound, hstart, hstop⟩ := hk
  have proper : (pattern.recognize text.length).IsProper := Pattern.recognize_isProper h.consumes
  obtain ⟨gap, block, last, htext, hgap, hblock, hfind⟩ :=
    mem_occurrencesFrom proper text 0 0 [] (List.mem_filter.mp hfound).1
  obtain ⟨hmatches, hlength, rest, hafter⟩ := Pattern.recognize_eq_some hfind
  obtain rfl : block = found.value.text := (List.append_inj hafter hlength).1
  have hplain := hmatches.mem_of_readsOnly
    (fun _ hset _ hc => (Pattern.isPlain_of_holds hset hc).1) h.plain
  have hi : k - found.start < found.value.text.length := by omega
  refine ⟨found.value.text[k - found.start], ?_, hplain _ (List.getElem_mem hi), ?_⟩
  · rw [htext, List.getElem?_append_right (by omega), List.getElem?_append_left (by omega),
      show k - gap.length = k - found.start by omega, List.getElem?_eq_getElem hi]
  · rw [capitals, Pattern.replaceOutside, getElem?_replaceOutside_of_mem proper
      (Pattern.writesInPlace_upper h.plain h.consumes text) hfound hstart hstop,
      upper_eq_map hplain,
      List.getElem?_map, List.getElem?_eq_getElem hi, Option.map_some]

theorem getElem?_capitals_of_not (h : IsCaseless pattern) (hk : ¬ InWord pattern text k) :
    (capitals pattern text)[k]? = text[k]? :=
  getElem?_replaceOutside_of_apart (Pattern.recognize_isProper h.consumes)
    (Pattern.writesInPlace_upper h.plain h.consumes text) fun found hfound hcovered =>
      hk ⟨found, hfound, hcovered⟩

/-- A date whose units start at an offset, and what is written for it. -/
theorem exists_dateUnits {cursor : Cursor} {n units : Nat}
    (h : Recognizer.ofReader dateParts false cursor = some (n, units)) :
    ∃ type run rest, cursor.after = type ++ (run ++ rest) ∧ units = cursor.pos + type.length ∧
      n = type.length + run.length ∧ (∀ c ∈ run, isDatePart c = true) ∧
      Recognizer.ofReader dateUnits false cursor = some (n, type ++ lower run) := by
  obtain ⟨stop, hparts, hn⟩ := ofReader_eq_some.mp h
  obtain ⟨behindType, htype, hparts⟩ := Option.bind_eq_some_iff.mp hparts
  obtain ⟨_, hrun, heq⟩ := Option.map_eq_some_iff.mp hparts
  cases heq
  obtain ⟨type, hreads⟩ := dateType_reads htype
  obtain ⟨-, hreads', -⟩ := Cursor.reads_someRun hrun
  refine ⟨type, _, stop.after, by rw [hreads.after, hreads'.after], hreads.pos, ?_,
    fun c hc => List.mem_takeWhile_imp hc, ofReader_eq_some.mpr ⟨stop, ?_, hn⟩⟩
  · rw [hn, hreads'.pos, hreads.pos]
    omega
  · rw [dateUnits_eq, htype, Option.bind_some, hrun, Option.map_some, hreads.upTo_eq,
      hreads'.upTo_eq]

variable {spans : List Span}

/-- Dates are the same, whether their units or what is written for them is asked for. -/
theorem exists_free_dateUnits {found : Occurrence Nat}
    (h : found ∈ freeOccurrences (.ofReader dateParts) spans text) :
    ∃ found' ∈ freeOccurrences (.ofReader dateUnits) spans text,
      found'.start = found.start ∧ found'.stop = found.stop := by
  obtain ⟨hmem, hfree⟩ := List.mem_filter.mp h
  have hstretch := List.mem_map_of_mem (f := Occurrence.stretch) hmem
  rw [occurrences, occurrencesFrom_alike dateParts_isProper dateUnits_spec.isProper
    (fun _ _ halike => length_dateParts halike false)
    (List.forall₂_same.mpr fun c _ => .refl c) 0 0 [] [] .nil] at hstretch
  obtain ⟨found', hmem', hsame⟩ := List.mem_map.mp hstretch
  obtain ⟨hstart, hstop⟩ := Prod.mk.inj hsame
  exact ⟨found', List.mem_filter.mpr ⟨hmem', by rwa [hstart, hstop]⟩, hstart, hstop⟩

theorem getElem?_units (hk : InUnits spans text k) :
    ∃ c, text[k]? = some c ∧ isPlain c ∧
      (replaceOutside (.ofReader dateUnits) spans id text)[k]? = some (lowerChar c) := by
  obtain ⟨found, hfound, hunits, hstop⟩ := hk
  obtain ⟨type, run, rest, hafter, htype, hlength, hparts, hwritten⟩ := exists_dateUnits
    (find_of_mem_occurrences dateParts_isProper (List.mem_filter.mp hfound).1)
  obtain ⟨found', hfound', hstart, hstop'⟩ := exists_free_dateUnits hfound
  have hwritten' := find_of_mem_occurrences dateUnits_spec.isProper (List.mem_filter.mp hfound').1
  rw [hstart, hwritten] at hwritten'
  simp only at hafter htype
  obtain ⟨hn, hvalue⟩ := Prod.mk.inj (Option.some.inj hwritten')
  have hi : k - found.value < run.length := by omega
  have hat : text[k]? = some run[k - found.value] := by
    have hdrop : text[k]? = (text.drop found.start)[k - found.start]? := by
      rw [List.getElem?_drop, Nat.add_sub_cancel' (by omega)]
    rw [hdrop, hafter, List.getElem?_append_right (by omega), List.getElem?_append_left (by omega),
      show k - found.start - type.length = k - found.value by omega, List.getElem?_eq_getElem hi]
  refine ⟨_, hat, isPlain_of_isDatePart (hparts _ (List.getElem_mem hi)), ?_⟩
  rw [getElem?_replaceOutside_of_mem dateUnits_spec.isProper (writesInPlace_dateUnits text) hfound'
    (by omega) (by omega), ← hvalue, hstart, id, List.getElem?_append_right (by omega), lower,
    show k - found.start - type.length = k - found.value by omega, List.getElem?_map,
    List.getElem?_eq_getElem hi, Option.map_some]

theorem getElem?_units_of_not (hk : ¬ InUnits spans text k) :
    (replaceOutside (.ofReader dateUnits) spans id text)[k]? = text[k]? :=
  getElem?_dateUnits (List.forall₂_same.mpr fun c _ => .refl c) fun found hfound hcovered =>
    hk ⟨found, hfound, hcovered⟩

end

/-! ## Places that do not depend on case -/

variable {cursor cursor' : Cursor}

/-- A date has its units at the same offset. -/
theorem dateParts_recased (h : cursor.Alike cursor') :
    Recognizer.ofReader dateParts false cursor = Recognizer.ofReader dateParts false cursor' := by
  rw [Recognizer.ofReader, Recognizer.ofReader, dateParts, dateParts]
  rcases dateType_ignoresCase cursor cursor' h with
    ⟨hnone, hnone'⟩ | ⟨type, type', htype, htype', halike⟩
  · rw [hnone, hnone']
    rfl
  rw [htype, htype', Option.bind_some, Option.bind_some]
  rcases Cursor.someRun_ignoresCase (fun _ _ => isDatePart_eq) type type' halike with
    ⟨hnone, hnone'⟩ | ⟨stop, stop', hstop, hstop', hstops⟩
  · rw [hnone, hnone']
    rfl
  · rw [hstop, hstop']
    simp only [Option.map_some, hstops.pos, halike.pos, h.pos]

theorem length_dateUnits (h : cursor.Alike cursor') :
    (Recognizer.ofReader dateUnits false cursor).map Prod.fst =
      (Recognizer.ofReader dateUnits false cursor').map Prod.fst := by
  rw [← length_dateParts (.refl cursor), length_dateParts h]

section

variable {pattern : Pattern} {text text' : List Char}

/-- Dates stand in the same places, with their units at the same offsets. -/
theorem dates_recased (h : List.Forall₂ Recased text text') :
    occurrences (.ofReader dateParts) text' = occurrences (.ofReader dateParts) text := by
  have hviews := @occurrencesFrom_views Nat Nat Nat _ _ dateParts_isProper dateParts_isProper id id
    (fun _ _ halike => by rw [dateParts_recased halike]) _ _ h 0 0 [] [] .nil
  have hinjective : Function.Injective fun found : Occurrence Nat =>
      (found.stretch, id found.value) := by
    rintro ⟨start, stop, value⟩ ⟨start', stop', value'⟩ heq
    cases heq
    rfl
  exact (hinjective.list_map hviews).symm

theorem inUnits_recased (h : List.Forall₂ Recased text text') (spans : List Span) (k : Nat) :
    InUnits spans text' k ↔ InUnits spans text k := by
  rw [InUnits, InUnits, freeOccurrences, freeOccurrences, dates_recased h]

/-- A code point is in a word exactly if a stretch of the matches holds it that meets no literal. -/
theorem inWord_iff_stretch {k : Nat} :
    InWord pattern text k ↔ ∃ stretch ∈ (pattern.matchesIn text).map Occurrence.stretch,
      overlaps (scan text).toArray stretch.1 stretch.2 = false ∧ stretch.1 ≤ k ∧ k < stretch.2 := by
  constructor
  · rintro ⟨found, hfound, hcovered⟩
    obtain ⟨hmem, hfree⟩ := List.mem_filter.mp hfound
    rw [Bool.not_eq_true'] at hfree
    exact ⟨found.stretch, List.mem_map_of_mem hmem, hfree, hcovered⟩
  · rintro ⟨stretch, hstretch, hfree, hcovered⟩
    obtain ⟨found, hmem, rfl⟩ := List.mem_map.mp hstretch
    exact ⟨found, List.mem_filter.mpr ⟨hmem, by rw [Bool.not_eq_true']; exact hfree⟩, hcovered⟩

theorem inWord_recased (hpattern : IsCaseless pattern) (h : List.Forall₂ Recased text text')
    (hscan : scan text' = scan text) (k : Nat) :
    InWord pattern text' k ↔ InWord pattern text k := by
  rw [inWord_iff_stretch, inWord_iff_stretch, hscan,
    Pattern.stretches_recased hpattern.ignoresCase hpattern.consumes h]

end

/-! ## Twice -/

section

variable {pattern : Pattern} (h : IsCaseless pattern) (text : List Char)

include h

/-- Both steps change the case of letters only, and keep strings and comments where they are. -/
theorem recased_applyPattern :
    List.Forall₂ Recased text (capitals pattern text) ∧
      List.Forall₂ Recased (capitals pattern text) (applyPattern pattern text) ∧
      scan (applyPattern pattern text) = scan text := by
  obtain ⟨cells, rfl, hmarked⟩ := exists_marked_recognize text
  obtain ⟨middle, hmiddle, hfirst⟩ := capitals_recast h.plain h.consumes hmarked
  obtain ⟨out, hout, hsecond⟩ := dateUnits_recast hmarked hfirst
  have hmarked' : Marked recognize [] middle := hfirst.marked hmarked
  rw [applyPattern_eq, capitals, hmiddle, hout, (hsecond.marked hmarked').scan_eq,
    hsecond.spansFrom_eq hmarked', hfirst.spansFrom_eq hmarked, hmarked.scan_eq]
  exact ⟨hfirst.chars, hsecond.chars, rfl⟩

theorem applyPattern_applyPattern :
    applyPattern pattern (applyPattern pattern text) = applyPattern pattern text := by
  obtain ⟨hraised, hlowered, hscan⟩ := recased_applyPattern h text
  obtain ⟨hraised', -, -⟩ := recased_applyPattern h (applyPattern pattern text)
  have hword := inWord_recased h (forall₂_recased_trans hraised hlowered) hscan
  have hunits := inUnits_recased (forall₂_recased_trans hlowered hraised') (scan text)
  apply List.ext_getElem?
  intro k
  by_cases hk : InUnits (scan text) (capitals pattern text) k
  · obtain ⟨c, hc, hplain, hfirst⟩ := getElem?_units hk
    obtain ⟨d, hd, -, hsecond⟩ := getElem?_units ((hunits k).mpr hk)
    rw [← applyPattern_eq] at hfirst
    rw [applyPattern_eq, hscan, hsecond, hfirst]
    by_cases hkw : InWord pattern text k
    · obtain ⟨b, -, hb, hcapital⟩ := getElem?_capitals h hkw
      obtain ⟨e, he, -, hcapital'⟩ := getElem?_capitals h ((hword k).mpr hkw)
      cases hc.symm.trans hcapital
      cases he.symm.trans hfirst
      cases hd.symm.trans hcapital'
      rw [(capitalChar_laws hb).2.2.2]
    · rw [getElem?_capitals_of_not h ((hword k).not.mpr hkw), hfirst] at hd
      cases hd
      rw [(capitalChar_laws hplain).2.2.1]
  · have hfirst := getElem?_units_of_not hk
    rw [← applyPattern_eq] at hfirst
    rw [applyPattern_eq, hscan, getElem?_units_of_not ((hunits k).not.mpr hk)]
    by_cases hkw : InWord pattern text k
    · obtain ⟨b, -, hb, hcapital⟩ := getElem?_capitals h hkw
      obtain ⟨e, he, -, hcapital'⟩ := getElem?_capitals h ((hword k).mpr hkw)
      rw [hfirst, hcapital] at he
      cases he
      rw [hcapital', hfirst, hcapital, (capitalChar_laws hb).2.1]
    · exact getElem?_capitals_of_not h ((hword k).not.mpr hkw)

end

/-- Casing a text a second time changes nothing. The words and the dates of the second time stand
where those of the first time stood, and so do the literals that both leave out. -/
theorem apply_apply [Host] (text : List Char) :
    ∃ pattern cased, Vocabulary.standard.casingPattern = .ok pattern ∧
      apply Vocabulary.standard text = .ok cased ∧ apply Vocabulary.standard cased = .ok cased ∧
      scan cased = scan text ∧
      (pattern.matchesIn cased).map Occurrence.stretch =
        (pattern.matchesIn text).map Occurrence.stretch ∧
      (occurrences (.ofReader dateUnits) (capitals pattern cased)).map Occurrence.stretch =
        (occurrences (.ofReader dateUnits) (capitals pattern text)).map Occurrence.stretch := by
  obtain ⟨pattern, hpattern, hcaseless⟩ := exists_isCaseless
  have happly : ∀ text, apply Vocabulary.standard text = .ok (applyPattern pattern text) := by
    intro text
    rw [apply, hpattern]
    rfl
  obtain ⟨hraised, hlowered, hscan⟩ := recased_applyPattern hcaseless text
  obtain ⟨hraised', -, -⟩ := recased_applyPattern hcaseless (applyPattern pattern text)
  refine ⟨pattern, applyPattern pattern text, hpattern, happly text, ?_, hscan, ?_, ?_⟩
  · rw [happly, applyPattern_applyPattern hcaseless]
  · exact Pattern.stretches_recased hcaseless.ignoresCase hcaseless.consumes
      (forall₂_recased_trans hraised hlowered)
  · have hdates := forall₂_recased_trans hlowered hraised'
    exact (occurrencesFrom_alike dateUnits_spec.isProper dateUnits_spec.isProper
      (fun _ _ halike => length_dateUnits halike) hdates 0 0 [] [] .nil).symm

end Casing

end StructuredText
