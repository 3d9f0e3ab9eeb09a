import StructuredText.Pattern.Replace
import StructuredText.Proofs.Matching
import StructuredText.Proofs.Rewriting

/-!
# Replacement in the gaps between spans

Spans that are in order and apart leave gaps: before the first, between two, and behind the last. A
replacement outside the spans works in each gap on its own and keeps the text of the spans.

Results:
1. `overlaps_iff_meets`: the lookup of neighbours tells whether a stretch meets any of the spans.
2. `occurrencesFrom_chained`: occurrences are in order, apart and in the text.
3. `applyEditsFrom_eq_weave`: edits that meet no span are made gap by gap.
4. `Pattern.replaceOutside_weaves`: so is the replacement of the matches of a pattern.
-/

namespace StructuredText

open List Literal

variable {α : Type} {start stop : Nat} {found : List (Occurrence α)} {spans : List Span}
  {find : Recognizer α}

/-- A stretch `[start, stop)` meets a span if they share a code point; an empty stretch, if it lies
strictly inside of it. -/
def Literal.Span.Meets (span : Span) (start stop : Nat) : Prop :=
  if start = stop then span.start < start ∧ start < span.stop
  else ∃ pos < stop, start ≤ pos ∧ span.start ≤ pos ∧ pos < span.stop

instance (span : Span) (start stop : Nat) : Decidable (span.Meets start stop) := by
  unfold Span.Meets
  infer_instance

/-- The stretch `[start, stop)` between two spans, or between a span and an end of the text. -/
structure Gap where
  start : Nat
  stop : Nat
deriving Repr, DecidableEq

def Gap.text (gap : Gap) (document : List Char) : List Char :=
  slice document gap.start gap.stop

/-- The gaps that spans leave from `start` up to `finish`. -/
def gapsFrom (start finish : Nat) : List Span → List Gap
  | [] => [⟨start, finish⟩]
  | span :: spans => ⟨start, span.start⟩ :: gapsFrom span.stop finish spans

/-- The first piece, the first span, the second piece, and so on up to the last piece. -/
def weave : (pieces spans : List (List Char)) → List Char
  | piece :: pieces, span :: spans => piece ++ span ++ weave pieces spans
  | pieces, _ => pieces.flatten

section

def Gap.Holds (gap : Gap) (found : Occurrence α) : Prop :=
  gap.start ≤ found.start ∧ found.stop ≤ gap.stop

instance (gap : Gap) (found : Occurrence α) : Decidable (gap.Holds found) :=
  inferInstanceAs (Decidable (_ ∧ _))

/-- The occurrences that lie in a gap. -/
def Gap.select (gap : Gap) (found : List (Occurrence α)) : List (Occurrence α) :=
  found.filter fun occurrence => gap.Holds occurrence

/-- The occurrences that meet none of the spans. -/
def clearOf (spans : List Span) (found : List (Occurrence α)) : List (Occurrence α) :=
  found.filter fun occurrence => ∀ span ∈ spans, ¬ span.Meets occurrence.start occurrence.stop

/-- A text from offset `pos` on, and what it becomes when each of the occurrences is replaced. -/
inductive Substituted (write : α → List Char) :
    Nat → List (Occurrence α) → (text out : List Char) → Prop
  | done {pos : Nat} {text : List Char} : Substituted write pos [] text text
  | replace {pos : Nat} {kept old rest out : List Char} {value : α} {later : List (Occurrence α)} :
      Substituted write (pos + kept.length + old.length) later rest out →
      Substituted write pos
        (⟨pos + kept.length, pos + kept.length + old.length, value⟩ :: later)
        (kept ++ old ++ rest) (kept ++ write value ++ out)

/-- The occurrences are in order, apart, and in `[start, stop]`. -/
def Chained (start stop : Nat) : List (Occurrence α) → Prop
  | [] => start ≤ stop
  | found :: later =>
      start ≤ found.start ∧ found.start ≤ found.stop ∧ Chained found.stop stop later

/-! ## Stretches and spans -/

/-- The lookup of neighbours tells whether a stretch meets any of the spans. -/
theorem overlaps_iff_meets (ordered : Ordered spans) (hle : start ≤ stop) :
    overlaps spans.toArray start stop = true ↔ ∃ span ∈ spans, span.Meets start stop := by
  rcases Nat.lt_or_eq_of_le hle with hlt | rfl
  · rw [overlaps_iff ordered hlt]
    refine exists_congr fun span => and_congr_right fun hspan => ?_
    have hpos := ordered.nonempty span hspan
    rw [Span.Meets, if_neg (Nat.ne_of_lt hlt)]
    constructor
    · rintro ⟨hstart, hstop⟩
      exact ⟨max start span.start, by omega, by omega, by omega, by omega⟩
    · rintro ⟨pos, hpos, hfrom, hstart, hstop⟩
      omega
  · simp only [overlaps, if_true, Option.any_eq_true, Bool.and_eq_true, decide_eq_true_eq,
      Span.Meets]
    constructor
    · rintro ⟨span, hlast, hinside⟩
      obtain ⟨n, -, hspan⟩ := (lastStartedBy_eq _).mp hlast
      exact ⟨span, mem_of_getElem? hspan, hinside⟩
    · rintro ⟨span, hspan, hstart, hstop⟩
      exact ⟨span, lastStartedBy_of_mem ordered hspan (by omega) (by omega), hstart, hstop⟩

variable {span : Span} {start' : Nat} {text : List Char} {gap : Gap}

/-- What does not meet a span lies in front of it or behind it. -/
theorem Literal.Span.le_or_le_of_not_meets (hle : start ≤ stop) (hlt : span.start < span.stop)
    (h : ¬ span.Meets start stop) :
    stop ≤ span.start ∨ span.stop ≤ start := by
  by_contra hboth
  refine h ?_
  unfold Span.Meets
  split
  · omega
  · exact ⟨max start span.start, by omega, by omega, by omega, by omega⟩

/-! ## Chains of occurrences -/

theorem Chained.le (h : Chained start stop found) : start ≤ stop := by
  induction found generalizing start with
  | nil => exact h
  | cons occurrence later ih => exact Nat.le_trans h.1 (Nat.le_trans h.2.1 (ih h.2.2))

theorem Chained.mono (h : Chained start stop found) (hle : start' ≤ start) :
    Chained start' stop found := by
  cases found with
  | nil => exact Nat.le_trans hle h
  | cons occurrence later => exact ⟨Nat.le_trans hle h.1, h.2⟩

theorem Chained.bounds (h : Chained start stop found) :
    ∀ occurrence ∈ found, start ≤ occurrence.start ∧ occurrence.start ≤ occurrence.stop ∧
      occurrence.stop ≤ stop := by
  induction found generalizing start with
  | nil => simp
  | cons first later ih =>
    intro occurrence hmem
    rcases mem_cons.mp hmem with rfl | hmem
    · exact ⟨h.1, h.2.1, h.2.2.le⟩
    · obtain ⟨hstart, hrest⟩ := ih h.2.2 occurrence hmem
      exact ⟨Nat.le_trans h.1 (Nat.le_trans h.2.1 hstart), hrest⟩

theorem Chained.pairwise (h : Chained start stop found) :
    found.Pairwise fun first second => first.stop ≤ second.start := by
  induction found generalizing start with
  | nil => exact .nil
  | cons first later ih =>
    exact .cons (fun second hsecond => (h.2.2.bounds second hsecond).1) (ih h.2.2)

theorem Chained.filter (h : Chained start stop found) (p : Occurrence α → Bool) :
    Chained start stop (found.filter p) := by
  induction found generalizing start with
  | nil => exact h
  | cons first later ih =>
    have hlater := ih h.2.2
    by_cases hfirst : p first = true
    · rw [filter_cons_of_pos hfirst]
      exact ⟨h.1, h.2.1, hlater⟩
    · rw [filter_cons_of_neg hfirst]
      exact hlater.mono (Nat.le_trans h.1 h.2.1)

/-- A part of a chain that lies in other bounds is a chain in these. -/
theorem Chained.of_bounds {stop' : Nat} (h : Chained start stop found) (hle : start' ≤ stop')
    (hbounds : ∀ occurrence ∈ found, start' ≤ occurrence.start ∧ occurrence.stop ≤ stop') :
    Chained start' stop' found := by
  induction found generalizing start start' with
  | nil => exact hle
  | cons first later ih =>
    obtain ⟨hstart, hstop⟩ := hbounds first mem_cons_self
    refine ⟨hstart, h.2.1, ih h.2.2 hstop fun occurrence hmem => ?_⟩
    exact ⟨(h.2.2.bounds occurrence hmem).1, (hbounds occurrence (mem_cons_of_mem _ hmem)).2⟩

/-- What a recogniser finds lies in the text. -/
def Recognizer.IsBounded (find : Recognizer α) : Prop :=
  ∀ advance cursor n value, find advance cursor = some (n, value) → n ≤ cursor.after.length

theorem Recognizer.IsProper.isBounded (proper : find.IsProper) : find.IsBounded :=
  fun advance cursor n value h => (proper advance cursor n value h).2

/-- Occurrences are in order, apart and in the text. -/
theorem occurrencesFrom_chained (bounded : find.IsBounded) :
    ∀ pos skip before, skip ≤ text.length →
      Chained (pos + skip) (pos + text.length) (occurrencesFrom find pos skip before text) := by
  induction text with
  | nil =>
    intro pos skip before hskip
    obtain rfl : skip = 0 := Nat.le_zero.mp hskip
    rw [occurrencesFrom]
    split
    · exact ⟨Nat.le_refl _, Nat.le_refl _, Nat.le_refl _⟩
    · exact Nat.le_refl _
  | cons c rest ih =>
    intro pos skip before hskip
    have hlater : ∀ skip, skip ≤ rest.length → Chained (pos + skip + 1) (pos + (c :: rest).length)
        (occurrencesFrom find (pos + 1) skip (c :: before) rest) := by
      intro skip hskip
      have := ih (pos + 1) skip (c :: before) hskip
      rwa [Nat.add_right_comm, Nat.add_right_comm pos 1, Nat.add_assoc pos rest.length] at this
    cases skip with
    | succ skip => exact hlater skip (Nat.le_of_succ_le_succ hskip)
    | zero =>
      have hnone := (hlater 0 (Nat.zero_le _)).mono (Nat.le_succ pos)
      rw [occurrencesFrom]
      split
      next => exact hnone
      next n value hfind =>
        have hn := bounded _ _ _ _ hfind
        exact ⟨Nat.le_refl _, by simp only; omega, hlater n (Nat.le_of_succ_le_succ hn)⟩
      next value hfind =>
        refine ⟨Nat.le_refl _, Nat.le_refl _, ?_⟩
        split
        next n longer hlonger =>
          have hn := bounded _ _ _ _ hlonger
          exact ⟨Nat.le_refl _, by simp only; omega, hlater n (Nat.le_of_succ_le_succ hn)⟩
        next => exact hnone

theorem occurrences_chained (bounded : find.IsBounded) (text : List Char) :
    Chained 0 text.length (occurrences find text) := by
  have hchain := occurrencesFrom_chained bounded 0 0 [] (Nat.zero_le text.length)
  rwa [Nat.zero_add, Nat.zero_add] at hchain

/-- A chain that meets no code point of a span is cut by it. -/
theorem Chained.cut {start stop : Nat} {found : List (Occurrence α)} (h : Chained start stop found)
    {span : Span} (hstart : start ≤ span.start) (hlt : span.start < span.stop)
    (hstop : span.stop ≤ stop)
    (hclear : ∀ occurrence ∈ found, ¬ span.Meets occurrence.start occurrence.stop) :
    ∃ first second, found = first ++ second ∧ Chained start span.start first ∧
      Chained span.stop stop second := by
  induction found generalizing start with
  | nil => exact ⟨[], [], rfl, hstart, hstop⟩
  | cons occurrence later ih =>
    rcases Span.le_or_le_of_not_meets h.2.1 hlt (hclear occurrence mem_cons_self) with
      hbefore | hbehind
    · obtain ⟨first, second, rfl, hfirst, hsecond⟩ :=
        ih h.2.2 hbefore fun other hother => hclear other (mem_cons_of_mem _ hother)
      exact ⟨occurrence :: first, second, rfl, ⟨h.1, h.2.1, hfirst⟩, hsecond⟩
    · exact ⟨[], occurrence :: later, rfl, hstart, hbehind, h.2⟩

/-! ## Edits gap by gap -/

/-- The edits that replace occurrences. -/
def editsOf (write : α → List Char) (found : List (Occurrence α)) : List Edit :=
  found.map fun occurrence => ⟨occurrence.start, occurrence.stop, write occurrence.value⟩

/-- Edits of two parts of a text are made in each part. -/
theorem applyEditsFrom_append_append {write : α → List Char} {pos : Nat}
    {found later : List (Occurrence α)} {first rest : List Char}
    (hfound : Chained pos (pos + first.length) found)
    (hlater : ∀ occurrence ∈ later,
      pos + first.length ≤ occurrence.start ∧ occurrence.start ≤ occurrence.stop) :
    applyEditsFrom pos (editsOf write (found ++ later)) (first ++ rest) =
      applyEditsFrom pos (editsOf write found) first ++
        applyEditsFrom (pos + first.length) (editsOf write later) rest := by
  induction found generalizing pos first with
  | nil =>
    refine applyEditsFrom_append fun edit hedit => ?_
    obtain ⟨occurrence, hoccurrence, rfl⟩ := mem_map.mp hedit
    exact hlater occurrence hoccurrence
  | cons occurrence found ih =>
    obtain ⟨hstart, hstop, hfound⟩ := hfound
    have hle := hfound.le
    have hlength : occurrence.stop + (first.drop (occurrence.stop - pos)).length =
        pos + first.length := by
      rw [length_drop]
      omega
    have hnext := @ih occurrence.stop (first.drop (occurrence.stop - pos)) (hlength ▸ hfound)
      (hlength ▸ hlater)
    rw [hlength] at hnext
    simp only [editsOf, cons_append, map_cons, applyEditsFrom] at hnext ⊢
    rw [take_append_of_le_length (by omega), drop_append_of_le_length (by omega), hnext,
      ← append_assoc]

/-- A chain of edits in a text replaces each of the occurrences. -/
theorem Chained.substituted {write : α → List Char} {pos : Nat}
    (h : Chained pos (pos + text.length) found) :
    Substituted write pos found text (applyEditsFrom pos (editsOf write found) text) := by
  induction found generalizing pos text with
  | nil => exact .done
  | cons occurrence later ih =>
    obtain ⟨start, stop, value⟩ := occurrence
    obtain ⟨hstart, hstop, hlater⟩ := h
    have hle := hlater.le
    simp only at hstart hstop hlater hle
    -- The text is cut at the start and at the end of the occurrence.
    obtain ⟨kept, tail, rfl, hkept⟩ : ∃ kept tail, text = kept ++ tail ∧
        pos + kept.length = start :=
      ⟨text.take (start - pos), text.drop (start - pos), (take_append_drop _ _).symm,
        by rw [length_take]; omega⟩
    rw [length_append] at hlater hle
    obtain ⟨old, rest, rfl, hold⟩ : ∃ old rest, tail = old ++ rest ∧ start + old.length = stop :=
      ⟨tail.take (stop - start), tail.drop (stop - start), (take_append_drop _ _).symm,
        by rw [length_take]; omega⟩
    subst hkept hold
    rw [length_append, ← Nat.add_assoc, ← Nat.add_assoc] at hlater
    simp only [editsOf, map_cons, applyEditsFrom, Nat.add_sub_cancel_left,
      take_left, Nat.add_assoc pos]
    rw [← append_assoc, ← length_append, drop_left, length_append,
      ← Nat.add_assoc pos]
    exact .replace (ih hlater)

/-- What the edits in a gap make of its text. -/
def Gap.filled (write : α → List Char) (found : List (Occurrence α)) (document : List Char)
    (gap : Gap) : List Char :=
  applyEditsFrom gap.start (editsOf write (gap.select found)) (gap.text document)

theorem Gap.select_eq_self (h : ∀ occurrence ∈ found, gap.Holds occurrence) :
    gap.select found = found :=
  filter_eq_self.mpr fun occurrence hmem => decide_eq_true (h occurrence hmem)

theorem Gap.select_eq_nil (h : ∀ occurrence ∈ found, ¬ gap.Holds occurrence) :
    gap.select found = [] :=
  filter_eq_nil_iff.mpr fun occurrence hmem => by simpa using h occurrence hmem

theorem Gap.select_append (gap : Gap) (first second : List (Occurrence α)) :
    gap.select (first ++ second) = gap.select first ++ gap.select second :=
  filter_append ..

/-- Gaps lie between the bounds. -/
theorem bounds_of_mem_gapsFrom {finish : Nat} (ordered : Ordered spans) (hle : start ≤ finish)
    (hbounds : ∀ span ∈ spans, start ≤ span.start ∧ span.stop ≤ finish) :
    ∀ gap ∈ gapsFrom start finish spans,
      start ≤ gap.start ∧ gap.start ≤ gap.stop ∧ gap.stop ≤ finish := by
  induction spans generalizing start with
  | nil => simpa [gapsFrom] using hle
  | cons span spans ih =>
    obtain ⟨hstart, hstop⟩ := hbounds span mem_cons_self
    have hlt := ordered.nonempty span mem_cons_self
    have hrest := ih ordered.of_cons hstop fun other hother =>
      ⟨rel_of_pairwise_cons ordered.apart hother,
        (hbounds other (mem_cons_of_mem _ hother)).2⟩
    intro gap hgap
    rcases mem_cons.mp hgap with rfl | hgap
    · exact ⟨Nat.le_refl _, hstart, by simp only; omega⟩
    · obtain ⟨hfrom, hto⟩ := hrest gap hgap
      exact ⟨by omega, hto⟩

/-- A span cuts a chain into what lies in the gap before it and what lies in later gaps. -/
theorem Chained.select_cut (h : Chained start stop found) (hstart : start ≤ span.start)
    (hlt : span.start < span.stop) (hstop : span.stop ≤ stop)
    (hclear : ∀ occurrence ∈ found, ¬ span.Meets occurrence.start occurrence.stop) :
    ∃ later, found = Gap.select ⟨start, span.start⟩ found ++ later ∧
      Chained start span.start (Gap.select ⟨start, span.start⟩ found) ∧
      Chained span.stop stop later ∧
      ∀ gap : Gap, span.stop ≤ gap.start → gap.select found = gap.select later := by
  obtain ⟨first, later, rfl, hfirst, hlater⟩ := h.cut hstart hlt hstop hclear
  have hselect : Gap.select ⟨start, span.start⟩ (first ++ later) = first := by
    rw [Gap.select_append, Gap.select_eq_self, Gap.select_eq_nil, append_nil]
    · intro occurrence hmem hholds
      have := hlater.bounds occurrence hmem
      have := hholds.2
      simp only at this
      omega
    · intro occurrence hmem
      have := hfirst.bounds occurrence hmem
      exact ⟨this.1, this.2.2⟩
  refine ⟨later, by rw [hselect], by rwa [hselect], hlater, fun gap hgap => ?_⟩
  rw [Gap.select_append, Gap.select_eq_nil, nil_append]
  intro occurrence hmem hholds
  have := hfirst.bounds occurrence hmem
  have := hholds.1
  omega

/-- Edits that meet no span are made gap by gap, and each of them in one gap. -/
theorem applyEditsFrom_eq_weave {write : α → List Char} {document : List Char} {spans : List Span}
    {pos : Nat} {found : List (Occurrence α)} (ordered : Ordered spans)
    (hbounds : ∀ span ∈ spans, pos ≤ span.start ∧ span.stop ≤ document.length)
    (hfound : Chained pos document.length found)
    (hclear : ∀ occurrence ∈ found, ∀ span ∈ spans,
      ¬ span.Meets occurrence.start occurrence.stop) :
    applyEditsFrom pos (editsOf write found) (document.drop pos) =
        weave ((gapsFrom pos document.length spans).map (Gap.filled write found document))
          (spans.map (·.text document)) ∧
      (gapsFrom pos document.length spans).flatMap (·.select found) = found := by
  induction spans generalizing pos found with
  | nil =>
    have hselect : Gap.select ⟨pos, document.length⟩ found = found :=
      Gap.select_eq_self fun occurrence hmem =>
        ⟨(hfound.bounds occurrence hmem).1, (hfound.bounds occurrence hmem).2.2⟩
    have htext : Gap.text ⟨pos, document.length⟩ document = document.drop pos := by
      rw [Gap.text, slice, take_of_length_le (by rw [length_drop])]
    simp [gapsFrom, weave, Gap.filled, hselect, htext]
  | cons span spans ih =>
    obtain ⟨hstart, hstop⟩ := hbounds span mem_cons_self
    have hlt := ordered.nonempty span mem_cons_self
    have hbounds' : ∀ other ∈ spans, span.stop ≤ other.start ∧ other.stop ≤ document.length :=
      fun other hother => ⟨rel_of_pairwise_cons ordered.apart hother,
        (hbounds other (mem_cons_of_mem _ hother)).2⟩
    obtain ⟨later, hsplit, hfirst, hlater, hselect⟩ := hfound.select_cut hstart hlt hstop
      fun occurrence hmem => hclear occurrence hmem span mem_cons_self
    obtain ⟨hweave, hgaps⟩ := ih ordered.of_cons hbounds' hlater fun occurrence hmem other hother =>
      hclear occurrence (hsplit ▸ mem_append_right _ hmem) other
        (mem_cons_of_mem _ hother)
    -- Later gaps start behind the span, so that they hold later occurrences only.
    have hrest := fun gap hgap => hselect gap
      (bounds_of_mem_gapsFrom ordered.of_cons hstop hbounds' gap hgap).1
    constructor
    · have hgap : pos + (Gap.text ⟨pos, span.start⟩ document).length = span.start := by
        rw [Gap.text, length_slice]
        simp only
        omega
      have hspan : span.start + (span.text document).length = span.stop := by
        rw [Span.text, length_slice]
        omega
      have hdocument : document.drop pos = Gap.text ⟨pos, span.start⟩ document ++
          (span.text document ++ document.drop span.stop) := by
        rw [Span.text, slice_append_drop _ (Nat.le_of_lt hlt), Gap.text, slice_append_drop _ hstart]
      have hafter : ∀ occurrence ∈ later,
          span.stop ≤ occurrence.start ∧ occurrence.start ≤ occurrence.stop :=
        fun occurrence hmem =>
          ⟨(hlater.bounds occurrence hmem).1, (hlater.bounds occurrence hmem).2.1⟩
      have hkept : applyEditsFrom span.start (editsOf write later)
          (span.text document ++ document.drop span.stop) =
          span.text document ++ applyEditsFrom span.stop (editsOf write later)
            (document.drop span.stop) := by
        have happend := @applyEditsFrom_append span.start (editsOf write later)
          (span.text document) (document.drop span.stop)
        rw [hspan] at happend
        refine happend fun edit hedit => ?_
        obtain ⟨occurrence, hmem, rfl⟩ := mem_map.mp hedit
        exact hafter occurrence hmem
      have hfilled : (gapsFrom span.stop document.length spans).map
          (Gap.filled write found document) =
          (gapsFrom span.stop document.length spans).map (Gap.filled write later document) :=
        map_congr_left fun gap hgap => by rw [Gap.filled, hrest gap hgap, Gap.filled]
      calc applyEditsFrom pos (editsOf write found) (document.drop pos)
          = applyEditsFrom pos (editsOf write (Gap.select ⟨pos, span.start⟩ found ++ later))
              (Gap.text ⟨pos, span.start⟩ document ++
                (span.text document ++ document.drop span.stop)) := by rw [← hsplit, hdocument]
        _ = Gap.filled write found document ⟨pos, span.start⟩ ++
              (span.text document ++ applyEditsFrom span.stop (editsOf write later)
                (document.drop span.stop)) := by
            rw [applyEditsFrom_append_append (by rwa [hgap])
              (fun occurrence hmem => by have := hafter occurrence hmem; omega), hgap, hkept]
            rfl
        _ = _ := by
            rw [hweave, ← hfilled, gapsFrom, map_cons, map_cons, weave, append_assoc]
    · rw [gapsFrom, flatMap_cons]
      conv_rhs => rw [hsplit, ← hgaps]
      exact congrArg _ (flatMap_congr hrest)

/-- The occurrences that the lookup of neighbours lets through are those that meet no span. -/
theorem freeOccurrences_eq_clearOf (find : Recognizer α) (ordered : Ordered spans)
    (text : List Char) :
    freeOccurrences find spans text = clearOf spans (occurrences find text) := by
  refine filter_congr fun occurrence hmem => ?_
  have hle := (le_start_of_mem_occurrencesFrom 0 0 [] occurrence hmem).2
  have hmeets := not_congr (overlaps_iff_meets ordered hle)
  rw [Bool.eq_iff_iff, Bool.not_eq_true', ← Bool.not_eq_true, hmeets, decide_eq_true_iff]
  simp only [not_exists, not_and]

/-- A replacement outside spans keeps the text of the spans, and in each gap replaces what lies
there. -/
theorem replaceOutside_weaves (bounded : find.IsBounded) (write : α → List Char) (text : List Char)
    (ordered : Ordered spans) (hwithin : ∀ span ∈ spans, span.stop ≤ text.length) :
    ∃ pieces,
      List.Forall₂ (fun gap piece => Substituted write gap.start
          (gap.select (clearOf spans (occurrences find text))) (gap.text text) piece)
        (gapsFrom 0 text.length spans) pieces ∧
      replaceOutside find spans write text = weave pieces (spans.map (·.text text)) ∧
      (gapsFrom 0 text.length spans).flatMap (·.select (clearOf spans (occurrences find text))) =
        clearOf spans (occurrences find text) := by
  have hbounds : ∀ span ∈ spans, 0 ≤ span.start ∧ span.stop ≤ text.length :=
    fun span hspan => ⟨Nat.zero_le _, hwithin span hspan⟩
  have hchain : Chained 0 text.length (clearOf spans (occurrences find text)) :=
    (occurrences_chained bounded text).filter _
  obtain ⟨hweave, hgaps⟩ := @applyEditsFrom_eq_weave _ write text spans 0 _ ordered hbounds hchain
    fun occurrence hmem => of_decide_eq_true (mem_filter.mp hmem).2
  refine ⟨(gapsFrom 0 text.length spans).map
    (Gap.filled write (clearOf spans (occurrences find text)) text), ?_, ?_, hgaps⟩
  · rw [forall₂_map_right_iff, forall₂_same]
    intro gap hgap
    obtain ⟨-, hle, hstop⟩ := bounds_of_mem_gapsFrom ordered (Nat.zero_le _) hbounds gap hgap
    have hlength : gap.start + (gap.text text).length = gap.stop := by
      rw [Gap.text, length_slice]
      omega
    refine Chained.substituted ?_
    rw [hlength]
    exact (hchain.filter _).of_bounds hle fun occurrence hmem =>
      of_decide_eq_true (mem_filter.mp hmem).2
  · rw [replaceOutside, freeOccurrences_eq_clearOf find ordered]
    exact hweave

end

namespace Pattern

theorem recognize_isBounded (size : Nat) (pattern : Pattern) :
    (pattern.recognize size).IsBounded := by
  intro advance cursor n found h
  obtain ⟨-, rfl, rest, hafter⟩ := recognize_eq_some h
  rw [hafter, length_append]
  exact Nat.le_add_right _ _

/-- The lookup of neighbours tells which matches meet a span, the text of the spans is kept, and in
each gap the matches that lie there are replaced. All matches that meet no span lie in a gap. -/
theorem replaceOutside_keeps_spans (pattern : Pattern) (write : Found → List Char)
    (text : List Char) (spans : List Span) (ordered : Ordered spans)
    (hwithin : ∀ span ∈ spans, span.stop ≤ text.length) :
    (∀ start stop, start ≤ stop →
      (overlaps spans.toArray start stop = true ↔ ∃ span ∈ spans, span.Meets start stop)) ∧
    ∃ pieces,
      List.Forall₂ (fun gap piece => Substituted write gap.start
          (gap.select (clearOf spans (pattern.matchesIn text))) (gap.text text) piece)
        (gapsFrom 0 text.length spans) pieces ∧
      pattern.replaceOutside spans write text = weave pieces (spans.map (·.text text)) ∧
      (gapsFrom 0 text.length spans).flatMap (·.select (clearOf spans (pattern.matchesIn text))) =
        clearOf spans (pattern.matchesIn text) :=
  ⟨fun _ _ hle => overlaps_iff_meets ordered hle,
    replaceOutside_weaves (pattern.recognize_isBounded text.length) write text ordered hwithin⟩

/-- In `b'a'b`, the stretch `b'` meets the string, and a replacement keeps `'a'`. -/
theorem replaceOutside_keeps_quoted :
    overlaps #[⟨1, 4, .string⟩] 0 2 = true ∧
      ∃ first last, (Pattern.one ⟨[.range 97 98], false, false⟩).replaceOutside
          [⟨1, 4, .string⟩] (fun _ => ['x', 'y']) ['b', '\x27', 'a', '\x27', 'b'] =
        first ++ ['\x27', 'a', '\x27'] ++ last := by
  have ordered : Ordered [⟨1, 4, .string⟩] := ⟨by decide, pairwise_singleton _ _⟩
  obtain ⟨hmeets, pieces, hpieces, hout, -⟩ := replaceOutside_keeps_spans
    (.one ⟨[.range 97 98], false, false⟩) (fun _ => ['x', 'y']) ['b', '\x27', 'a', '\x27', 'b']
    [⟨1, 4, .string⟩] ordered (by decide)
  refine ⟨(hmeets 0 2 (by decide)).mpr ⟨_, mem_singleton_self _, by decide⟩, ?_⟩
  obtain ⟨first, last, rfl⟩ := length_eq_two.mp hpieces.length_eq.symm
  exact ⟨first, last, hout.trans (by simp [weave, Span.text, slice])⟩

end Pattern

end StructuredText
