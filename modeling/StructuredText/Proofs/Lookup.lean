import Mathlib.Data.List.Basic
import StructuredText.Literal.Lookup

/-!
# Looking up spans

Bisection finds, in spans that are in order and apart, what a search through all of them finds.

Results:
1. `bisect_splits`: bisection splits the spans into those that start at or before a position and
   those that start behind it.
2. `overlaps_iff`: a stretch meets a span exactly if it shares a code point with one of them.
3. `isProtected_iff`: a position is protected exactly if one of the spans holds it.
4. `overlaps_eq_false_iff`: a stretch meets no span exactly if none of its code points is in one.
-/

namespace StructuredText.Literal

open List

variable {spans : List Span} {i : Nat} {span : Span}

/-- The spans are not empty, in order, and apart. -/
structure Ordered (spans : List Span) : Prop where
  nonempty : ∀ span ∈ spans, span.start < span.stop
  apart : spans.Pairwise fun first second => first.stop ≤ second.start

theorem Ordered.of_cons (ordered : Ordered (span :: spans)) : Ordered spans :=
  ⟨fun other hother => ordered.nonempty other (mem_cons_of_mem _ hother),
    ordered.apart.of_cons⟩

/-- The first `n` spans start at or before `pos`, and the others behind it. -/
structure Splits (spans : List Span) (pos : Int) (n : Nat) : Prop where
  le_length : n ≤ spans.length
  started : ∀ i span, i < n → spans[i]? = some span → (span.start : Int) ≤ pos
  later : ∀ i span, n ≤ i → spans[i]? = some span → pos < span.start

variable {j start : Nat} {first second : Span} {pos : Int}

/-- Spans further on start at or behind the end of earlier ones. -/
theorem Ordered.stop_le_start (ordered : Ordered spans) (hij : i < j) (hi : spans[i]? = some first)
    (hj : spans[j]? = some second) : first.stop ≤ second.start := by
  obtain ⟨hi', rfl⟩ := List.getElem?_eq_some_iff.mp hi
  obtain ⟨hj', rfl⟩ := List.getElem?_eq_some_iff.mp hj
  exact List.pairwise_iff_getElem.mp ordered.apart i j hi' hj' hij

theorem Ordered.start_lt_stop (ordered : Ordered spans) (hi : spans[i]? = some span) :
    span.start < span.stop :=
  ordered.nonempty span (mem_of_getElem? hi)

theorem Ordered.start_le_start (ordered : Ordered spans) (hij : i ≤ j) (hi : spans[i]? = some first)
    (hj : spans[j]? = some second) : first.start ≤ second.start := by
  rcases Nat.lt_or_eq_of_le hij with hlt | rfl
  · have hfirst := ordered.start_lt_stop hi
    have happart := ordered.stop_le_start hlt hi hj
    omega
  · rw [hi] at hj
    cases hj
    exact Nat.le_refl _

/-- Halving keeps the two sides: below `low` all spans have started, from `high` on none has. -/
theorem bisect_splits (ordered : Ordered spans) (pos : Int) :
    ∀ steps low high, high - low ≤ steps → low ≤ high → high ≤ spans.length →
      (∀ i span, i < low → spans[i]? = some span → (span.start : Int) ≤ pos) →
      (∀ i span, high ≤ i → spans[i]? = some span → pos < span.start) →
      Splits spans pos (bisect spans.toArray pos steps low high) := by
  intro steps
  induction steps with
  | zero =>
    intro low high hsteps hle hhigh hlow hlater
    have : low = high := by omega
    subst this
    exact ⟨hhigh, hlow, hlater⟩
  | succ steps ih =>
    intro low high hsteps hle hhigh hlow hlater
    by_cases hlt : low < high
    · have hmid : (low + high) / 2 < spans.length := by omega
      have hget : spans[(low + high) / 2]? = some (spans[(low + high) / 2]) :=
        List.getElem?_eq_getElem hmid
      simp only [bisect, if_pos hlt, getElem?_toArray, hget]
      split
      next hpos =>
        refine ih low ((low + high) / 2) (by omega) (by omega) (by omega) hlow ?_
        intro i span hi hspan
        have := ordered.start_le_start hi hget hspan
        omega
      next hpos =>
        refine ih ((low + high) / 2 + 1) high (by omega) (by omega) hhigh ?_ hlater
        intro i span hi hspan
        have := ordered.start_le_start (by omega) hspan hget
        omega
    · have : low = high := by omega
      subst this
      simp only [bisect, if_neg hlt]
      exact ⟨hhigh, hlow, hlater⟩

theorem startedBy_splits (ordered : Ordered spans) (pos : Int) :
    Splits spans pos (startedBy spans.toArray pos) := by
  refine bisect_splits ordered pos _ 0 _ ?_ (Nat.zero_le _) ?_ ?_ ?_
  · simp
  · simp
  · intro i span hi
    exact absurd hi (Nat.not_lt_zero i)
  · intro i span hi hspan
    rw [getElem?_eq_none (by simpa using hi)] at hspan
    cases hspan

/-- The last span that has started, and where it stands. -/
theorem lastStartedBy_eq (pos : Int) :
    lastStartedBy spans.toArray pos = some span ↔
      ∃ n, startedBy spans.toArray pos = n + 1 ∧ spans[n]? = some span := by
  unfold lastStartedBy
  cases hn : startedBy spans.toArray pos with
  | zero | succ n => simp

/-- A span that has started and reaches beyond `pos` is the last that has started. -/
theorem lastStartedBy_of_mem (ordered : Ordered spans) (hmem : span ∈ spans)
    (hstart : (span.start : Int) ≤ pos) (hstop : pos < span.stop) :
    lastStartedBy spans.toArray pos = some span := by
  obtain ⟨i, hi⟩ := mem_iff_getElem?.mp hmem
  have splits := startedBy_splits ordered pos
  have hin : i < startedBy spans.toArray pos := by
    by_contra hge
    have := splits.later i span (by omega) hi
    omega
  rw [lastStartedBy_eq]
  obtain ⟨n, hn⟩ : ∃ n, startedBy spans.toArray pos = n + 1 := ⟨_, (Nat.succ_pred (by omega)).symm⟩
  have hlen := splits.le_length
  rcases Nat.lt_or_eq_of_le (Nat.lt_succ_iff.mp (hn ▸ hin)) with hlt | rfl
  · have hbound : n < spans.length := by omega
    have hget := List.getElem?_eq_getElem hbound
    have happart := ordered.stop_le_start hlt hi hget
    have := splits.started n _ (by omega) hget
    omega
  · exact ⟨i, hn, hi⟩

/-- The span found for a position is the only one that holds it. -/
theorem spanAt_eq_some_iff (ordered : Ordered spans) :
    spanAt spans.toArray pos = some span ↔
      span ∈ spans ∧ (span.start : Int) ≤ pos ∧ pos < span.stop := by
  simp only [spanAt, Option.filter_eq_some_iff, Bool.and_eq_true, decide_eq_true_eq]
  constructor
  · rintro ⟨hlast, hstart, hstop⟩
    obtain ⟨n, _, hspan⟩ := (lastStartedBy_eq pos).mp hlast
    exact ⟨mem_of_getElem? hspan, hstart, hstop⟩
  · rintro ⟨hmem, hstart, hstop⟩
    exact ⟨lastStartedBy_of_mem ordered hmem hstart hstop, hstart, hstop⟩

/-- A position is protected exactly if one of the spans holds it. -/
theorem isProtected_iff (ordered : Ordered spans) (pos : Int) :
    isProtected spans.toArray pos = true ↔
      ∃ span ∈ spans, (span.start : Int) ≤ pos ∧ pos < span.stop := by
  rw [isProtected, Option.isSome_iff_exists]
  constructor
  · rintro ⟨span, hspan⟩
    exact ⟨span, (spanAt_eq_some_iff ordered).mp hspan⟩
  · rintro ⟨span, hspan⟩
    exact ⟨span, (spanAt_eq_some_iff ordered).mpr hspan⟩

/-- A stretch that is not empty meets a span exactly if it shares a code point with one. -/
theorem overlaps_iff (ordered : Ordered spans) {stop : Nat} (hlt : start < stop) :
    overlaps spans.toArray start stop = true ↔
      ∃ span ∈ spans, span.start < stop ∧ start < span.stop := by
  have splits := startedBy_splits ordered (start : Int)
  simp only [overlaps, if_neg (Nat.ne_of_lt hlt), Bool.or_eq_true, Option.any_eq_true,
    decide_eq_true_eq, getElem?_toArray]
  constructor
  · rintro (⟨span, hlast, hstop⟩ | ⟨span, hnext, hstart⟩)
    · obtain ⟨n, hn, hspan⟩ := (lastStartedBy_eq _).mp hlast
      have := splits.started n span (by omega) hspan
      exact ⟨span, mem_of_getElem? hspan, by omega, hstop⟩
    · have := splits.later _ span (Nat.le_refl _) hnext
      have := ordered.start_lt_stop hnext
      exact ⟨span, mem_of_getElem? hnext, hstart, by omega⟩
  · rintro ⟨span, hmem, hstart, hstop⟩
    by_cases hle : span.start ≤ start
    · exact .inl ⟨span, lastStartedBy_of_mem ordered hmem (by omega) (by omega), hstop⟩
    · obtain ⟨i, hi⟩ := mem_iff_getElem?.mp hmem
      have hi' : startedBy spans.toArray (start : Int) ≤ i := by
        by_contra hlt'
        have := splits.started i span (by omega) hi
        omega
      have hlen := (List.getElem?_eq_some_iff.mp hi).1
      have hget := List.getElem?_eq_getElem (Nat.lt_of_le_of_lt hi' hlen)
      have := ordered.start_le_start hi' hget hi
      exact .inr ⟨_, hget, by omega⟩

/-- The code points from `start` on, `length` of them, are in no span. -/
def Uncovered (spans : List Span) (start length : Nat) : Prop :=
  ∀ i < length, ∀ span ∈ spans, ¬ (span.start ≤ start + i ∧ start + i < span.stop)

instance (spans : List Span) (start length : Nat) : Decidable (Uncovered spans start length) :=
  inferInstanceAs (Decidable
    (∀ i < length, ∀ span ∈ spans, ¬ (span.start ≤ start + i ∧ start + i < span.stop)))

theorem overlaps_eq_false_iff (ordered : Ordered spans) {length : Nat} (hpos : 0 < length) :
    overlaps spans.toArray start (start + length) = false ↔ Uncovered spans start length := by
  rw [Bool.eq_false_iff, ne_eq, overlaps_iff ordered (Nat.lt_add_of_pos_right hpos)]
  constructor
  · intro h i hi span hspan hcovered
    exact h ⟨span, hspan, by omega, by omega⟩
  · rintro h ⟨span, hspan, hstart, hstop⟩
    have hnonempty := ordered.nonempty span hspan
    -- The first code point that the two share.
    exact h (max start span.start - start) (by omega) span hspan ⟨by omega, by omega⟩

end StructuredText.Literal
