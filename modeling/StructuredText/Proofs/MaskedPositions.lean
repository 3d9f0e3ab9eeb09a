import StructuredText.Literal.Mask
import StructuredText.Proofs.Lookup
import StructuredText.Proofs.SteadyEdits

/-!
# Masked positions

A mask is made by one sweep over the spans, and whether a position is protected is looked up by
bisection. The two agree: the code points that a mask covers are those at protected positions.

Results:
1. `keepLengths_maskEdits`: masking with a filler of one code point moves nothing.
2. `maskSpans_pointwise`: what stands at each position of a masked text.
-/

namespace StructuredText.Literal

/-- What stands in place of a code point of a literal. -/
def covered (fill : Char) (keepNewlines : Bool) (c : Char) : Char :=
  if keepNewlines ∧ c = '\n' then '\n' else fill

theorem maskBody_eq_map (fill : Char) (keepNewlines : Bool) (body : List Char) :
    maskBody [fill] keepNewlines body = body.map (covered fill keepNewlines) := by
  induction body with
  | nil => rfl
  | cons c body ih =>
    rw [List.map_cons, ← ih, maskBody, maskBody, List.flatMap_cons, covered]
    by_cases h : keepNewlines = true ∧ c = '\n' <;> simp [h]

section

variable {text : List Char} {spans : List Span}

theorem length_text {span : Span} (hle : span.start ≤ span.stop) (hstop : span.stop ≤ text.length) :
    span.start + (span.text text).length = span.stop := by
  rw [Span.text, length_slice]
  omega

/-- The edits that mask spans. -/
def maskEdits (fill : Char) (keepNewlines : Bool) (spans : List Span) (text : List Char) :
    List Edit :=
  spans.map fun span => ⟨span.start, span.stop, maskBody [fill] keepNewlines (span.text text)⟩

/-- Masking with a filler of one code point moves nothing. -/
theorem keepLengths_maskEdits (ordered : Ordered spans)
    (within : ∀ span ∈ spans, span.stop ≤ text.length) (fill : Char) (keepNewlines : Bool) :
    KeepLengths 0 text.length (maskEdits fill keepNewlines spans text) where
  apart := List.pairwise_map.mpr ordered.apart
  within := by
    intro edit hedit
    obtain ⟨span, hspan, rfl⟩ := List.mem_map.mp hedit
    refine ⟨Nat.zero_le _, ?_⟩
    rw [Nat.zero_add]
    exact within span hspan
  same := by
    intro edit hedit
    obtain ⟨span, hspan, rfl⟩ := List.mem_map.mp hedit
    rw [length_maskBody]
    exact length_text (Nat.le_of_lt (ordered.nonempty span hspan)) (within span hspan)

/-- A code point in a span is covered. -/
theorem getElem?_maskSpans_of_mem (ordered : Ordered spans)
    (within : ∀ span ∈ spans, span.stop ≤ text.length) (fill : Char) (keepNewlines : Bool)
    {span : Span} (hspan : span ∈ spans) {i : Nat} (hstart : span.start ≤ i)
    (hstop : i < span.stop) :
    (maskSpans [fill] keepNewlines spans text)[i]? = text[i]?.map (covered fill keepNewlines) := by
  have hkeep := keepLengths_maskEdits ordered within fill keepNewlines
  have hmem : ⟨span.start, span.stop, maskBody [fill] keepNewlines (span.text text)⟩ ∈
      maskEdits fill keepNewlines spans text := List.mem_map_of_mem hspan
  obtain ⟨k, rfl⟩ := Nat.exists_eq_add_of_le hstart
  have hslice : span.text text = slice text span.start (span.start + (span.stop - span.start)) := by
    rw [Span.text, Nat.add_sub_cancel' (by omega)]
  calc (maskSpans [fill] keepNewlines spans text)[span.start + k]?
      = (maskBody [fill] keepNewlines (span.text text))[k]? := by
        rw [← Nat.zero_add (span.start + k)] at hstart hstop
        refine (getElem?_applyEditsFrom_of_mem hkeep hmem hstart hstop).trans ?_
        rw [Nat.zero_add, Nat.add_sub_cancel_left]
    _ = (span.text text)[k]?.map (covered fill keepNewlines) := by
        rw [maskBody_eq_map, List.getElem?_map]
    _ = text[span.start + k]?.map (covered fill keepNewlines) := by
        rw [hslice, getElem?_slice (by omega)]

/-- A code point that is in no span is kept. -/
theorem getElem?_maskSpans_of_apart (ordered : Ordered spans)
    (within : ∀ span ∈ spans, span.stop ≤ text.length) (fill : Char) (keepNewlines : Bool) {i : Nat}
    (h : ∀ span ∈ spans, ¬ (span.start ≤ i ∧ i < span.stop)) :
    (maskSpans [fill] keepNewlines spans text)[i]? = text[i]? := by
  refine getElem?_applyEditsFrom_of_apart
    (keepLengths_maskEdits ordered within fill keepNewlines) fun edit hedit => ?_
  obtain ⟨span, hspan, rfl⟩ := List.mem_map.mp hedit
  rw [Nat.zero_add]
  exact h span hspan

end

/-- A mask has the length of the text. At a protected position it has the filler, or the line feed
that it is to keep, and at every other position the code point of the text. The protected positions
are those that some span holds. -/
theorem maskSpans_pointwise {text : List Char} {spans : List Span} (ordered : Ordered spans)
    (within : ∀ span ∈ spans, span.stop ≤ text.length) (fill : Char) (keepNewlines : Bool) :
    (maskSpans [fill] keepNewlines spans text).length = text.length ∧
    (∀ (i : Nat) (c : Char), text[i]? = some c →
      (maskSpans [fill] keepNewlines spans text)[i]? =
        some (if isProtected spans.toArray i then
          if keepNewlines ∧ c = '\n' then '\n' else fill
        else c)) ∧
    ∀ pos : Int, isProtected spans.toArray pos = true ↔
      ∃ span ∈ spans, (span.start : Int) ≤ pos ∧ pos < span.stop := by
  refine ⟨length_applyEditsFrom (keepLengths_maskEdits ordered within fill keepNewlines),
    fun i c hc => ?_, isProtected_iff ordered⟩
  have hprotected := isProtected_iff ordered (i : Int)
  simp only [Int.ofNat_le, Int.ofNat_lt] at hprotected
  split
  next h =>
    obtain ⟨span, hspan, hstart, hstop⟩ := hprotected.mp h
    rw [getElem?_maskSpans_of_mem ordered within fill keepNewlines hspan hstart hstop, hc,
      Option.map_some, covered]
  next h =>
    rw [getElem?_maskSpans_of_apart ordered within fill keepNewlines, hc]
    exact fun span hspan hholds => h (hprotected.mpr ⟨span, hspan, hholds⟩)

/-- Two spans next to each other, with a line feed at the end of the first one, and one at the end
of the text. -/
theorem maskSpans_pointwise_adjacent :
    let text := "a'b\n(*c*);'".toList
    let spans : List Span := [⟨1, 4, .string⟩, ⟨4, 9, .blockComment⟩, ⟨10, 11, .string⟩]
    (Ordered spans ∧ ∀ span ∈ spans, span.stop ≤ text.length) ∧
      (maskSpans ['_'] true spans text).length = text.length ∧
      (∀ (i : Nat) (c : Char), text[i]? = some c →
        (maskSpans ['_'] true spans text)[i]? =
          some (if isProtected spans.toArray i then if true ∧ c = '\n' then '\n' else '_' else c)) ∧
      ∀ pos : Int, isProtected spans.toArray pos = true ↔
        ∃ span ∈ spans, (span.start : Int) ≤ pos ∧ pos < span.stop := by
  intro text spans
  have ordered : Ordered spans := ⟨by decide, by decide⟩
  have within : ∀ span ∈ spans, span.stop ≤ text.length := by decide
  exact ⟨⟨ordered, within⟩, maskSpans_pointwise ordered within '_' true⟩

end StructuredText.Literal
