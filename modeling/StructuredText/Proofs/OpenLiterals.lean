import StructuredText.Proofs.Pipeline

/-!
# Literals that are not closed

A literal that ends before the text does is closed, so that at most the last one is not. Padding
closes no literal and opens none.

Results:
1. `closes_of_literalAt`: a literal that ends before the text does is closed.
2. `closes_padLiteral`: padding does not change whether a literal is closed.
3. `Format.canonical_literals`: formatting keeps strings, and comments but for padding.
-/

namespace StructuredText

open List Literal

namespace Literal

/-! ## Strings -/

/-- The number of dollars at the end of a text. -/
def trailingDollars (text : List Char) : Nat :=
  (text.reverse.takeWhile (· == '$')).length

variable {c : Char}

theorem trailingDollars_cons_of_ne (hc : c ≠ '$') (text : List Char) :
    trailingDollars (c :: text) = trailingDollars text := by
  rw [trailingDollars, trailingDollars, reverse_cons, takeWhile_append_of_head]
  rintro d ⟨⟩
  simpa using hc

theorem trailingDollars_dollar_cons (text : List Char) :
    trailingDollars ('$' :: text) = trailingDollars text ∧ trailingDollars text ≠ text.length ∨
      trailingDollars ('$' :: text) = text.length + 1 ∧ trailingDollars text = text.length := by
  simp only [trailingDollars, reverse_cons, takeWhile_append, length_reverse]
  split
  next hall =>
    rw [hall]
    simp
  next hall => exact .inl ⟨rfl, hall⟩

theorem trailingDollars_le (text : List Char) : trailingDollars text ≤ text.length := by
  have := (takeWhile_sublist (l := text.reverse) (· == '$')).length_le
  rwa [length_reverse] at this

/-- A closing quote stands behind an even number of dollars. -/
theorem even_trailingDollars {quote : Char} {rest : List Char} (hrest : rest ≠ []) :
    ∀ inside : List Char, stringLength quote (inside ++ quote :: rest) = inside.length + 1 →
      trailingDollars inside % 2 = 0
  | [], _ => rfl
  | c :: inside, h => by
      by_cases hc : c = '$'
      · subst hc
        cases inside with
        | nil =>
          have := stringLength_pos quote hrest
          simp only [singleton_append, stringLength, length_singleton] at h
          omega
        | cons d inside =>
          simp only [cons_append, stringLength, length_cons] at h
          have heven := @even_trailingDollars quote rest hrest inside (by omega)
          have hfirst := trailingDollars_dollar_cons (d :: inside)
          rw [length_cons] at hfirst
          have hle := trailingDollars_le inside
          by_cases hd : d = '$'
          · subst hd
            have hsecond := trailingDollars_dollar_cons inside
            omega
          · rw [trailingDollars_cons_of_ne hd] at hfirst
            omega
      · rw [trailingDollars_cons_of_ne hc]
        rw [cons_append, stringLength_cons_of_ne hc, length_cons] at h
        split at h
        · omega
        · exact @even_trailingDollars quote rest hrest inside (by omega)
termination_by inside => inside.length

/-- A literal that ends before the text does is closed. -/
theorem closes_of_literalAt {kind : Kind} {body rest : List Char}
    (h : literalAt (c :: (body ++ rest)) = some (body.length + 1, kind)) (hrest : rest ≠ []) :
    closes kind (c :: body) = true := by
  obtain ⟨rfl, hquote, hlength⟩ | ⟨rfl, rfl, inside, rfl, hlength⟩ |
    ⟨rfl, rfl, inside, rfl, hlength⟩ | ⟨rfl, rfl, inside, rfl, hlength⟩ := literalAt_append_iff.mp h
  · obtain ⟨inside, rfl⟩ := (stringLength_ends hrest body hlength).1
    have heven := even_trailingDollars hrest inside (by simpa using hlength)
    have hc : c ≠ '$' := by
      rintro rfl
      simp at hquote
    have hescape : endsWithEscape (c :: inside) = false := by
      have := trailingDollars_cons_of_ne hc inside
      rw [trailingDollars] at this
      rw [endsWithEscape, this, heven]
      rfl
    rw [closes, ← cons_append, dropLast_concat, getLast?_concat, hescape]
    simp
  · exact Spacing.isSuffixOf_closer.mpr (commentLength_ends hrest inside hlength).1
  · exact Spacing.isSuffixOf_closer.mpr (commentLength_ends hrest inside hlength).1
  · rfl

end Literal

/-! ## Padding -/

namespace Spacing

/-- Padding does not change whether a block or slash comment is closed. -/
theorem isSuffixOf_closer_padded {cl : Char} {core ending lead trail : List Char}
    (hpads : Pads core ending lead trail)
    (hending : ending = ['*', cl] ∨ ending = [] ∧ ∀ other, core ≠ other ++ ['*', cl]) :
    (∃ other, lead ++ (core ++ (trail ++ ending)) = other ++ ['*', cl]) ↔
      ∃ other, core ++ ending = other ++ ['*', cl] := by
  rcases hending with rfl | ⟨rfl, hopen⟩
  · exact ⟨fun _ => ⟨core, rfl⟩, fun _ => ⟨lead ++ (core ++ trail), by simp⟩⟩
  · rw [append_nil core]
    refine ⟨?_, fun ⟨other, hother⟩ => absurd hother (hopen other)⟩
    rintro ⟨other, hother⟩
    have htrail : trail = [] := by
      rcases hpads.trails with rfl | ⟨-, hne⟩
      · rfl
      · exact absurd rfl hne
    rw [htrail, append_nil, append_nil] at hother
    rcases hpads.leads with rfl | rfl
    · exact ⟨other, hother⟩
    · -- The blank is not part of the closer.
      cases other with
      | nil => cases hother
      | cons d other => exact ⟨other, (cons_eq_cons.mp hother).2⟩

theorem closes_padComment {kind : Kind} {c cl : Char} {inside : List Char}
    (hcloses : ∀ inside, closes kind (c :: '*' :: inside) =
      (decide (4 ≤ (c :: '*' :: inside).length) && ['*', cl].isSuffixOf (c :: '*' :: inside)))
    (hcloser : closer kind = ['*', cl]) :
    closes kind (padComment kind (c :: '*' :: inside)) = closes kind (c :: '*' :: inside) := by
  obtain ⟨core, ending, lead, trail, rfl, hpads, htext, hends⟩ :=
    exists_padComment (hcloses inside) hcloser
  rw [htext, hcloses, hcloses, Bool.eq_iff_iff]
  exact (isSuffixOf_closer.trans (isSuffixOf_closer_padded hpads hends)).trans
    isSuffixOf_closer.symm

/-- Padding does not change whether a literal is closed. -/
theorem closes_padLiteral {kind : Kind} {c : Char} {body rest : List Char}
    (h : literalAt (c :: (body ++ rest)) = some (body.length + 1, kind)) :
    closes kind (padLiteral kind (c :: body)) = closes kind (c :: body) := by
  obtain ⟨rfl, hquote, -⟩ | ⟨rfl, rfl, inside, rfl, -⟩ | ⟨rfl, rfl, inside, rfl, -⟩ |
    ⟨rfl, rfl, inside, rfl, -⟩ := literalAt_append_iff.mp h
  · rfl
  · exact @closes_padComment .blockComment '(' ')' inside (fun _ => rfl) rfl
  · exact @closes_padComment .slashComment '/' '/' inside (fun _ => rfl) rfl
  · rfl

end Spacing

/-! ## Literals of a text -/

variable {span : Span} {text : List Char}

/-- The literals of a marked text are where they are found. -/
theorem Marked.literalAt_of_mem {before : List Char} {cells : List Cell}
    (h : Marked recognize before cells) {pos : Nat} (hspan : span ∈ spansFrom pos cells) :
    ∃ left c body rest, cells = left ++ (literalCells span.kind c body ++ rest) ∧
      span.start = pos + left.length ∧ span.stop = span.start + body.length + 1 ∧
      literalAt (c :: (body ++ chars rest)) = some (body.length + 1, span.kind) := by
  induction h generalizing pos with
  | nil => cases hspan
  | @code _ d rest _ _ ih =>
    obtain ⟨left, c, body, rest, rfl, hstart, hstop, hliteral⟩ := ih hspan
    refine ⟨⟨d, .code⟩ :: left, c, body, rest, rfl, ?_, hstop, hliteral⟩
    rw [hstart, length_cons]
    omega
  | @literal _ body d kind rest hfind hrest ih =>
    rw [spansFrom_literalCells hrest.head?_not_inside] at hspan
    rcases mem_cons.mp hspan with rfl | hspan
    · exact ⟨[], d, body, rest, rfl, rfl, rfl, hfind⟩
    · obtain ⟨left, c, body', rest', rfl, hstart, hstop, hliteral⟩ := ih hspan
      refine ⟨literalCells kind d body ++ left, c, body', rest', by simp, ?_, hstop, hliteral⟩
      rw [hstart, length_append, literalCells, length_cons, length_insideCells]
      omega

theorem exists_literal_of_mem_scan (h : span ∈ scan text) :
    ∃ c body, span.text text = c :: body ∧ span.stop ≤ text.length ∧
      literalAt (c :: (body ++ text.drop span.stop)) = some (body.length + 1, span.kind) := by
  obtain ⟨cells, rfl, hmarked⟩ := exists_marked_recognize text
  rw [hmarked.scan_eq] at h
  obtain ⟨left, c, body, rest, rfl, hstart, hstop, hliteral⟩ := hmarked.literalAt_of_mem h
  have hlength : (left ++ literalCells span.kind c body).length = span.stop := by
    rw [length_append, length_literalCells]
    omega
  have hrest : (chars (left ++ (literalCells span.kind c body ++ rest))).drop span.stop =
      chars rest := by
    rw [← append_assoc, chars_append, drop_left' (by rw [length_chars, hlength])]
  refine ⟨c, body, ?_, ?_, hrest ▸ hliteral⟩
  · rw [Span.text, slice, chars_append, chars_append, chars_literalCells,
      drop_left' (by rw [length_chars]; omega),
      take_left' (by rw [length_cons]; omega)]
  · rw [length_chars, ← append_assoc, length_append, hlength]
    exact Nat.le_add_right _ _

/-- A literal that is not closed runs to the end of the text. -/
theorem stop_of_unterminated (h : unterminated text = some span) :
    span.stop = text.length := by
  obtain ⟨c, body, htext, hle, hliteral⟩ :=
    exists_literal_of_mem_scan (mem_of_find?_eq_some h)
  have hopen := find?_some h
  refine Nat.le_antisymm hle (drop_eq_nil_iff.mp ?_)
  by_contra hrest
  rw [Span.isTerminated, htext, closes_of_literalAt hliteral hrest] at hopen
  cases hopen

theorem isSome_unterminated (text : List Char) :
    (unterminated text).isSome = (literalsOf text).any fun entry => !closes entry.1 entry.2 := by
  rw [unterminated, literalsOf, any_map, Bool.eq_iff_iff, find?_isSome, any_eq_true]
  rfl

/-- Padding closes no literal of a text and opens none. -/
theorem closes_padEntry {entry : Kind × List Char} (h : entry ∈ literalsOf text) :
    closes (Spacing.padEntry entry).1 (Spacing.padEntry entry).2 = closes entry.1 entry.2 := by
  obtain ⟨span, hspan, rfl⟩ := mem_map.mp h
  obtain ⟨c, body, htext, -, hliteral⟩ := exists_literal_of_mem_scan hspan
  rw [Spacing.padEntry, htext]
  exact Spacing.closes_padLiteral hliteral

/-- Texts whose literals differ by padding have an open literal both, or neither. -/
theorem isSome_unterminated_of_padded {out : List Char}
    (h : literalsOf out = (literalsOf text).map Spacing.padEntry) :
    (unterminated out).isSome = (unterminated text).isSome := by
  rw [isSome_unterminated, isSome_unterminated, h, any_map, Bool.eq_iff_iff,
    any_eq_true, any_eq_true]
  refine exists_congr fun entry => and_congr_right fun hentry => ?_
  rw [Function.comp_apply, closes_padEntry hentry]

namespace Format

theorem passes_literals [Host] (text : List Char) :
    ∃ out, runPasses (passes Vocabulary.standard) text = .ok out ∧
      literalsOf out = (literalsOf text).map Spacing.padEntry := by
  have hrel := fun {passes : List Pass} => @runPasses_rel Keeps .refl
    (fun _ _ _ => Keeps.trans) passes
  obtain ⟨early, hearly, hkeeps⟩ := hrel earlyPasses_keep text
  obtain ⟨spaced, hspaced, hkeeps'⟩ := hrel spacingPasses_keep (Spacing.padComments early)
  have hbreaks := (LineBreak.breakBlocks_respaced spaced).keeps
  obtain ⟨out, hout, hkeeps''⟩ := hrel linePasses_keep (LineBreak.breakBlocks spaced)
  refine ⟨out, ?_, ?_⟩
  · rw [passes, runPasses_append, runPasses_append, hearly, Except.bind, runPasses_cons,
      Except.bind, hspaced, Except.bind, runPasses_cons, Except.bind, hout]
  · rw [hkeeps''.literals, hbreaks.literals, hkeeps'.literals, Spacing.literalsOf_padComments,
      hkeeps.literals]

/-- Formatting keeps the strings of a text, and its comments but for padding. A literal that is not
closed stays so, and runs to the end of the text. -/
theorem canonical_literals [Host] (file : String) (text : List Char) :
    ∃ formatted, canonical Vocabulary.standard file text = .ok formatted ∧
      literalsOf formatted.text = (literalsOf (normalizeNewlines text)).map Spacing.padEntry ∧
      ((unterminated formatted.text).isSome = (unterminated (normalizeNewlines text)).isSome) ∧
      (∀ span, unterminated (normalizeNewlines text) = some span →
        span.stop = (normalizeNewlines text).length) ∧
      ∀ span, unterminated formatted.text = some span → span.stop = formatted.text.length := by
  obtain ⟨out, hout, hliterals⟩ := passes_literals (normalizeNewlines text)
  obtain ⟨formatted, hformatted, rfl⟩ := canonical_of_runPasses hout file
  exact ⟨formatted, hformatted, hliterals, isSome_unterminated_of_padded hliterals,
    fun _ => stop_of_unterminated, fun _ => stop_of_unterminated⟩

end Format

end StructuredText
