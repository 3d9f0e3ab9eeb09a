import Mathlib.Data.List.Sort
import StructuredText.Proofs.OpenLiterals

/-!
# How literals are spelled

A description of strings and comments that does not mention the scanner, and the proof that there is
one list of spans that fits it: the one that the scanner finds.

Results:
1. `literalAt_eq_some_iff`: a literal is found where its spelling stands, and with its length.
2. `literalAt_eq_none_iff_opens`: nothing is found exactly where no opener stands.
3. `scans_iff`: the spans of the literals of a text are those that `scan` lists, and no others.
-/

namespace StructuredText

open List

namespace Literal

variable {c quote mark closer : Char} {body rest text : List Char} {span : Span}

/-- What a string holds up to its closing quote: `$` takes the next code point with it. -/
inductive StringBody (quote : Char) : List Char → Prop
  | nil : StringBody quote []
  | plain {c : Char} {rest : List Char} :
      c ≠ quote → c ≠ '$' → StringBody quote rest → StringBody quote (c :: rest)
  | escaped {c : Char} {rest : List Char} :
      StringBody quote rest → StringBody quote ('$' :: c :: rest)

def IsQuote (c : Char) : Prop :=
  c = '\x27' ∨ c = '\x22'

/-- The code point before the star that opens a comment, and the one behind the star that closes
it. -/
inductive Delimits : Kind → (opener closer : Char) → Prop
  | block : Delimits .blockComment '(' ')'
  | slash : Delimits .slashComment '/' '/'

/-- `literal` is a literal of the given kind if `rest` stands behind it. What is not closed goes to
the end of the text. -/
inductive Spelled : Kind → (literal rest : List Char) → Prop
  | closedString {quote : Char} {body rest : List Char} :
      IsQuote quote → StringBody quote body → Spelled .string (quote :: (body ++ [quote])) rest
  | openString {quote : Char} {body : List Char} :
      IsQuote quote → StringBody quote body → Spelled .string (quote :: body) []
  -- A `$` that nothing follows escapes nothing.
  | openEscape {quote : Char} {body : List Char} :
      IsQuote quote → StringBody quote body → Spelled .string (quote :: (body ++ ['$'])) []
  | closedComment {kind : Kind} {opener closer : Char} {body rest : List Char} :
      Delimits kind opener closer → ¬ ['*', closer] <:+: body ++ ['*'] →
      Spelled kind (opener :: '*' :: (body ++ ['*', closer])) rest
  | openComment {kind : Kind} {opener closer : Char} {body : List Char} :
      Delimits kind opener closer → ¬ ['*', closer] <:+: body →
      Spelled kind (opener :: '*' :: body) []
  | lineComment {body rest : List Char} :
      '\n' ∉ body → (∀ c ∈ body.getLast?, isBlank c = false) →
      (∀ c ∈ rest.takeWhile (· != '\n'), isBlank c = true) →
      Spelled .lineComment ('/' :: '/' :: body) rest

/-- The ways in which a string or comment can start. -/
def openers : List (List Char) :=
  [['\x27'], ['\x22'], ['(', '*'], ['/', '*'], ['/', '/']]

def Opens (text : List Char) : Prop :=
  ∃ opener ∈ openers, opener <+: text

/-- The spans are those of the strings and comments of the text. -/
structure Scans (text : List Char) (spans : List Span) : Prop where
  ordered : Ordered spans
  within : ∀ span ∈ spans, span.stop ≤ text.length
  uncovered : ∀ pos, (∀ span ∈ spans, ¬ (span.start ≤ pos ∧ pos < span.stop)) →
    ¬ Opens (text.drop pos)
  spelled : ∀ span ∈ spans, Spelled span.kind (span.text text) (text.drop span.stop)

/-! ## Strings -/

theorem IsQuote.ne_dollar (h : IsQuote c) : c ≠ '$' := by
  rcases h with rfl | rfl <;> decide

/-- Behind what a string holds, the string goes as far as it does from there on. -/
theorem StringBody.stringLength_append (h : StringBody quote body) (rest : List Char) :
    stringLength quote (body ++ rest) = body.length + stringLength quote rest := by
  induction h with
  | nil => simp
  | @plain c body hquote hdollar _ ih =>
    rw [cons_append, stringLength_cons_of_ne hdollar, if_neg hquote, ih, length_cons]
    omega
  | escaped _ ih =>
    simp only [cons_append, stringLength, ih, length_cons]
    omega

theorem stringLength_quote (h : quote ≠ '$') (rest : List Char) :
    stringLength quote (quote :: rest) = 1 := by
  rw [stringLength_cons_of_ne h, if_pos rfl]

/-- A text is read as a string up to the first quote that is not escaped, or up to its end. -/
theorem exists_stringBody (quote : Char) (text : List Char) :
    ∃ body rest, text = body ++ rest ∧ StringBody quote body ∧
      (rest = [] ∨ rest = ['$'] ∨ ∃ tail, rest = quote :: tail) := by
  fun_induction stringLength quote text with
  | case1 => exact ⟨[], [], rfl, .nil, .inl rfl⟩
  | case2 => exact ⟨[], ['$'], rfl, .nil, .inr (.inl rfl)⟩
  | case3 c text ih =>
    obtain ⟨body, rest, rfl, hbody, hrest⟩ := ih
    exact ⟨'$' :: c :: body, rest, rfl, .escaped hbody, hrest⟩
  | case4 tail => exact ⟨[], quote :: tail, rfl, .nil, .inr (.inr ⟨tail, rfl⟩)⟩
  | case5 c text hlone hdollar hquote ih =>
    obtain ⟨body, rest, rfl, hbody, hrest⟩ := ih
    refine ⟨c :: body, rest, rfl, .plain hquote ?_ hbody, hrest⟩
    rintro rfl
    cases htext : body ++ rest with
    | nil => exact hlone rfl htext
    | cons d tail => exact hdollar d tail rfl htext

/-- Where a string ends. -/
theorem stringLength_eq_iff (hquote : quote ≠ '$') :
    stringLength quote (body ++ rest) = body.length ↔
      (∃ inside, StringBody quote inside ∧ body = inside ++ [quote]) ∨
        (rest = [] ∧ ∃ inside, StringBody quote inside ∧
        (body = inside ∨ body = inside ++ ['$'])) := by
  constructor
  · intro h
    obtain ⟨inside, tail, htext, hinside, htail⟩ := exists_stringBody quote (body ++ rest)
    rw [htext, hinside.stringLength_append] at h
    rcases htail with rfl | rfl | ⟨tail, rfl⟩
    · obtain ⟨rfl, rfl⟩ := append_inj htext (by simpa [stringLength] using h.symm)
      exact .inr ⟨rfl, body, hinside, .inl rfl⟩
    · rw [← append_nil (inside ++ ['$'])] at htext
      obtain ⟨rfl, rfl⟩ := append_inj htext (by simpa [stringLength] using h.symm)
      exact .inr ⟨rfl, inside, hinside, .inr rfl⟩
    · rw [stringLength_quote hquote] at h
      rw [append_cons] at htext
      obtain ⟨rfl, rfl⟩ := append_inj htext (by simpa using h.symm)
      exact .inl ⟨inside, hinside, rfl⟩
  · rintro (⟨inside, hinside, rfl⟩ | ⟨rfl, inside, hinside, rfl | rfl⟩)
    · rw [append_assoc, hinside.stringLength_append, singleton_append,
        stringLength_quote hquote, length_append, length_singleton]
    · rw [hinside.stringLength_append]
      rfl
    · rw [append_nil, hinside.stringLength_append, length_append]
      rfl

/-! ## Comments -/

theorem infix_cons_cons {d : Char} :
    [mark, closer] <:+: c :: d :: text ↔
      (c = mark ∧ d = closer) ∨ [mark, closer] <:+: d :: text := by
  rw [infix_cons_iff, cons_prefix_cons, cons_prefix_cons]
  simp only [and_true, nil_prefix]
  exact or_congr (and_congr eq_comm eq_comm) Iff.rfl

/-- A comment without closer goes to the end. -/
theorem commentLength_of_unclosed (h : ¬ [mark, closer] <:+: text) :
    commentLength mark closer text = text.length := by
  fun_induction commentLength mark closer text with
  | case1 | case2 => rfl
  | case3 c d rest hclosed => exact absurd (infix_cons_cons.mpr (.inl hclosed)) h
  | case4 c d rest _ ih =>
    rw [ih fun hlater => h (infix_cons_cons.mpr (.inr hlater))]
    rfl

/-- A comment goes to its first closer. -/
theorem commentLength_append_closer (h : ¬ [mark, closer] <:+: body ++ [mark]) (rest : List Char) :
    commentLength mark closer (body ++ mark :: closer :: rest) = body.length + 2 := by
  induction body with
  | nil => simp [commentLength]
  | cons c body ih =>
    -- The code point behind `c` is in `body` or the mark that ends it.
    obtain ⟨d, tail, htail⟩ := exists_cons_of_ne_nil (concat_ne_nil mark body)
    rw [cons_append, htail, infix_cons_cons, ← htail, not_or] at h
    have hnext := ih h.2
    rw [append_cons, htail, cons_append] at hnext
    rw [cons_append, append_cons, htail, cons_append, commentLength, if_neg h.1,
      hnext, length_cons]

/-- What holds a closer holds a first one. -/
theorem exists_first_closer (h : [mark, closer] <:+: text) :
    ∃ body rest, text = body ++ mark :: closer :: rest ∧ ¬ [mark, closer] <:+: body ++ [mark] := by
  fun_induction commentLength mark closer text with
  | case1 => simp at h
  | case2 c => simpa using h.length_le
  | case3 c d rest hclosed =>
    obtain ⟨rfl, rfl⟩ := hclosed
    exact ⟨[], rest, rfl, fun hinfix => by simpa using hinfix.length_le⟩
  | case4 c d rest hopen ih =>
    obtain ⟨body, tail, htext, hfirst⟩ := ih ((infix_cons_cons.mp h).resolve_left hopen)
    refine ⟨c :: body, tail, by rw [htext]; rfl, ?_⟩
    cases body with
    | nil =>
      obtain ⟨rfl, -⟩ := cons_eq_cons.mp htext
      rw [singleton_append, infix_cons_cons, not_or]
      refine ⟨?_, hfirst⟩
      rintro ⟨rfl, rfl⟩
      exact hopen ⟨rfl, rfl⟩
    | cons e body =>
      obtain ⟨rfl, -⟩ := cons_eq_cons.mp htext
      rw [cons_append, cons_append, infix_cons_cons, not_or]
      exact ⟨hopen, hfirst⟩

/-- Where a comment ends. -/
theorem commentLength_eq_iff :
    commentLength mark closer (body ++ rest) = body.length ↔
      (∃ inside, body = inside ++ [mark, closer] ∧ ¬ [mark, closer] <:+: inside ++ [mark]) ∨
        (rest = [] ∧ ¬ [mark, closer] <:+: body) := by
  constructor
  · intro h
    by_cases hcloser : [mark, closer] <:+: body ++ rest
    · obtain ⟨inside, tail, htext, hfirst⟩ := exists_first_closer hcloser
      rw [htext, commentLength_append_closer hfirst] at h
      rw [show inside ++ mark :: closer :: tail = inside ++ [mark, closer] ++ tail by simp] at htext
      obtain ⟨rfl, -⟩ := append_inj htext (by simpa using h.symm)
      exact .inl ⟨inside, rfl, hfirst⟩
    · rw [commentLength_of_unclosed hcloser, length_append, Nat.add_eq_left,
        length_eq_zero_iff] at h
      rw [h, append_nil] at hcloser
      exact .inr ⟨h, hcloser⟩
  · rintro (⟨inside, rfl, hfirst⟩ | ⟨rfl, hcloser⟩)
    · rw [show inside ++ [mark, closer] ++ rest = inside ++ mark :: closer :: rest by simp,
        commentLength_append_closer hfirst, length_append]
      rfl
    · rw [append_nil, commentLength_of_unclosed hcloser]

/-! ## Literals -/

/-- A line comment with `body` behind its slashes. -/
theorem lineCommentLength_eq_iff :
    lineCommentLength (body ++ rest) = body.length ↔
      '\n' ∉ body ∧ (∀ c ∈ body.getLast?, isBlank c = false) ∧
        ∀ c ∈ rest.takeWhile (· != '\n'), isBlank c = true := by
  rw [lineCommentLength_append_iff]
  refine and_congr ?_ (and_congr ⟨isBlank_getLast?_of_trimRight, trimRight_eq_self⟩ Iff.rfl)
  exact ⟨fun h hmem => h _ hmem rfl, fun h c hc heq => h (heq ▸ hc)⟩

/-- A literal is found where its spelling stands, and with its length. -/
theorem literalAt_eq_some_iff {kind : Kind} :
    literalAt (c :: (body ++ rest)) = some (body.length + 1, kind) ↔
      Spelled kind (c :: body) rest := by
  rw [literalAt_append_iff]
  constructor
  · rintro (⟨rfl, hquote, hlength⟩ | ⟨rfl, rfl, inside, rfl, hlength⟩ |
      ⟨rfl, rfl, inside, rfl, hlength⟩ | ⟨rfl, rfl, inside, rfl, hlength⟩)
    · rcases (stringLength_eq_iff (IsQuote.ne_dollar hquote)).mp hlength with
        ⟨inside, hinside, rfl⟩ | ⟨rfl, inside, hinside, rfl | rfl⟩
      · exact .closedString hquote hinside
      · exact .openString hquote hinside
      · exact .openEscape hquote hinside
    · rcases commentLength_eq_iff.mp hlength with ⟨inside, rfl, hfirst⟩ | ⟨rfl, hcloser⟩
      · exact .closedComment .block hfirst
      · exact .openComment .block hcloser
    · rcases commentLength_eq_iff.mp hlength with ⟨inside, rfl, hfirst⟩ | ⟨rfl, hcloser⟩
      · exact .closedComment .slash hfirst
      · exact .openComment .slash hcloser
    · obtain ⟨hline, hlast, hrest⟩ := lineCommentLength_eq_iff.mp hlength
      exact .lineComment hline hlast hrest
  · intro h
    -- A comment takes its length from its delimiters.
    have hcomment : ∀ {kind : Kind} {opener closer : Char} {inside : List Char},
        Delimits kind opener closer →
        commentLength '*' closer (inside ++ rest) = inside.length →
        literalAt (opener :: ('*' :: inside ++ rest)) =
        some (('*' :: inside).length + 1, kind) := by
      intro kind opener closer inside hdelimits hlength
      rw [literalAt_append_iff]
      cases hdelimits with
      | block => exact .inr (.inl ⟨rfl, rfl, inside, rfl, hlength⟩)
      | slash => exact .inr (.inr (.inl ⟨rfl, rfl, inside, rfl, hlength⟩))
    cases h with
    | closedString hquote hbody =>
      exact .inl ⟨rfl, hquote, (stringLength_eq_iff hquote.ne_dollar).mpr (.inl ⟨_, hbody, rfl⟩)⟩
    | openString hquote hbody =>
      exact .inl ⟨rfl, hquote,
        (stringLength_eq_iff hquote.ne_dollar).mpr (.inr ⟨rfl, _, hbody, .inl rfl⟩)⟩
    | openEscape hquote hbody =>
      exact .inl ⟨rfl, hquote,
        (stringLength_eq_iff hquote.ne_dollar).mpr (.inr ⟨rfl, _, hbody, .inr rfl⟩)⟩
    | closedComment hdelimits hfirst =>
      exact literalAt_append_iff.mp
        (hcomment hdelimits (commentLength_eq_iff.mpr (.inl ⟨_, rfl, hfirst⟩)))
    | openComment hdelimits hcloser =>
      exact literalAt_append_iff.mp
        (hcomment hdelimits (commentLength_eq_iff.mpr (.inr ⟨rfl, hcloser⟩)))
    | lineComment hline hlast hrest =>
      exact .inr (.inr (.inr ⟨rfl, rfl, _, rfl,
        lineCommentLength_eq_iff.mpr ⟨hline, hlast, hrest⟩⟩))

/-- Nothing is found exactly where no opener stands. -/
theorem literalAt_eq_none_iff_opens : literalAt text = none ↔ ¬ Opens text := by
  have hopens : Opens text ↔ ∃ c rest, text = c :: rest ∧ opensLiteral c rest.head? = true := by
    simp only [Opens, openers, mem_cons, not_mem_nil, or_false, exists_eq_or_imp,
      exists_eq_left]
    rcases text with _ | ⟨c, _ | ⟨d, rest⟩⟩ <;> simp [opensLiteral] <;> grind
  cases text with
  | nil => simp [literalAt, hopens]
  | cons c rest => simp [literalAt_eq_none_iff, hopens]

theorem Spelled.opens {kind : Kind} {literal : List Char} (h : Spelled kind literal rest) :
    Opens (literal ++ rest) := by
  obtain ⟨c, body, rfl⟩ : ∃ c body, literal = c :: body := by cases h <;> exact ⟨_, _, rfl⟩
  by_contra hopens
  rw [← literalAt_eq_none_iff_opens, cons_append, literalAt_eq_some_iff.mpr h] at hopens
  cases hopens

/-! ## Spans -/

/-- Two spans that hold one position are equal. -/
theorem Ordered.eq_of_holds {spans : List Span} (h : Ordered spans) {first second : Span}
    {pos : Nat} (hfirst : first ∈ spans) (hsecond : second ∈ spans)
    (hholds : first.start ≤ pos ∧ pos < first.stop)
    (hholds' : second.start ≤ pos ∧ pos < second.stop) : first = second := by
  have hat : spanAt spans.toArray pos = some first :=
    (spanAt_eq_some_iff h).mpr ⟨hfirst, by omega, by omega⟩
  rw [(spanAt_eq_some_iff h).mpr ⟨hsecond, by omega, by omega⟩] at hat
  exact (Option.some.inj hat).symm

/-- Ordered lists of the same spans are equal. -/
theorem Ordered.eq_of_mem_iff {spans spans' : List Span} (h : Ordered spans) (h' : Ordered spans')
    (hmem : ∀ span, span ∈ spans ↔ span ∈ spans') : spans = spans' := by
  have hstarts : ∀ {spans : List Span}, Ordered spans →
      spans.Pairwise fun first second => first.start < second.start := by
    intro spans h
    refine h.apart.imp_of_mem fun {first second} hfirst _ hle => ?_
    exact Nat.lt_of_lt_of_le (h.nonempty first hfirst) hle
  have : Std.Irrefl fun first second : Span => first.start < second.start :=
    ⟨fun span => Nat.lt_irrefl span.start⟩
  have : Std.Antisymm fun first second : Span => first.start < second.start :=
    ⟨fun _ _ hlt hgt => absurd (Nat.lt_trans hlt hgt) (Nat.lt_irrefl _)⟩
  exact (hstarts h).eq_of_mem_iff (hstarts h') hmem

/-- A span that is spelled out in the text is found where it starts. -/
theorem literalAt_of_spelled (hlt : span.start < span.stop) (hle : span.stop ≤ text.length)
    (h : Spelled span.kind (span.text text) (text.drop span.stop)) :
    literalAt (text.drop span.start) = some (span.stop - span.start, span.kind) := by
  have hlength : (span.text text).length = span.stop - span.start := by
    rw [Span.text, length_slice]
    omega
  rw [← slice_append_drop text (Nat.le_of_lt hlt), ← Span.text, ← hlength]
  cases htext : span.text text with
  | nil =>
    rw [htext, length_nil] at hlength
    omega
  | cons c body =>
    rw [htext] at h
    rw [cons_append, length_cons]
    exact literalAt_eq_some_iff.mpr h

end Literal

open Literal

/-- Where no cell is part of a literal, none starts. -/
theorem Marked.literalAt_eq_none {before : List Char} {cells : List Cell}
    (h : Marked recognize before cells) {i : Nat}
    (hcode : ∀ cell, cells[i]? = some cell → cell.role = .code) :
    literalAt ((chars cells).drop i) = none := by
  rw [chars, ← map_drop]
  cases hdrop : cells.drop i with
  | nil => rfl
  | cons cell rest =>
    obtain ⟨c, role⟩ := cell
    have hget : cells[i]? = some ⟨c, role⟩ := by rw [← head?_drop, hdrop, head?_cons]
    obtain rfl : role = .code := hcode _ hget
    have hrest := h.of_append (take_append_drop i cells).symm
      (by rw [hdrop]; simp [Cell.isInside])
    rw [hdrop] at hrest
    exact hrest.code_inv.1

namespace Literal

/-- The scanner finds the spans of the literals. -/
theorem scan_scans (text : List Char) : Scans text (scan text) := by
  obtain ⟨cells, hcells, hmarked⟩ := exists_marked_recognize text
  have hspans : scan text = spansFrom 0 cells := by rw [← hcells, hmarked.scan_eq]
  refine ⟨hspans ▸ spansFrom_ordered cells 0, ?_, ?_, ?_⟩
  · intro span hspan
    obtain ⟨c, body, -, hle, -⟩ := exists_literal_of_mem_scan hspan
    exact hle
  · intro pos hpos
    rw [← literalAt_eq_none_iff_opens, ← hcells]
    refine hmarked.literalAt_eq_none fun cell hcell => ?_
    by_contra hrole
    obtain ⟨span, hspan, hholds⟩ := (hmarked.covered_iff pos).mpr ⟨cell, hcell, hrole⟩
    rw [length_nil, Nat.zero_add] at hholds
    exact hpos span (hspans ▸ hspan) hholds
  · intro span hspan
    obtain ⟨c, body, htext, -, hliteral⟩ := exists_literal_of_mem_scan hspan
    rw [htext]
    exact literalAt_eq_some_iff.mp hliteral

namespace Scans

variable {text : List Char} {spans spans' : List Span} {span : Span}

theorem literalAt (h : Scans text spans) (hspan : span ∈ spans) :
    literalAt (text.drop span.start) = some (span.stop - span.start, span.kind) :=
  literalAt_of_spelled (h.ordered.nonempty span hspan) (h.within span hspan) (h.spelled span hspan)

/-- Some span holds the start of each literal. -/
theorem exists_holds (h : Scans text spans) {pos : Nat} (hopens : Opens (text.drop pos)) :
    ∃ span ∈ spans, span.start ≤ pos ∧ pos < span.stop := by
  by_contra hnone
  refine h.uncovered pos (fun span hspan hholds => hnone ⟨span, hspan, hholds⟩) hopens

theorem opens (h : Scans text spans) (hspan : span ∈ spans) : Opens (text.drop span.start) := by
  rw [← slice_append_drop text (Nat.le_of_lt (h.ordered.nonempty span hspan))]
  exact (h.spelled span hspan).opens

/-- Two lists that fit a text have the same spans. -/
theorem mem_of_mem (h : Scans text spans) (h' : Scans text spans') (hspan : span ∈ spans) :
    span ∈ spans' := by
  induction hn : span.start using Nat.strongRecOn generalizing span with
  | ind n ih =>
    subst hn
    obtain ⟨other, hother, hle, hlt⟩ := h'.exists_holds (h.opens hspan)
    rcases Nat.lt_or_eq_of_le hle with hbefore | hsame
    · -- Where `other` starts, the first list has an earlier span, which the second has too.
      obtain ⟨earlier, hearlier, hle', hlt'⟩ := h.exists_holds (h'.opens hother)
      have hmem := ih earlier.start (by omega) hearlier rfl
      obtain rfl := h'.ordered.eq_of_holds hmem hother ⟨hle', hlt'⟩
        ⟨Nat.le_refl _, h'.ordered.nonempty other hother⟩
      obtain rfl := h.ordered.eq_of_holds hearlier hspan ⟨hle, hlt⟩
        ⟨Nat.le_refl _, h.ordered.nonempty span hspan⟩
      omega
    · -- Two literals that start at one place are equal.
      have hfound := h.literalAt hspan
      rw [← hsame, h'.literalAt hother, Option.some.injEq, Prod.mk.injEq] at hfound
      have hlt := h.ordered.nonempty span hspan
      have hlt' := h'.ordered.nonempty other hother
      have hstop : other.stop = span.stop := by omega
      obtain rfl : other = span := by
        cases span
        cases other
        exact congr (congrArg₂ Span.mk hsame hstop) hfound.2
      exact hother

end Scans

/-- The spans of the strings and comments of a text are those that `scan` lists, and no others. -/
theorem scans_iff (text : List Char) (spans : List Span) :
    Scans text spans ↔ spans = scan text := by
  constructor
  · intro h
    have h' := scan_scans text
    exact h.ordered.eq_of_mem_iff h'.ordered fun span => ⟨h.mem_of_mem h', h'.mem_of_mem h⟩
  · rintro rfl
    exact scan_scans text

end Literal

end StructuredText
