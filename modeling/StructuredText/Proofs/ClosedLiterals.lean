import StructuredText.Proofs.Spelling

/-!
# Closed and open literals

Whether a literal is closed is read off the end of its text, where a quote counts if an even number
of dollars stands before it. The scanner reads the literal from its start and takes escapes off in
pairs. Both agree, and both agree with a reader that sees one code point at a time and only knows
what the text before it has left open.

Results:
1. `Spelled.closes_iff`: a literal counts as closed if it is spelled with its closing delimiter.
2. `Spelled.contextFrom`: what the reader makes of a literal.
3. `unterminated_eq`: the literal that is not closed is the one that the reader is left in.
-/

namespace StructuredText

open List

namespace Literal

variable {body literal rest : List Char} {quote c : Char} {kind : Kind}

/-- The text of a literal that ends in its closing delimiter. Line comments and typed literals have
none, and always count as closed. -/
inductive EndsClosed : Kind → List Char → Prop
  | string {quote : Char} {body : List Char} :
      IsQuote quote → StringBody quote body → EndsClosed .string (quote :: (body ++ [quote]))
  | comment {kind : Kind} {opener closer : Char} {body : List Char} :
      Delimits kind opener closer → ¬ ['*', closer] <:+: body ++ ['*'] →
      EndsClosed kind (opener :: '*' :: (body ++ ['*', closer]))
  | lineComment {literal : List Char} : EndsClosed .lineComment literal
  | typed {literal : List Char} : EndsClosed .typed literal

/-- The text of a literal that ends before its closing delimiter. -/
inductive EndsOpen : Kind → List Char → Prop
  | string {quote : Char} {body : List Char} :
      IsQuote quote → StringBody quote body → EndsOpen .string (quote :: body)
  | escape {quote : Char} {body : List Char} :
      IsQuote quote → StringBody quote body → EndsOpen .string (quote :: (body ++ ['$']))
  | comment {kind : Kind} {opener closer : Char} {body : List Char} :
      Delimits kind opener closer → ¬ ['*', closer] <:+: body →
      EndsOpen kind (opener :: '*' :: body)

/-! ## Strings -/

theorem trailingDollars_concat (text : List Char) :
    trailingDollars (text ++ ['$']) = trailingDollars text + 1 := by
  simp [trailingDollars]

/-- Dollars at the end of what a string holds escape each other. -/
theorem StringBody.even_trailingDollars {quote : Char} {body : List Char}
    (h : StringBody quote body) : trailingDollars body % 2 = 0 := by
  induction h with
  | nil => rfl
  | plain _ hdollar _ ih => rw [trailingDollars_cons_of_ne hdollar, ih]
  | @escaped c rest _ ih =>
    have hfirst := trailingDollars_dollar_cons (c :: rest)
    rw [length_cons] at hfirst
    have hle := trailingDollars_le rest
    by_cases hc : c = '$'
    · subst hc
      have hsecond := trailingDollars_dollar_cons rest
      omega
    · rw [trailingDollars_cons_of_ne hc] at hfirst
      omega

/-- The last code point of what a string holds, if it is no dollar, is not the quote or is
escaped. -/
theorem StringBody.of_concat (hc : c ≠ '$') {inside : List Char}
    (h : StringBody quote (inside ++ [c])) :
    c ≠ quote ∨ ∃ rest, inside = rest ++ ['$'] ∧ StringBody quote rest := by
  generalize hbody : inside ++ [c] = body at h
  induction h generalizing inside with
  | nil => simp at hbody
  | plain hquote hdollar _ ih =>
    cases inside with
    | nil =>
      cases hbody
      exact .inl hquote
    | cons d inside =>
      obtain ⟨rfl, htail⟩ := cons_eq_cons.mp hbody
      refine (ih htail).imp_right ?_
      rintro ⟨rest, rfl, hrest⟩
      exact ⟨_ :: rest, rfl, .plain hquote hdollar hrest⟩
  | escaped _ ih =>
    rcases inside with _ | ⟨d, _ | ⟨e, inside⟩⟩
    · exact absurd (cons_eq_cons.mp hbody).1 hc
    · obtain ⟨rfl, -⟩ := cons_eq_cons.mp hbody
      exact .inr ⟨[], rfl, .nil⟩
    · obtain ⟨rfl, htail⟩ := cons_eq_cons.mp hbody
      obtain ⟨-, htail⟩ := cons_eq_cons.mp htail
      refine (ih htail).imp_right ?_
      rintro ⟨rest, rfl, hrest⟩
      exact ⟨'$' :: e :: rest, rfl, .escaped hrest⟩

/-- A string counts as closed if a quote ends it that an even number of dollars precede. -/
theorem closes_string_iff (hquote : quote ≠ '$') :
    closes .string (quote :: body) = true ↔
      ∃ inside, body = inside ++ [quote] ∧ trailingDollars inside % 2 = 0 := by
  rcases eq_nil_or_concat' body with rfl | ⟨inside, last, rfl⟩
  · simp [closes]
  · have hescape : endsWithEscape (quote :: inside) = (trailingDollars inside % 2 == 1) := by
      rw [endsWithEscape, ← trailingDollars, trailingDollars_cons_of_ne hquote]
    rw [closes, ← cons_append, dropLast_concat, getLast?_concat, hescape]
    simp

/-! ## All literals -/

theorem EndsClosed.closes (h : EndsClosed kind literal) : closes kind literal = true := by
  cases h with
  | string hquote hbody =>
    exact (closes_string_iff hquote.ne_dollar).mpr ⟨_, rfl, hbody.even_trailingDollars⟩
  | comment hdelimits _ =>
    cases hdelimits <;> exact Spacing.isSuffixOf_closer.mpr ⟨_, rfl⟩
  | lineComment | typed => rfl

theorem EndsOpen.closes_eq_false (h : EndsOpen kind literal) : closes kind literal = false := by
  rw [← Bool.not_eq_true]
  intro hcloses
  cases h with
  | string hquote hbody =>
    obtain ⟨inside, rfl, heven⟩ := (closes_string_iff hquote.ne_dollar).mp hcloses
    rcases hbody.of_concat hquote.ne_dollar with hne | ⟨rest, rfl, hrest⟩
    · exact hne rfl
    · -- The quote is escaped by one more dollar than escape each other.
      have := hrest.even_trailingDollars
      rw [trailingDollars_concat] at heven
      omega
  | escape hquote hbody =>
    obtain ⟨inside, hinside, -⟩ := (closes_string_iff hquote.ne_dollar).mp hcloses
    exact hquote.ne_dollar (append_singleton_inj.mp hinside).2.symm
  | comment hdelimits hcloser =>
    cases hdelimits
    all_goals
      obtain ⟨other, rfl⟩ := Spacing.isSuffixOf_closer.mp hcloses
      exact hcloser (suffix_append _ _).isInfix

/-- What is not closed runs to the end of the text. -/
theorem Spelled.closed_or_open (h : Spelled kind literal rest) :
    EndsClosed kind literal ∨ EndsOpen kind literal ∧ rest = [] := by
  cases h with
  | closedString hquote hbody => exact .inl (.string hquote hbody)
  | openString hquote hbody => exact .inr ⟨.string hquote hbody, rfl⟩
  | openEscape hquote hbody => exact .inr ⟨.escape hquote hbody, rfl⟩
  | closedComment hdelimits hfirst => exact .inl (.comment hdelimits hfirst)
  | openComment hdelimits hcloser => exact .inr ⟨.comment hdelimits hcloser, rfl⟩
  | lineComment => exact .inl .lineComment

/-- A literal counts as closed if it is spelled with its closing delimiter. -/
theorem Spelled.closes_iff (h : Spelled kind literal rest) :
    closes kind literal = true ↔ EndsClosed kind literal := by
  refine ⟨fun hcloses => ?_, EndsClosed.closes⟩
  rcases h.closed_or_open with hclosed | ⟨hopen, -⟩
  · exact hclosed
  · rw [hopen.closes_eq_false] at hcloses
    cases hcloses

/-! ## Reading code point by code point -/

/-- What the text before a place has left open there. A literal is known by where its opener
starts. -/
inductive Context where
  | code
  /-- Behind a code point that opens a comment if the right one follows. -/
  | pending (start : Nat) (first : Char)
  | string (start : Nat) (quote : Char) (escaped : Bool)
  /-- `starred` if the code point before is a star that may close the comment. -/
  | comment (start : Nat) (kind : Kind) (closer : Char) (starred : Bool)
  | line
deriving Repr, DecidableEq

namespace Context

/-- Behind a code point at `pos` that no opener before it goes on with. -/
def ofCode (pos : Nat) (c : Char) : Context :=
  if c = '\x27' ∨ c = '\x22' then .string pos c false
  else if c = '(' ∨ c = '/' then .pending pos c
  else .code

/-- Behind one more code point, which stands at `pos`. -/
def step (pos : Nat) (context : Context) (c : Char) : Context :=
  match context with
  | .code => ofCode pos c
  | .pending start first =>
      if first = '(' ∧ c = '*' then .comment start .blockComment ')' false
      else if first = '/' ∧ c = '*' then .comment start .slashComment '/' false
      else if first = '/' ∧ c = '/' then .line
      else ofCode pos c
  | .string start quote escaped =>
      if escaped then .string start quote false
      else if c = quote then .code
      else .string start quote (c == '$')
  | .comment start kind closer starred =>
      if starred ∧ c = closer then .code else .comment start kind closer (c == '*')
  | .line => if c = '\n' then .code else .line

/-- The string, block or slash comment that is open, and where it starts. -/
def openLiteral : Context → Option (Kind × Nat)
  | .string start _ _ => some (.string, start)
  | .comment start kind _ _ => some (kind, start)
  | .code | .pending _ _ | .line => none

end Context

/-- The context behind a text that stands from `pos` on. -/
def contextFrom (pos : Nat) (context : Context) : List Char → Context
  | [] => context
  | c :: rest => contextFrom (pos + 1) (context.step pos c) rest

/-- The string, block or slash comment that a text ends in, and where it starts. -/
def openLiteral (text : List Char) : Option (Kind × Nat) :=
  (contextFrom 0 .code text).openLiteral

theorem contextFrom_append (pos : Nat) (context : Context) (first second : List Char) :
    contextFrom pos context (first ++ second) =
      contextFrom (pos + first.length) (contextFrom pos context first) second := by
  induction first generalizing pos context with
  | nil => rfl
  | cons c first ih =>
    rw [cons_append, contextFrom, contextFrom, ih, length_cons, Nat.add_assoc,
      Nat.add_comm 1]

/-! ### Inside a literal -/

theorem StringBody.contextFrom (hquote : quote ≠ '$') (h : StringBody quote body)
    (pos start : Nat) :
    contextFrom pos (.string start quote false) body = .string start quote false := by
  induction h generalizing pos with
  | nil => rfl
  | plain hne hdollar _ ih =>
    rw [Literal.contextFrom, Context.step, if_neg Bool.false_ne_true, if_neg hne,
      beq_false_of_ne hdollar, ih]
  | escaped _ ih => simp [Literal.contextFrom, Context.step, hquote.symm, ih]

/-- A comment without closer stays open. -/
theorem exists_contextFrom_comment {closer : Char} {body : List Char} {starred : Bool}
    (h : ¬ ['*', closer] <:+: (if starred then ['*'] else []) ++ body) (pos start : Nat)
    (kind : Kind) : ∃ starred', contextFrom pos (.comment start kind closer starred) body =
      .comment start kind closer starred' := by
  induction body generalizing pos starred with
  | nil => exact ⟨starred, rfl⟩
  | cons c body ih =>
    have hopen : ¬ (starred = true ∧ c = closer) := by
      rintro ⟨rfl, rfl⟩
      exact h ⟨[], body, rfl⟩
    rw [contextFrom, Context.step, if_neg hopen]
    refine ih (fun hwithin => h (hwithin.trans ?_)) _
    -- What is kept of the text is a part of what was there.
    by_cases hc : c = '*'
    · subst hc
      exact (suffix_append _ _).isInfix
    · rw [if_neg (by simpa using hc), nil_append]
      exact ((suffix_cons c body).trans (suffix_append _ _)).isInfix

theorem contextFrom_line (h : '\n' ∉ body) (pos : Nat) : contextFrom pos .line body = .line := by
  induction body generalizing pos with
  | nil => rfl
  | cons c body ih =>
    rw [mem_cons, not_or] at h
    rw [contextFrom, Context.step, if_neg (Ne.symm h.1), ih h.2]

/-! ### Between literals -/

/-- Between literals, with `rest` behind: no literal has been opened, and none is by what comes
next. A line comment ends before the blanks behind it, which the reader takes for a part of it. -/
inductive Idle : Context → List Char → Prop
  | code {rest : List Char} : Idle .code rest
  | pending {start : Nat} {first : Char} {rest : List Char} :
      opensLiteral first rest.head? = false → Idle (.pending start first) rest
  | line {rest : List Char} :
      (∀ c ∈ rest.takeWhile (· != '\n'), isBlank c = true) → Idle .line rest

variable {context : Context}

theorem Idle.openLiteral_eq_none (h : Idle context rest) :
    context.openLiteral = none := by
  cases h <;> rfl

/-- Where no line comment is read, the next code point is read by itself. -/
theorem Idle.step_eq (h : Idle context (c :: rest)) (hline : context ≠ .line) (pos : Nat) :
    context.step pos c = .ofCode pos c := by
  cases h with
  | code => rfl
  | pending hnext =>
    simp only [opensLiteral, head?_cons, Option.some_beq_some, Bool.or_eq_false_iff,
      Bool.and_eq_false_imp, beq_iff_eq, beq_eq_false_iff_ne] at hnext
    obtain ⟨⟨-, hparen⟩, hslash⟩ := hnext
    simp only [Context.step]
    rw [if_neg fun h => hparen h.1 h.2, if_neg fun h => (hslash h.1).1 h.2,
      if_neg fun h => (hslash h.1).2 h.2]
  | line => exact absurd rfl hline

/-- Only blanks are read as a part of a line comment that has ended. -/
theorem Idle.ne_line (h : Idle context (c :: rest)) (hc : isBlank c = false) :
    context ≠ .line := by
  rintro rfl
  cases h with
  | line hblank =>
    have hfeed : c ≠ '\n' := by
      rintro rfl
      revert hc
      decide
    rw [hblank c (by simp [hfeed])] at hc
    cases hc

/-- Code leaves nothing open. -/
theorem Idle.step (h : Idle context (c :: rest)) (hcode : literalAt (c :: rest) = none)
    (pos : Nat) : Idle (context.step pos c) rest := by
  rw [literalAt_eq_none_iff] at hcode
  by_cases hline : context = .line
  · subst hline
    cases h with
    | line hrest =>
      rw [Context.step]
      split
      · exact .code
      next hfeed =>
        refine .line fun d hd => hrest d ?_
        simp [hfeed, hd]
  · have hquote : ¬ (c = '\x27' ∨ c = '\x22') := by
      rintro (rfl | rfl) <;> simp [opensLiteral] at hcode
    rw [h.step_eq hline, Context.ofCode, if_neg hquote]
    split
    · exact .pending hcode
    · exact .code

/-! ### Literals -/

theorem IsQuote.isBlank_eq_false (h : IsQuote c) : isBlank c = false := by
  rcases h with rfl | rfl <;> decide

/-- Behind an opening quote. -/
theorem Idle.step_quote (h : Idle context (quote :: rest)) (hquote : IsQuote quote) (pos : Nat) :
    context.step pos quote = .string pos quote false := by
  rw [h.step_eq (h.ne_line hquote.isBlank_eq_false), Context.ofCode]
  exact if_pos hquote

/-- Behind the opener of a comment that a star closes. -/
theorem Idle.contextFrom_opener {opener closer : Char} (h : Idle context (opener :: rest))
    (hdelimits : Delimits kind opener closer) (pos : Nat) :
    (context.step pos opener).step (pos + 1) '*' = .comment pos kind closer false := by
  cases hdelimits
  all_goals
    rw [h.step_eq (h.ne_line (by decide))]
    rfl

/-- What the reader makes of a literal: behind a closed one it is idle, and an open one keeps it to
the end of the text. -/
theorem Spelled.contextFrom (h : Spelled kind literal rest) (hidle : Idle context (literal ++ rest))
    (pos : Nat) :
    (EndsClosed kind literal ∧ Idle (contextFrom pos context literal) rest) ∨
      (EndsOpen kind literal ∧ rest = [] ∧
        (contextFrom pos context literal).openLiteral = some (kind, pos)) := by
  cases h with
  | @closedString quote body _ hquote hbody =>
    refine .inl ⟨.string hquote hbody, ?_⟩
    rw [Literal.contextFrom, hidle.step_quote hquote, contextFrom_append,
      hbody.contextFrom hquote.ne_dollar, Literal.contextFrom, Context.step,
      if_neg Bool.false_ne_true, if_pos rfl]
    exact .code
  | openString hquote hbody =>
    refine .inr ⟨.string hquote hbody, rfl, ?_⟩
    rw [Literal.contextFrom, hidle.step_quote hquote, hbody.contextFrom hquote.ne_dollar]
    rfl
  | openEscape hquote hbody =>
    refine .inr ⟨.escape hquote hbody, rfl, ?_⟩
    rw [Literal.contextFrom, hidle.step_quote hquote, contextFrom_append,
      hbody.contextFrom hquote.ne_dollar, Literal.contextFrom, Context.step,
      if_neg Bool.false_ne_true, if_neg hquote.ne_dollar.symm]
    rfl
  | @closedComment _ opener closer body _ hdelimits hfirst =>
    refine .inl ⟨.comment hdelimits hfirst, ?_⟩
    have hne : '*' ≠ closer := by cases hdelimits <;> decide
    obtain ⟨starred, hbody⟩ := @exists_contextFrom_comment closer body false
      (fun hwithin => hfirst (hwithin.trans (prefix_append _ _).isInfix))
      (pos + 1 + 1) pos kind
    rw [Literal.contextFrom, Literal.contextFrom, hidle.contextFrom_opener hdelimits,
      contextFrom_append, hbody]
    -- The star is read as one that may close the comment, and then the closer is.
    rw [Literal.contextFrom, Context.step, if_neg fun h => hne h.2, Literal.contextFrom,
      Context.step, if_pos ⟨rfl, rfl⟩]
    exact .code
  | @openComment _ opener closer body hdelimits hcloser =>
    refine .inr ⟨.comment hdelimits hcloser, rfl, ?_⟩
    obtain ⟨starred, hbody⟩ :=
      @exists_contextFrom_comment closer body false hcloser (pos + 1 + 1) pos kind
    rw [Literal.contextFrom, Literal.contextFrom, hidle.contextFrom_opener hdelimits, hbody]
    rfl
  | @lineComment body _ hline hlast hrest =>
    refine .inl ⟨.lineComment, ?_⟩
    have hstart : (context.step pos '/').step (pos + 1) '/' = .line := by
      rw [hidle.step_eq (hidle.ne_line (by decide))]
      rfl
    rw [Literal.contextFrom, Literal.contextFrom, hstart, contextFrom_line hline]
    exact .line hrest

end Literal

/-! ## Texts -/

open Literal

/-- The reader ends in the first literal of a marked text that is not closed. -/
theorem Marked.openLiteral_eq {before : List Char} {cells : List Cell}
    (h : Marked recognize before cells) {context : Context} (hidle : Idle context (chars cells)) :
    (contextFrom before.length context (chars cells)).openLiteral =
      ((spansFrom before.length cells).find? fun span =>
        !span.isTerminated (before.reverse ++ chars cells)).map fun span =>
          (span.kind, span.start) := by
  induction h generalizing context with
  | nil => exact hidle.openLiteral_eq_none
  | @code before c rest hcode _ ih =>
    rw [chars_cons] at hidle ⊢
    have hrest := ih (hidle.step hcode before.length)
    rw [reverse_cons, append_assoc, length_cons] at hrest
    exact hrest
  | @literal before body c kind rest hfind hrest ih =>
    have hchars : chars (literalCells kind c body ++ rest) = (c :: body) ++ chars rest := by
      rw [chars_append, chars_literalCells]
    have hspelled : Spelled kind (c :: body) (chars rest) := literalAt_eq_some_iff.mp hfind
    have hterminated : Span.isTerminated ⟨before.length, before.length + body.length + 1, kind⟩
        (before.reverse ++ ((c :: body) ++ chars rest)) = closes kind (c :: body) := by
      have hslice := slice_middle before.reverse (c :: body) (chars rest)
      rw [length_reverse, length_cons] at hslice
      rw [Span.isTerminated, Span.text, Nat.add_assoc, hslice]
    rw [hchars] at hidle ⊢
    rw [spansFrom_literalCells hrest.head?_not_inside, find?_cons, hterminated,
      contextFrom_append]
    rcases hspelled.contextFrom hidle before.length with ⟨hclosed, hidle'⟩ | ⟨hopen, hnil, hcontext⟩
    · have hlater := ih hidle'
      have hbefore : (body.reverse ++ c :: before).length = before.length + body.length + 1 := by
        simp
        omega
      have hdocument : (body.reverse ++ c :: before).reverse ++ chars rest =
          before.reverse ++ ((c :: body) ++ chars rest) := by simp
      rw [hbefore, hdocument] at hlater
      rw [hclosed.closes]
      exact hlater
    · rw [hopen.closes_eq_false, hnil]
      exact hcontext

namespace Literal

/-- The literal that is not closed is the one that the text ends in, and runs to its end. -/
theorem unterminated_eq (text : List Char) :
    unterminated text = (openLiteral text).map fun found => ⟨found.2, text.length, found.1⟩ := by
  obtain ⟨cells, rfl, hmarked⟩ := exists_marked_recognize text
  have hopen : openLiteral (chars cells) =
      (unterminated (chars cells)).map fun span => (span.kind, span.start) := by
    rw [unterminated, hmarked.scan_eq]
    exact hmarked.openLiteral_eq .code
  rw [hopen, Option.map_map]
  cases hfound : unterminated (chars cells) with
  | none => rfl
  | some span =>
    rw [Option.map_some, Function.comp_apply, ← stop_of_unterminated hfound]

end Literal

end StructuredText
