import Mathlib.Data.List.TakeWhile
import StructuredText.Proofs.LetterCase
import StructuredText.Proofs.Marking
import StructuredText.Proofs.Reading

/-!
# How far literals go

A string or comment that is closed ends where it does whatever follows it; one that is not closed
ends with the text; a line comment ends where it does as long as only blanks follow on its line.

Results:
1. `literalAt_append`: a literal stays a literal when the text behind it changes.
2. `literalAt_eq_none_iff`: where no literal starts.
3. `recognize_isProper`: literals are not empty.
-/

namespace StructuredText

open List

variable {text rest body : List Char} {quote c : Char}

/-! ## Trimming -/

theorem trimRight_append_blanks (text : List Char) :
    ∃ blanks, text = trimRight text ++ blanks ∧ ∀ c ∈ blanks, isBlank c = true := by
  induction text with
  | nil => exact ⟨[], rfl, by simp⟩
  | cons c rest ih =>
    obtain ⟨blanks, hrest, hblanks⟩ := ih
    rw [trimRight]
    split
    next hnil =>
      rw [hnil, nil_append] at hrest
      split
      next hc => exact ⟨c :: rest, rfl, by rw [hrest]; simpa [hc] using hblanks⟩
      next => exact ⟨blanks, by rw [hrest]; rfl, hblanks⟩
    next => exact ⟨blanks, by rw [cons_append, ← hrest], hblanks⟩

theorem trimRight_eq_nil (h : ∀ c ∈ text, isBlank c = true) : trimRight text = [] := by
  induction text with
  | nil => rfl
  | cons c rest ih =>
    rw [trimRight, ih fun d hd => h d (mem_cons_of_mem _ hd)]
    simp [h c mem_cons_self]

/-- Blanks behind a text are trimmed. -/
theorem trimRight_append {first second : List Char} (h : ∀ c ∈ second, isBlank c = true) :
    trimRight (first ++ second) = trimRight first := by
  induction first with
  | nil => exact trimRight_eq_nil h
  | cons c rest ih => rw [cons_append, trimRight, trimRight, ih]

theorem trimRight_trimRight (text : List Char) : trimRight (trimRight text) = trimRight text := by
  obtain ⟨blanks, htext, hblanks⟩ := trimRight_append_blanks text
  conv_rhs => rw [htext, trimRight_append hblanks]

theorem trimRight_eq_self (h : ∀ c ∈ text.getLast?, isBlank c = false) : trimRight text = text := by
  induction text with
  | nil => rfl
  | cons c rest ih =>
    cases rest with
    | nil =>
      rw [trimRight, trimRight, h c rfl]
      rfl
    | cons d rest =>
      rw [getLast?_cons_cons] at h
      rw [trimRight, ih h]

theorem length_trimRight_le (text : List Char) : (trimRight text).length ≤ text.length := by
  obtain ⟨blanks, htext, -⟩ := trimRight_append_blanks text
  have := congrArg List.length htext
  rw [length_append] at this
  omega

/-- A trimmed text does not end in a blank. -/
theorem isBlank_getLast?_of_trimRight (h : trimRight text = text) :
    ∀ c ∈ text.getLast?, isBlank c = false := by
  intro c hc
  obtain ⟨init, rfl⟩ := getLast?_eq_some_iff.mp hc
  by_contra hblank
  rw [Bool.not_eq_false] at hblank
  rw [trimRight_append (by simpa using hblank)] at h
  have hle := length_trimRight_le init
  rw [h, length_append, length_singleton] at hle
  omega

namespace Literal

variable {kind : Kind}

/-! ## Strings and comments -/

theorem stringLength_cons_of_ne (hc : c ≠ '$') :
    stringLength quote (c :: rest) = if c = quote then 1 else stringLength quote rest + 1 := by
  rw [stringLength]
  · exact fun h => absurd h hc
  · exact fun _ _ h => absurd h hc

theorem stringLength_le (quote : Char) (text : List Char) :
    stringLength quote text ≤ text.length := by
  fun_induction stringLength quote text <;> simp_all

theorem stringLength_pos (quote : Char) (h : text ≠ []) : 0 < stringLength quote text := by
  fun_induction stringLength quote text <;> simp_all

/-- A string that does not end with the text ends with its quote, and there whatever follows. -/
theorem stringLength_ends (hrest : rest ≠ []) : ∀ body : List Char,
    stringLength quote (body ++ rest) = body.length →
      (∃ inside, body = inside ++ [quote]) ∧
        ∀ rest', stringLength quote (body ++ rest') = body.length
  | [], h => by
      have := stringLength_pos quote hrest
      rw [nil_append] at h
      rw [h] at this
      cases this
  | c :: body, h => by
      by_cases hc : c = '$'
      · subst hc
        cases body with
        | nil =>
          obtain ⟨d, rest, rfl⟩ := exists_cons_of_ne_nil hrest
          simp [stringLength] at h
        | cons d body =>
          simp only [cons_append, stringLength, length_cons] at h ⊢
          obtain ⟨⟨inside, rfl⟩, hbody⟩ := stringLength_ends hrest body (Nat.add_right_cancel h)
          exact ⟨⟨'$' :: d :: inside, rfl⟩, fun rest' => by rw [hbody]⟩
      · simp only [cons_append, stringLength_cons_of_ne hc, length_cons] at h ⊢
        split at h
        next hquote =>
          have : body = [] := eq_nil_of_length_eq_zero (by omega)
          exact ⟨⟨[], by rw [this, hquote]; rfl⟩, fun _ => (if_pos hquote).trans h⟩
        next hquote =>
          obtain ⟨⟨inside, rfl⟩, hbody⟩ := stringLength_ends hrest body (Nat.add_right_cancel h)
          exact ⟨⟨c :: inside, rfl⟩, fun rest' => by rw [if_neg hquote, hbody]⟩
termination_by body => body.length

theorem commentLength_le (mark closer : Char) (text : List Char) :
    commentLength mark closer text ≤ text.length := by
  fun_induction commentLength mark closer text <;> simp_all

theorem commentLength_pos (mark closer : Char) (h : text ≠ []) :
    0 < commentLength mark closer text := by
  fun_induction commentLength mark closer text <;> simp_all

/-- A comment that does not end with the text ends with its closer, and there whatever follows. -/
theorem commentLength_ends {mark closer : Char} (hrest : rest ≠ []) : ∀ body : List Char,
    commentLength mark closer (body ++ rest) = body.length →
      (∃ inside, body = inside ++ [mark, closer]) ∧
        ∀ rest', commentLength mark closer (body ++ rest') = body.length
  | [], h => by
      have := commentLength_pos mark closer hrest
      rw [nil_append] at h
      rw [h] at this
      cases this
  | [c], h => by
      obtain ⟨d, rest, rfl⟩ := exists_cons_of_ne_nil hrest
      have := commentLength_pos mark closer (cons_ne_nil d rest)
      simp only [singleton_append, commentLength, length_singleton] at h
      split at h <;> omega
  | c :: d :: body, h => by
      simp only [cons_append, commentLength, length_cons] at h ⊢
      split at h
      next hclosed =>
        have : body = [] := eq_nil_of_length_eq_zero (by omega)
        exact ⟨⟨[], by rw [this, hclosed.1, hclosed.2]; rfl⟩, fun _ => (if_pos hclosed).trans h⟩
      next hopen =>
        obtain ⟨⟨inside, hinside⟩, hbody⟩ := commentLength_ends hrest (d :: body)
          (Nat.add_right_cancel h)
        refine ⟨⟨c :: inside, by rw [hinside]; rfl⟩, fun rest' => ?_⟩
        have := hbody rest'
        rw [cons_append, length_cons] at this
        rw [if_neg hopen, this]

/-- Only blanks stand up to the next line feed. -/
def blankToLineEnd (text : List Char) : Prop :=
  ∀ c ∈ text.takeWhile (· != '\n'), isBlank c = true

theorem lineCommentLength_le (text : List Char) : lineCommentLength text ≤ text.length :=
  Nat.le_trans (length_trimRight_le _) (takeWhile_sublist _).length_le

/-- A line comment with `body` behind its slashes: `body` is on one line, ends in no blank, and only
blanks follow it on its line. -/
theorem lineCommentLength_append_iff :
    lineCommentLength (body ++ rest) = body.length ↔
      (∀ c ∈ body, c ≠ '\n') ∧ trimRight body = body ∧ blankToLineEnd rest := by
  constructor
  · intro h
    obtain ⟨blanks, htext, hblanks⟩ :=
      trimRight_append_blanks ((body ++ rest).takeWhile (· != '\n'))
    rw [lineCommentLength] at h
    have hbody : ∀ c ∈ body, (c != '\n') = true := by
      by_contra hmem
      -- Otherwise the line ends inside `body`, and the comment would be shorter than it.
      have hlt : (body.takeWhile (· != '\n')).length < body.length := by
        refine Nat.lt_of_le_of_ne (takeWhile_sublist _).length_le ?_
        intro heq
        have hall := takeWhile_eq_self_iff.mp
          ((takeWhile_sublist (· != '\n')).eq_of_length heq)
        exact hmem hall
      rw [takeWhile_append, if_neg (Nat.ne_of_lt hlt)] at htext h
      have := congrArg List.length htext
      rw [length_append] at this
      omega
    rw [takeWhile_append_of_pos hbody] at htext h
    have hsplit := append_inj htext h.symm
    refine ⟨fun c hc => by simpa using hbody c hc, ?_, ?_⟩
    · conv_lhs => rw [hsplit.1]
      rw [trimRight_trimRight, ← hsplit.1]
    · intro c hc
      rw [hsplit.2] at hc
      exact hblanks c hc
  · rintro ⟨hbody, htrim, hrest⟩
    rw [lineCommentLength, takeWhile_append_of_pos (by simpa using hbody),
      trimRight_append hrest, htrim]

/-! ## Where literals start -/

/-- Whether a literal starts with `c`, if `next` stands behind it. -/
def opensLiteral (c : Char) (next : Option Char) : Bool :=
  c == '\x27' || c == '\x22' || (c == '(' && next == some '*') ||
    (c == '/' && (next == some '*' || next == some '/'))

/-- The ways in which a literal starts. -/
theorem literalAt_cases {length : Nat} (h : literalAt text = some (length, kind)) :
    (∃ quote rest, (quote = '\x27' ∨ quote = '\x22') ∧ text = quote :: rest ∧
      length = stringLength quote rest + 1 ∧ kind = .string) ∨
    (∃ rest, text = '(' :: '*' :: rest ∧ length = commentLength '*' ')' rest + 2 ∧
      kind = .blockComment) ∨
    (∃ rest, text = '/' :: '*' :: rest ∧ length = commentLength '*' '/' rest + 2 ∧
      kind = .slashComment) ∨
    (∃ rest, text = '/' :: '/' :: rest ∧ length = lineCommentLength rest + 2 ∧
      kind = .lineComment) := by
  unfold literalAt at h
  split at h
  next rest =>
    cases h
    exact .inl ⟨_, rest, .inl rfl, rfl, rfl, rfl⟩
  next rest =>
    cases h
    exact .inl ⟨_, rest, .inr rfl, rfl, rfl, rfl⟩
  next rest =>
    cases h
    exact .inr (.inl ⟨rest, rfl, rfl, rfl⟩)
  next rest =>
    cases h
    exact .inr (.inr (.inl ⟨rest, rfl, rfl, rfl⟩))
  next rest =>
    cases h
    exact .inr (.inr (.inr ⟨rest, rfl, rfl, rfl⟩))
  next => cases h

theorem literalAt_eq_none_iff :
    literalAt (c :: rest) = none ↔ opensLiteral c rest.head? = false := by
  constructor
  · intro h
    by_contra hopens
    simp only [Bool.not_eq_false, opensLiteral, Bool.or_eq_true, Bool.and_eq_true,
      beq_iff_eq] at hopens
    rcases hopens with ((rfl | rfl) | ⟨rfl, hnext⟩) | ⟨rfl, hnext | hnext⟩
    · cases h
    · cases h
    all_goals
      obtain ⟨tail, rfl⟩ := head?_eq_some_iff.mp hnext
      cases h
  · intro h
    cases hfound : literalAt (c :: rest) with
    | none => rfl
    | some found =>
      obtain ⟨quote, tail, hquote, htext, -⟩ | ⟨tail, htext, -⟩ | ⟨tail, htext, -⟩ |
        ⟨tail, htext, -⟩ := literalAt_cases hfound
      all_goals cases htext
      · rcases hquote with rfl | rfl <;> simp [opensLiteral] at h
      all_goals simp [opensLiteral] at h

/-- No literal starts at a code point that is neither quote, parenthesis nor slash. -/
theorem opensLiteral_eq_false {c : Char}
    (h : c ≠ '\x27' ∧ c ≠ '\x22' ∧ c ≠ '(' ∧ c ≠ '/') (next : Option Char) :
    opensLiteral c next = false := by
  simp [opensLiteral, h]

theorem opensLiteral_of_isBlank (h : isBlank c = true) (next : Option Char) :
    opensLiteral c next = false := by
  refine opensLiteral_eq_false ⟨?_, ?_, ?_, ?_⟩ next <;> rintro rfl <;> revert h <;> decide

/-- What follows decides on parentheses and slashes only. -/
theorem opensLiteral_congr {next next' : Option Char} (h : opensLiteral c next = false)
    (hstar : next' ≠ some '*') (hslash : next' ≠ some '/') :
    opensLiteral c next' = false := by
  simp only [opensLiteral, Bool.or_eq_false_iff] at h
  simp [opensLiteral, h.1.1, hstar, hslash]

theorem opensLiteral_congr_of_isBlank {d : Char} {next : Option Char}
    (h : opensLiteral c next = false)
    (hd : isBlank d = true) : opensLiteral c (some d) = false := by
  refine opensLiteral_congr h ?_ ?_ <;> rintro ⟨⟩ <;> revert hd <;> decide

theorem literalAt_bounds {length : Nat} (h : literalAt text = some (length, kind)) :
    0 < length ∧ length ≤ text.length := by
  obtain ⟨quote, rest, -, rfl, rfl, -⟩ | ⟨rest, rfl, rfl, -⟩ | ⟨rest, rfl, rfl, -⟩ |
    ⟨rest, rfl, rfl, -⟩ := literalAt_cases h
  · have := stringLength_le quote rest
    simp only [length_cons]
    omega
  · have := commentLength_le '*' ')' rest
    simp only [length_cons]
    omega
  · have := commentLength_le '*' '/' rest
    simp only [length_cons]
    omega
  · have := lineCommentLength_le rest
    simp only [length_cons]
    omega

/-- What a literal with `body` behind its first code point looks like. -/
theorem literalAt_append_iff :
    literalAt (c :: (body ++ rest)) = some (body.length + 1, kind) ↔
      (kind = .string ∧ (c = '\x27' ∨ c = '\x22') ∧
        stringLength c (body ++ rest) = body.length) ∨
      (kind = .blockComment ∧ c = '(' ∧
        ∃ inside, body = '*' :: inside ∧ commentLength '*' ')' (inside ++ rest) = inside.length) ∨
      (kind = .slashComment ∧ c = '/' ∧
        ∃ inside, body = '*' :: inside ∧ commentLength '*' '/' (inside ++ rest) = inside.length) ∨
      (kind = .lineComment ∧ c = '/' ∧
        ∃ inside, body = '/' :: inside ∧ lineCommentLength (inside ++ rest) = inside.length) := by
  -- A comment has a second code point of its opener in `body`.
  have hcomment : ∀ {d : Char} {tail : List Char} {n : Nat}, body ++ rest = d :: tail →
      body.length + 1 = n + 2 → ∃ inside, body = d :: inside ∧ tail = inside ++ rest ∧
        n = inside.length := by
    intro d tail n htail hlength
    obtain ⟨e, inside, rfl⟩ : ∃ e inside, body = e :: inside :=
      exists_cons_of_ne_nil (by rintro rfl; simp at hlength)
    rw [cons_append] at htail
    obtain ⟨rfl, rfl⟩ := cons_eq_cons.mp htail
    refine ⟨inside, rfl, rfl, ?_⟩
    simp only [length_cons] at hlength
    omega
  constructor
  · intro h
    obtain ⟨quote, tail, hquote, htext, hlength, rfl⟩ | ⟨tail, htext, hlength, rfl⟩ |
      ⟨tail, htext, hlength, rfl⟩ | ⟨tail, htext, hlength, rfl⟩ := literalAt_cases h
    all_goals obtain ⟨rfl, htail⟩ := cons_eq_cons.mp htext
    · rw [← htail] at hlength
      exact .inl ⟨rfl, hquote, (Nat.add_right_cancel hlength).symm⟩
    · obtain ⟨inside, rfl, rfl, hinside⟩ := hcomment htail hlength
      exact .inr (.inl ⟨rfl, rfl, inside, rfl, hinside⟩)
    · obtain ⟨inside, rfl, rfl, hinside⟩ := hcomment htail hlength
      exact .inr (.inr (.inl ⟨rfl, rfl, inside, rfl, hinside⟩))
    · obtain ⟨inside, rfl, rfl, hinside⟩ := hcomment htail hlength
      exact .inr (.inr (.inr ⟨rfl, rfl, inside, rfl, hinside⟩))
  · rintro (⟨rfl, rfl | rfl, hlength⟩ | ⟨rfl, rfl, inside, rfl, hlength⟩ |
      ⟨rfl, rfl, inside, rfl, hlength⟩ | ⟨rfl, rfl, inside, rfl, hlength⟩)
    · rw [literalAt, hlength]
    · rw [literalAt, hlength]
    all_goals rw [cons_append, literalAt, hlength, length_cons]

/-- A literal stays a literal when the text behind it changes, unless it is open and ends with the
text, or it is a line comment and more than blanks would follow on its line. -/
theorem literalAt_append {c : Char} {body rest rest' : List Char} {kind : Kind}
    (h : literalAt (c :: (body ++ rest)) = some (body.length + 1, kind))
    (hopen : kind ≠ .lineComment → rest = [] → rest' = [])
    (hline : kind = .lineComment → blankToLineEnd rest') :
    literalAt (c :: (body ++ rest')) = some (body.length + 1, kind) := by
  by_cases hrest : rest = [] ∧ rest' = []
  · rw [hrest.1] at h
    rw [hrest.2]
    exact h
  rw [literalAt_append_iff] at h ⊢
  obtain ⟨rfl, hquote, hlength⟩ | ⟨rfl, rfl, inside, rfl, hlength⟩ | ⟨rfl, rfl, inside,
    rfl, hlength⟩ | ⟨rfl, rfl, inside, rfl, hlength⟩ := h
  · have hne : rest ≠ [] := fun hnil => hrest ⟨hnil, hopen (by decide) hnil⟩
    exact .inl ⟨rfl, hquote, (stringLength_ends hne body hlength).2 rest'⟩
  · have hne : rest ≠ [] := fun hnil => hrest ⟨hnil, hopen (by decide) hnil⟩
    exact .inr (.inl ⟨rfl, rfl, inside, rfl, (commentLength_ends hne inside hlength).2 rest'⟩)
  · have hne : rest ≠ [] := fun hnil => hrest ⟨hnil, hopen (by decide) hnil⟩
    exact .inr
      (.inr (.inl ⟨rfl, rfl, inside, rfl, (commentLength_ends hne inside hlength).2 rest'⟩))
  · obtain ⟨hinside, htrim, -⟩ := lineCommentLength_append_iff.mp hlength
    exact .inr (.inr (.inr ⟨rfl, rfl, inside, rfl,
      lineCommentLength_append_iff.mpr ⟨hinside, htrim, hline rfl⟩⟩))

/-- Behind a line comment only blanks stand up to the end of its line. -/
theorem blankToLineEnd_of_literalAt
    (h : literalAt (c :: (body ++ rest)) = some (body.length + 1, .lineComment)) :
    blankToLineEnd rest := by
  obtain ⟨hkind, -⟩ | ⟨hkind, -⟩ | ⟨hkind, -⟩ | ⟨-, -, inside, -, hlength⟩ :=
    literalAt_append_iff.mp h
  · cases hkind
  · cases hkind
  · cases hkind
  · exact (lineCommentLength_append_iff.mp hlength).2.2

/-- How a block or slash comment that does not end with the text ends. -/
theorem getLast?_of_literalAt (h : literalAt (c :: (body ++ rest)) = some (body.length + 1, kind))
    (hrest : rest ≠ []) (hcomment : kind.isComment = true) (hline : kind ≠ .lineComment) :
    body.getLast? = some ')' ∨ body.getLast? = some '/' := by
  obtain ⟨rfl, -⟩ | ⟨rfl, -, inside, rfl, hlength⟩ | ⟨rfl, -, inside, rfl, hlength⟩ | ⟨rfl, -⟩ :=
    literalAt_append_iff.mp h
  · cases hcomment
  · obtain ⟨init, rfl⟩ := (commentLength_ends hrest inside hlength).1
    exact .inl (by simp [getLast?_cons])
  · obtain ⟨init, rfl⟩ := (commentLength_ends hrest inside hlength).1
    exact .inr (by simp [getLast?_cons])
  · exact absurd rfl hline

/-- A literal that does not end with the text does not end in a blank. -/
theorem isBlank_getLast?_of_literalAt
    (h : literalAt (c :: (body ++ rest)) = some (body.length + 1, kind)) (hrest : rest ≠ []) :
    ∀ d ∈ (c :: body).getLast?, isBlank d = false := by
  intro d hd
  rw [getLast?_cons] at hd
  obtain ⟨rfl, hquote, hlength⟩ | ⟨rfl, rfl, inside, rfl, hlength⟩ |
    ⟨rfl, rfl, inside, rfl, hlength⟩ | ⟨rfl, rfl, inside, rfl, hlength⟩ := literalAt_append_iff.mp h
  · obtain ⟨inside, rfl⟩ := (stringLength_ends hrest body hlength).1
    rw [getLast?_concat] at hd
    cases hd
    rcases hquote with rfl | rfl <;> decide
  · rcases getLast?_of_literalAt h hrest rfl (by decide) with hlast | hlast
    all_goals
      rw [hlast] at hd
      cases hd
      decide
  · rcases getLast?_of_literalAt h hrest rfl (by decide) with hlast | hlast
    all_goals
      rw [hlast] at hd
      cases hd
      decide
  · obtain ⟨-, htrim, -⟩ := lineCommentLength_append_iff.mp hlength
    rw [getLast?_cons] at hd
    cases hlast : inside.getLast? with
    | none =>
      rw [hlast] at hd
      cases hd
      decide
    | some e =>
      rw [hlast] at hd
      cases hd
      exact isBlank_getLast?_of_trimRight htrim _ hlast

theorem recognize_isProper : recognize.IsProper := by
  intro advance cursor n kind h
  exact literalAt_bounds h

end Literal

end StructuredText
