import StructuredText.Proofs.CharClass
import StructuredText.Proofs.Scanning

/-!
# What typed literals hold

Each reader of a typed literal is measured by the number of code points that it takes off a text.

Results:
1. `measures_directAddress` and others: the readers go as far as their measures say.
2. `typedLiteral_eq`: a typed literal is read by its measure.
-/

namespace StructuredText

namespace Literal

open Cursor

/-- The code points that a typed literal can hold. -/
def isTypedChar (c : Char) : Bool :=
  isWordChar c || c == '#' || c == ':' || c == '-' || c == '+' || c == '.' || c == '%' || c == '*'

/-- How many code points a reader takes off a text, if it can read. -/
abbrev Measure := List Char → Option Nat

/-- The cursor `n` code points further on. -/
def skip (n : Nat) (cursor : Cursor) : Cursor :=
  ⟨cursor.pos + n, (cursor.after.take n).reverse ++ cursor.before, cursor.after.drop n⟩

/-- The reader goes as far as the measure says. -/
def Measures (read : Cursor → Option Cursor) (length : Measure) : Prop :=
  ∀ cursor, read cursor = (length cursor.after).map fun n => skip n cursor

/-! ## Measures of readers -/

namespace Measure

def next (p : Char → Bool) : Measure
  | [] => none
  | c :: _ => if p c then some 1 else none

def run (p : Char → Bool) : Measure :=
  fun text => some (text.takeWhile p).length

def seq (first second : Measure) : Measure :=
  fun text => (first text).bind fun n => (second (text.drop n)).map (n + ·)

def opt (body : Measure) : Measure :=
  fun text => some ((body text).getD 0)

def alt (first second : Measure) : Measure :=
  fun text => (first text).or (second text)

def fail : Measure :=
  fun _ => none

def word (text : List Char) : Measure :=
  text.foldr (fun c rest => seq (next (sameUpToCase c)) rest) fun _ => some 0

def someRun (p : Char → Bool) : Measure :=
  seq (next p) (run p)

def firstOf (measures : List Measure) : Measure :=
  measures.foldr alt fail

end Measure

theorem skip_zero (cursor : Cursor) : skip 0 cursor = cursor := by
  simp [skip]

theorem skip_skip (n m : Nat) (cursor : Cursor) :
    skip m (skip n cursor) = skip (n + m) cursor := by
  simp only [skip, Nat.add_assoc, List.drop_drop, Cursor.mk.injEq, true_and, and_true]
  rw [← List.append_assoc, ← List.reverse_append, ← List.take_add]

theorem measures_next (p : Char → Bool) : Measures (Cursor.next p) (.next p) := by
  intro cursor
  unfold Cursor.next Measure.next
  cases h : cursor.after with
  | nil => rfl
  | cons c rest =>
    simp only
    split
    · simp [skip, h]
    · rfl

theorem measures_run (p : Char → Bool) : Measures (fun cursor => some (cursor.run p)) (.run p) := by
  intro cursor
  have hsplit := List.takeWhile_append_dropWhile (p := p) (l := cursor.after)
  simp only [Measure.run, Option.map_some, Cursor.run, reads_runFrom, skip]
  generalize cursor.after.takeWhile p = read at hsplit ⊢
  generalize cursor.after.dropWhile p = rest at hsplit ⊢
  rw [← hsplit, List.take_left, List.drop_left]

variable {read first second : Cursor → Option Cursor} {length a b : Measure}

theorem Measures.seq (hfirst : Measures first a) (hsecond : Measures second b) :
    Measures (fun cursor => (first cursor).bind second) (a.seq b) := by
  intro cursor
  simp only [hfirst cursor, Measure.seq]
  cases a cursor.after with
  | none => rfl
  | some n =>
    simp only [Option.map_some, Option.bind_some, hsecond (skip n cursor), Option.map_map]
    have hafter : (skip n cursor).after = cursor.after.drop n := rfl
    rw [hafter]
    cases b (cursor.after.drop n) with
    | none => rfl
    | some m => simp [skip_skip]

theorem Measures.opt (hread : Measures read a) :
    Measures (fun cursor => some (cursor.optionally read)) a.opt := by
  intro cursor
  simp only [optionally, hread cursor, Measure.opt]
  cases a cursor.after with
  | none => simp [skip_zero]
  | some n => rfl

theorem Measures.alt (hfirst : Measures first a) (hsecond : Measures second b) :
    Measures (fun cursor => (first cursor).or (second cursor)) (a.alt b) := by
  intro cursor
  simp only [hfirst cursor, hsecond cursor, Measure.alt]
  cases a cursor.after <;> rfl

theorem measures_word : ∀ text : List Char, Measures (Cursor.word text) (.word text)
  | [] => fun cursor => by simp [Cursor.word, Measure.word, skip_zero]
  | c :: rest => (measures_next (sameUpToCase c)).seq (measures_word rest)

theorem measures_char (c : Char) : Measures (Cursor.char c) (.next (· == c)) :=
  measures_next _

theorem measures_someRun (p : Char → Bool) : Measures (Cursor.someRun p) (.someRun p) := by
  intro cursor
  rw [Cursor.someRun, Option.map_eq_bind]
  exact (measures_next p).seq (measures_run p) cursor

theorem measures_findSome? {α : Type} {reads : α → Cursor → Option Cursor} {measure : α → Measure}
    (h : ∀ value, Measures (reads value) (measure value)) :
    ∀ values : List α, Measures (fun cursor => values.findSome? fun value => reads value cursor)
      (.firstOf (values.map measure))
  | [] => fun _ => rfl
  | value :: values => by
      intro cursor
      have := (h value).alt (measures_findSome? h values) cursor
      simp only [List.findSome?_cons] at this ⊢
      cases hread : reads value cursor with
      | none => rwa [hread, Option.none_or] at this
      | some stop => rwa [hread, Option.some_or] at this

/-! ## Measures of typed literals -/

namespace Measure

def char (c : Char) : Measure :=
  next (· == c)

def digits : Measure :=
  someRun isDigit

def typeName (names : List String) : Measure :=
  firstOf (names.map fun name => seq (word name.toList) (char '#'))

/-- A point and then what `body` takes. -/
def pointed (body : Measure) : Measure :=
  seq (char '.') body

/-- A colon and then what `body` takes. -/
def timed (body : Measure) : Measure :=
  seq (char ':') body

def clockTime : Measure :=
  seq digits (timed (seq digits (opt (timed (seq digits (opt (pointed digits)))))))

def calendarDate : Measure :=
  seq digits (seq (char '-') (seq digits (seq (char '-') digits)))

def dateAndTime : Measure :=
  seq (typeName ["DT", "LDT", "DATE_AND_TIME", "LDATE_AND_TIME"])
    (seq calendarDate (seq (char '-') clockTime))

def timeOfDay : Measure :=
  seq (typeName ["TOD", "LTOD", "TIME_OF_DAY", "LTIME_OF_DAY"]) clockTime

def date : Measure :=
  seq (typeName ["D", "LD", "DATE", "LDATE"]) calendarDate

def duration : Measure :=
  seq (typeName ["T", "LT", "TIME", "LTIME"])
    (seq (opt (next isSign)) (seq (next isDigit) (run fun c => isWordChar c || c == '.')))

def basedInteger : Measure :=
  seq digits (seq (char '#') (someRun isBasedDigit))

def groupedDigits : Measure :=
  seq (next isDigit) (run fun c => isDigit c || c == '_')

/-- The exponent of a number: its letter, sign and digits. -/
def exponent : Measure :=
  seq (next (sameUpToCase 'E')) (seq (opt (next isSign)) digits)

def exponentNumber : Measure :=
  seq groupedDigits (seq (opt (pointed groupedDigits)) exponent)

/-- Groups of digits behind points, `tries` at most. -/
def dotted (tries : Nat) : Measure :=
  match tries with
  | 0 => fun _ => some 0
  | tries + 1 => opt (seq (pointed digits) (dotted tries))

/-- The part of an address behind its letters. -/
def addressPlace : Measure :=
  alt (char '*') (seq digits fun text => dotted text.length text)

def directAddress : Measure :=
  seq (char '%')
  (seq (next (isLetterOf "IQM")) (seq (opt (next (isLetterOf "XBWDL"))) addressPlace))

/-- The typed literals that start at a word boundary. -/
def typedWord : Measure :=
  alt dateAndTime (alt timeOfDay (alt date (alt duration (alt basedInteger exponentNumber))))

end Measure

theorem measures_digits : Measures Cursor.digits .digits :=
  measures_someRun isDigit

theorem measures_typeName (names : List String) :
    Measures (typeName names) (.typeName names) :=
  @measures_findSome? String (fun name cursor => (cursor.word name.toList).bind (Cursor.char '#'))
    (fun name => .seq (.word name.toList) (.char '#'))
    (fun name => (measures_word name.toList).seq (measures_char '#')) names

theorem measures_clockTime : Measures clockTime .clockTime :=
  measures_digits.seq ((measures_char ':').seq (measures_digits.seq (.opt
    ((measures_char ':').seq (measures_digits.seq (.opt
      ((measures_char '.').seq measures_digits)))))))

theorem measures_calendarDate : Measures calendarDate .calendarDate :=
  measures_digits.seq ((measures_char '-').seq (measures_digits.seq
    ((measures_char '-').seq measures_digits)))

theorem measures_dateAndTime : Measures dateAndTime .dateAndTime :=
  (measures_typeName _).seq (measures_calendarDate.seq ((measures_char '-').seq measures_clockTime))

theorem measures_timeOfDay : Measures timeOfDay .timeOfDay :=
  (measures_typeName _).seq measures_clockTime

theorem measures_date : Measures date .date :=
  (measures_typeName _).seq measures_calendarDate

theorem measures_duration : Measures duration .duration :=
  (measures_typeName _).seq ((measures_next isSign).opt.seq ((measures_next isDigit).seq
    (measures_run _)))

theorem measures_basedInteger : Measures basedInteger .basedInteger :=
  measures_digits.seq ((measures_char '#').seq (measures_someRun _))

theorem measures_groupedDigits : Measures groupedDigits .groupedDigits := by
  intro cursor
  rw [groupedDigits, Option.map_eq_bind]
  exact (measures_next _).seq (measures_run _) cursor

theorem measures_exponentNumber : Measures exponentNumber .exponentNumber :=
  measures_groupedDigits.seq (((measures_char '.').seq measures_groupedDigits).opt.seq
    ((measures_next _).seq ((measures_next isSign).opt.seq measures_digits)))

theorem measures_dottedDigits : ∀ tries,
    Measures (fun cursor => some (dottedDigits tries cursor)) (.dotted tries)
  | 0 => fun cursor => by simp [dottedDigits, Measure.dotted, skip_zero]
  | tries + 1 => by
      intro cursor
      refine Eq.trans ?_
        ((((measures_char '.').seq measures_digits).seq (measures_dottedDigits tries)).opt cursor)
      cases h : (cursor.char '.').bind Cursor.digits <;> simp [dottedDigits, optionally, h]

theorem measures_directAddress : Measures directAddress .directAddress := by
  have hdotted : Measures (fun cursor => some (dottedDigits cursor.after.length cursor))
      (fun text => Measure.dotted text.length text) :=
    fun cursor => measures_dottedDigits cursor.after.length cursor
  have hplace := (measures_char '*').alt (measures_digits.seq hdotted)
  intro cursor
  refine Eq.trans ?_ (((measures_char '%').seq ((measures_next (isLetterOf "IQM")).seq
    ((measures_next (isLetterOf "XBWDL")).opt.seq hplace))) cursor)
  refine Option.bind_congr fun area _ => Option.bind_congr fun size _ => ?_
  rw [Option.bind_some]
  dsimp only
  cases (size.optionally (Cursor.next (isLetterOf "XBWDL"))).char '*' <;> rfl

/-- A typed literal is read by its measure. -/
theorem typedLiteral_eq (cursor : Cursor) :
    typedLiteral cursor =
      (((if cursor.atBoundary then Measure.typedWord cursor.after else none).or
        (Measure.directAddress cursor.after)).map fun n => skip n cursor) := by
  have hword := (measures_dateAndTime.alt (measures_timeOfDay.alt (measures_date.alt
    (measures_duration.alt (measures_basedInteger.alt measures_exponentNumber))))) cursor
  simp only [typedLiteral, Option.orElse_eq_orElse, Option.orElse_eq_or,
    measures_directAddress cursor, Cursor.boundary]
  beta_reduce at hword
  split
  · rw [Option.bind_some, hword, ← Option.map_or]
    rfl
  · rfl

end Literal

end StructuredText
