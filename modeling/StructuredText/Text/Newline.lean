/-!
# Line breaks

A line break is a line feed, a carriage return, or a carriage return with a line feed behind it.
`normalizeNewlines` writes all of them as a line feed. Behind it, lines are what stands between
line feeds: `lines` splits a text into them, and `joinLines` puts them together again.
-/

namespace StructuredText

/-- The text with each line break written as a line feed. -/
def normalizeNewlines : List Char → List Char
  | [] => []
  | '\r' :: '\n' :: rest => '\n' :: normalizeNewlines rest
  | c :: rest => (if c = '\r' then '\n' else c) :: normalizeNewlines rest

/-- The lines of a text. There is always one more than there are line feeds. -/
def lines : List Char → List (List Char)
  | [] => [[]]
  | c :: rest =>
      if c = '\n' then [] :: lines rest
      else
        match lines rest with
        | [] => [[c]]
        | line :: others => (c :: line) :: others

/-- The text that has the given lines. -/
def joinLines : List (List Char) → List Char
  | [] => []
  | [line] => line
  | line :: others => line ++ '\n' :: joinLines others

theorem lines_ne_nil (text : List Char) : lines text ≠ [] := by
  cases text with
  | nil => simp [lines]
  | cons c rest =>
    simp only [lines]
    split
    · simp
    · split <;> simp

/-- What is no line feed goes to the line behind it. -/
theorem lines_cons {c : Char} (hc : c ≠ '\n') (rest : List Char) :
    lines (c :: rest) = (lines rest).modifyHead (c :: ·) := by
  rw [lines, if_neg hc]
  cases hlines : lines rest with
  | nil => exact absurd hlines (lines_ne_nil rest)
  | cons line others => rfl

theorem joinLines_cons {line : List Char} {others : List (List Char)} (h : others ≠ []) :
    joinLines (line :: others) = line ++ '\n' :: joinLines others := by
  cases others with
  | nil => exact absurd rfl h
  | cons _ _ => rfl

/-- No carriage return is left. -/
theorem cr_not_mem_normalizeNewlines (text : List Char) : '\r' ∉ normalizeNewlines text := by
  fun_induction normalizeNewlines text with
  | case1 => simp
  | case2 rest ih => simp [ih]
  | case3 c rest _ ih =>
    by_cases hc : c = '\r'
    · simp [hc, ih]
    · simp [hc, ih, Ne.symm hc]

theorem normalizeNewlines_eq_self {text : List Char} (h : '\r' ∉ text) :
    normalizeNewlines text = text := by
  fun_induction normalizeNewlines text with
  | case1 => rfl
  | case2 rest ih => simp at h
  | case3 c rest _ ih =>
    simp only [List.mem_cons, not_or] at h
    rw [ih h.2, if_neg (Ne.symm h.1)]

/-- Normalising twice changes nothing more. -/
theorem normalizeNewlines_normalizeNewlines (text : List Char) :
    normalizeNewlines (normalizeNewlines text) = normalizeNewlines text :=
  normalizeNewlines_eq_self (cr_not_mem_normalizeNewlines text)

end StructuredText
