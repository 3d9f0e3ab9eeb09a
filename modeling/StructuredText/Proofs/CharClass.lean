import StructuredText.Text.Blank
import StructuredText.Text.Word

/-!
# Classes of code points

How blanks, digits and word characters relate. Sets of code points are compared by their boundaries.

Results:
1. `isWordChar_of_isBlank`: blanks are no word characters.
2. `isWordChar_of_isDigit`: digits are word characters.
-/

namespace StructuredText

/-- What holds of each code point of a text is checked along the text, and not over all code
points. -/
instance (priority := 1100) decidableForallMem (p : Char → Prop) [DecidablePred p]
    (text : List Char) : Decidable (∀ c ∈ text, p c) :=
  List.decidableBAll p text

/-- Blanks are no word characters. -/
theorem isWordChar_of_isBlank {c : Char} (h : isBlank c = true) : isWordChar c = false := by
  have hall : ([9, 10, 11, 12, 13, 28, 29, 30, 31, 32, 0x85, 0xA0, 0x1680, 0x2000, 0x2001, 0x2002,
      0x2003, 0x2004, 0x2005, 0x2006, 0x2007, 0x2008, 0x2009, 0x200A, 0x2028, 0x2029, 0x202F,
      0x205F, 0x3000].all fun n => isWordChar (Char.ofNat n) == false) = true := by
    decide +kernel
  have hmem : c.toNat ∈ [9, 10, 11, 12, 13, 28, 29, 30, 31, 32, 0x85, 0xA0, 0x1680, 0x2000, 0x2001,
      0x2002, 0x2003, 0x2004, 0x2005, 0x2006, 0x2007, 0x2008, 0x2009, 0x200A, 0x2028, 0x2029,
      0x202F, 0x205F, 0x3000] := by
    simp only [isBlank] at h
    simp only [List.mem_cons, List.not_mem_nil, or_false]
    split at h <;>
      simp only [Bool.or_eq_true, Bool.and_eq_true, decide_eq_true_eq, beq_iff_eq] at h <;> omega
  have := List.all_eq_true.mp hall _ hmem
  rwa [Char.ofNat_toNat, beq_iff_eq] at this

/-- Whether all from `first` up to, but not including, `last` are in the set with the given
boundaries. -/
def holdsRun (first last : Nat) : List Nat → Bool
  | start :: stop :: rest =>
      if stop.ble first && start.ble stop then holdsRun first last rest
      else start.ble first && last.ble stop
  | _ => false

/-- Whether the set with the boundaries `inner` is part of the one with the boundaries `outer`. -/
def holdsRuns (outer : List Nat) : List Nat → Bool
  | start :: stop :: rest => holdsRun start stop outer && holdsRuns outer rest
  | _ => true

theorem withinBoundaries_of_holdsRun {first last n : Nat} {boundaries : List Nat}
    (h : holdsRun first last boundaries = true) (hfirst : first ≤ n) (hlast : n < last) :
    withinBoundaries n boundaries = true := by
  fun_induction holdsRun first last boundaries with
  | case1 start stop rest hskip ih =>
    simp only [Bool.and_eq_true, Nat.ble_eq] at hskip
    rw [withinBoundaries, if_neg (by omega), if_neg (by omega)]
    exact ih h
  | case2 start stop rest _ =>
    simp only [Bool.and_eq_true, Nat.ble_eq] at h
    rw [withinBoundaries, if_neg (by omega), if_pos (by omega)]
  | case3 => cases h

theorem withinBoundaries_of_holdsRuns {outer inner : List Nat} {n : Nat}
    (h : holdsRuns outer inner = true) (hn : withinBoundaries n inner = true) :
    withinBoundaries n outer = true := by
  fun_induction withinBoundaries n inner with
  | case1 => cases hn
  | case2 start stop rest hstart hstop =>
    rw [holdsRuns, Bool.and_eq_true] at h
    exact withinBoundaries_of_holdsRun h.1 (by omega) hstop
  | case3 start stop rest hstart hstop ih =>
    rw [holdsRuns, Bool.and_eq_true] at h
    exact ih h.2 hn
  | case4 => cases hn

theorem digits_checked : holdsRuns alphanumericBoundaries digitBoundaries = true := by
  decide +kernel

/-- Digits are word characters. -/
theorem isWordChar_of_isDigit {c : Char} (h : isDigit c = true) : isWordChar c = true := by
  unfold isDigit at h
  unfold isWordChar isAlphanumeric
  split at h
  next hlow => simp only [if_pos hlow, h, Bool.or_true]
  next hlow =>
    have := withinBoundaries_of_holdsRuns digits_checked h
    simp only [if_neg hlow, this, Bool.or_true]

end StructuredText
