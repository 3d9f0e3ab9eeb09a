import Mathlib.Data.List.Basic
import StructuredText.Text.Slice

/-!
# Edits that keep lengths

Edits that put texts of the same length in place of what they replace move nothing, so that the
result is known position by position.

Results:
1. `getElem?_applyEditsFrom_of_mem`: an edit puts its text where it stands.
2. `getElem?_applyEditsFrom_of_apart`: what is in no edit is kept.
3. `length_applyEditsFrom`: the length is kept.
-/

namespace StructuredText

open List

/-- The edits are in order and apart, stand in a text of `length` code points from `pos` on, and put
texts of the same length in place of what they replace. -/
structure KeepLengths (pos length : Nat) (edits : List Edit) : Prop where
  apart : edits.Pairwise fun first second => first.stop ≤ second.start
  within : ∀ edit ∈ edits, pos ≤ edit.start ∧ edit.stop ≤ pos + length
  same : ∀ edit ∈ edits, edit.start + edit.text.length = edit.stop

theorem KeepLengths.of_cons {pos length : Nat} {edit : Edit} {edits : List Edit}
    (h : KeepLengths pos length (edit :: edits)) :
    KeepLengths edit.stop (length - (edit.stop - pos)) edits := by
  obtain ⟨hfirst, hrest⟩ := pairwise_cons.mp h.apart
  refine ⟨hrest, fun other hother => ⟨hfirst other hother, ?_⟩,
    fun other hother => h.same other (mem_cons_of_mem _ hother)⟩
  have hedit := h.within edit mem_cons_self
  have hedit' := h.same edit mem_cons_self
  have hother := h.within other (mem_cons_of_mem _ hother)
  omega

section

variable {pos : Nat} {edit : Edit} {edits : List Edit} {text : List Char} {k : Nat}

theorem getElem?_applyEditsFrom_before (h : KeepLengths pos text.length (edit :: edits))
    (hk : pos + k < edit.start) : (applyEditsFrom pos (edit :: edits) text)[k]? = text[k]? := by
  have hwithin := h.within edit mem_cons_self
  have hsame := h.same edit mem_cons_self
  rw [applyEditsFrom, append_assoc,
    getElem?_append_left (by rw [length_take]; omega),
    getElem?_take_of_lt (by omega)]

theorem getElem?_applyEditsFrom_inside (h : KeepLengths pos text.length (edit :: edits))
    (hstart : edit.start ≤ pos + k) (hstop : pos + k < edit.stop) :
    (applyEditsFrom pos (edit :: edits) text)[k]? = edit.text[pos + k - edit.start]? := by
  have hwithin := h.within edit mem_cons_self
  have hsame := h.same edit mem_cons_self
  have hlength : (text.take (edit.start - pos)).length = edit.start - pos := by
    rw [length_take]
    omega
  rw [applyEditsFrom, append_assoc, getElem?_append_right (by omega),
    getElem?_append_left (by omega), hlength]
  congr 1
  omega

theorem getElem?_applyEditsFrom_behind (h : KeepLengths pos text.length (edit :: edits))
    (hstop : edit.stop ≤ pos + k) :
    (applyEditsFrom pos (edit :: edits) text)[k]? =
      (applyEditsFrom edit.stop edits (text.drop (edit.stop - pos)))[pos + k - edit.stop]? := by
  have hwithin := h.within edit mem_cons_self
  have hsame := h.same edit mem_cons_self
  have hlength : (text.take (edit.start - pos) ++ edit.text).length = edit.stop - pos := by
    rw [length_append, length_take]
    omega
  rw [applyEditsFrom, getElem?_append_right (by omega), hlength]
  congr 1
  omega

/-- An edit puts its text where it stands. -/
theorem getElem?_applyEditsFrom_of_mem (h : KeepLengths pos text.length edits) (hmem : edit ∈ edits)
    (hstart : edit.start ≤ pos + k) (hstop : pos + k < edit.stop) :
    (applyEditsFrom pos edits text)[k]? = edit.text[pos + k - edit.start]? := by
  induction edits generalizing pos text k with
  | nil => cases hmem
  | cons first edits ih =>
    rcases mem_cons.mp hmem with rfl | hmem
    · exact getElem?_applyEditsFrom_inside h hstart hstop
    · have hapart := (pairwise_cons.mp h.apart).1 edit hmem
      have hrest := h.of_cons
      rw [← length_drop] at hrest
      rw [getElem?_applyEditsFrom_behind h (by omega), ih hrest hmem (by omega) (by omega)]
      congr 1
      omega

/-- What is in no edit is kept. -/
theorem getElem?_applyEditsFrom_of_apart (h : KeepLengths pos text.length edits)
    (hapart : ∀ edit ∈ edits, ¬ (edit.start ≤ pos + k ∧ pos + k < edit.stop)) :
    (applyEditsFrom pos edits text)[k]? = text[k]? := by
  induction edits generalizing pos text k with
  | nil => rfl
  | cons first edits ih =>
    obtain ⟨hfirst, hapart⟩ := forall_mem_cons.mp hapart
    have hwithin := h.within first mem_cons_self
    have hsame := h.same first mem_cons_self
    by_cases hk : pos + k < first.start
    · exact getElem?_applyEditsFrom_before h hk
    · have hrest := h.of_cons
      rw [← length_drop] at hrest
      rw [getElem?_applyEditsFrom_behind h (by omega), ih hrest ?_, getElem?_drop]
      · congr 1
        omega
      · rwa [show first.stop + (pos + k - first.stop) = pos + k by omega]

/-- Edits that keep their lengths keep that of the text. -/
theorem length_applyEditsFrom (h : KeepLengths pos text.length edits) :
    (applyEditsFrom pos edits text).length = text.length := by
  induction edits generalizing pos text with
  | nil => rfl
  | cons first edits ih =>
    have hwithin := h.within first mem_cons_self
    have hsame := h.same first mem_cons_self
    have hrest := h.of_cons
    rw [← length_drop] at hrest
    rw [applyEditsFrom, length_append, length_append, length_take, ih hrest,
      length_drop]
    omega

end

end StructuredText
