/-!
# Slices and edits

Offsets count code points. An edit replaces a stretch of a text; a list of edits is applied from
left to right, each to the text as it was before the first.
-/

namespace StructuredText

/-- The code points of `text` from `start` up to, but not including, `stop`. -/
def slice (text : List Char) (start stop : Nat) : List Char :=
  (text.drop start).take (stop - start)

/-- Put `text` in place of the stretch `[start, stop)`. -/
structure Edit where
  start : Nat
  stop : Nat
  text : List Char
deriving Repr, DecidableEq

/-- Applies edits to `rest`, the part of a text from offset `pos` on. -/
def applyEditsFrom (pos : Nat) : List Edit → List Char → List Char
  | [], rest => rest
  | edit :: edits, rest =>
      rest.take (edit.start - pos) ++ edit.text ++
        applyEditsFrom edit.stop edits (rest.drop (edit.stop - pos))

/-- Applies edits that are in order and apart to a text. -/
def applyEdits (edits : List Edit) (text : List Char) : List Char :=
  applyEditsFrom 0 edits text

theorem length_slice (text : List Char) (start stop : Nat) :
    (slice text start stop).length = min (stop - start) (text.length - start) := by
  simp [slice]

/-- A slice and what stands behind it. -/
theorem slice_append_drop (text : List Char) {start stop : Nat} (h : start ≤ stop) :
    slice text start stop ++ text.drop stop = text.drop start := by
  have hdrop : text.drop stop = (text.drop start).drop (stop - start) := by
    rw [List.drop_drop, Nat.add_sub_cancel' h]
  rw [slice, hdrop, List.take_append_drop]

theorem slice_middle (first middle last : List Char) :
    slice (first ++ (middle ++ last)) first.length (first.length + middle.length) = middle := by
  rw [slice, List.drop_left, Nat.add_sub_cancel_left, List.take_left]

theorem getElem?_slice {text : List Char} {start length i : Nat} (h : i < length) :
    (slice text start (start + length))[i]? = text[start + i]? := by
  rw [slice, Nat.add_sub_cancel_left, List.getElem?_take_of_lt h, List.getElem?_drop]

end StructuredText
