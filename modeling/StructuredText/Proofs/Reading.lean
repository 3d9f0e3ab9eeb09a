import Mathlib.Data.List.Forall2
import StructuredText.Proofs.LetterCase

/-!
# What readers read

`Cursor.Reads cursor stop text` says that `stop` is the place behind `text`, read from `cursor` on.
For each reader of a token there is a lemma on the text that it reads.
-/

namespace StructuredText.Cursor

/-- The place `stop` lies behind `text`, which stands at `cursor`. -/
structure Reads (cursor stop : Cursor) (text : List Char) : Prop where
  after : cursor.after = text ++ stop.after
  before : stop.before = text.reverse ++ cursor.before
  pos : stop.pos = cursor.pos + text.length

namespace Reads

variable {cursor middle stop : Cursor} {first second text : List Char}

theorem refl (cursor : Cursor) : Reads cursor cursor [] :=
  ⟨rfl, rfl, rfl⟩

theorem trans (h : Reads cursor middle first) (h' : Reads middle stop second) :
    Reads cursor stop (first ++ second) where
  after := by rw [h.after, h'.after, List.append_assoc]
  before := by rw [h'.before, h.before, List.reverse_append, List.append_assoc]
  pos := by rw [h'.pos, h.pos, List.length_append, Nat.add_assoc]

theorem eq_of_nil (h : Reads cursor stop []) : stop = cursor := by
  obtain ⟨pos, before, after⟩ := cursor
  obtain ⟨pos', before', after'⟩ := stop
  obtain ⟨hafter, hbefore, hpos⟩ := h
  simp_all

/-- A text is read in two steps. -/
theorem split (h : Reads cursor stop (first ++ second)) :
    ∃ middle, Reads cursor middle first ∧ Reads middle stop second := by
  refine ⟨⟨cursor.pos + first.length, first.reverse ++ cursor.before, second ++ stop.after⟩,
    ⟨by rw [h.after, List.append_assoc], rfl, rfl⟩, ⟨rfl, ?_, ?_⟩⟩
  · rw [h.before, List.reverse_append, List.append_assoc]
  · rw [h.pos, List.length_append, Nat.add_assoc]

theorem length_after_le (h : Reads cursor stop text) : stop.after.length ≤ cursor.after.length := by
  rw [h.after, List.length_append]
  omega

/-- What is read is known from its length. -/
theorem eq_of_append (h : Reads cursor stop text) {block rest : List Char}
    (hafter : cursor.after = block ++ rest) (hlength : stop.pos - cursor.pos = block.length) :
    text = block ∧ stop.after = rest := by
  have htext : text.length = block.length := by
    rw [h.pos] at hlength
    omega
  exact List.append_inj (h.after.symm.trans hafter) htext

theorem upTo_eq (h : Reads cursor stop text) : cursor.upTo stop = text := by
  rw [upTo, h.after, h.pos, Nat.add_sub_cancel_left, List.take_left]

end Reads

variable {cursor stop : Cursor} {text : List Char} {p : Char → Bool}

theorem reads_next (h : cursor.next p = some stop) :
    ∃ c, p c = true ∧ Reads cursor stop [c] := by
  unfold next at h
  split at h
  next => cases h
  next c rest hafter =>
    split at h
    next hp =>
      cases h
      exact ⟨c, hp, hafter, rfl, rfl⟩
    next => cases h

theorem reads_char {c : Char} (h : cursor.char c = some stop) : Reads cursor stop [c] := by
  obtain ⟨d, hd, hreads⟩ := reads_next h
  rw [beq_iff_eq] at hd
  rwa [hd] at hreads

theorem reads_token (h : cursor.token text = some stop) : Reads cursor stop text := by
  induction text generalizing cursor with
  | nil =>
    cases h
    exact .refl _
  | cons c rest ih =>
    obtain ⟨middle, hchar, hrest⟩ := Option.bind_eq_some_iff.mp h
    exact (reads_char hchar).trans (ih hrest)

/-- A word is read code point by code point, up to case. -/
theorem reads_word (h : cursor.word text = some stop) :
    ∃ read, Reads cursor stop read ∧
      List.Forall₂ (fun c d => sameUpToCase c d = true) text read := by
  induction text generalizing cursor with
  | nil =>
    cases h
    exact ⟨[], .refl _, .nil⟩
  | cons c rest ih =>
    obtain ⟨middle, hnext, hrest⟩ := Option.bind_eq_some_iff.mp h
    obtain ⟨d, hd, hreads⟩ := reads_next hnext
    obtain ⟨read, hread, hsame⟩ := ih hrest
    exact ⟨d :: read, hreads.trans hread, .cons hd hsame⟩

/-- For a word of ASCII letters and underscores, such code points are read, in any case. -/
theorem reads_word_isWordSign (htext : ∀ c ∈ text, c.toNat < 128 ∧ isWordSign c = true)
    (h : cursor.word text = some stop) :
    ∃ read, Reads cursor stop read ∧ read.length = text.length ∧
      ∀ c ∈ read, isWordSign c = true := by
  obtain ⟨read, hreads, hsame⟩ := reads_word h
  exact ⟨read, hreads, hsame.length_eq.symm, forall_of_sameUpToCase isWordSign_checked htext hsame⟩

theorem reads_runFrom (p : Char → Bool) : ∀ (after before : List Char) (pos : Nat),
    runFrom p pos before after =
      ⟨pos + (after.takeWhile p).length, (after.takeWhile p).reverse ++ before,
        after.dropWhile p⟩
  | [], before, pos => rfl
  | c :: rest, before, pos => by
      by_cases hp : p c = true
      · rw [runFrom, if_pos hp, reads_runFrom p rest, List.takeWhile_cons_of_pos hp,
          List.dropWhile_cons_of_pos hp]
        simp [Nat.add_assoc, Nat.add_comm 1]
      · rw [runFrom, if_neg hp, List.takeWhile_cons_of_neg hp, List.dropWhile_cons_of_neg hp]
        rfl

/-- A run is read as far as it goes. -/
theorem reads_run (p : Char → Bool) (cursor : Cursor) :
    Reads cursor (cursor.run p) (cursor.after.takeWhile p) := by
  rw [run, reads_runFrom]
  exact ⟨(List.takeWhile_append_dropWhile).symm, rfl, rfl⟩

theorem after_run (p : Char → Bool) (cursor : Cursor) :
    (cursor.run p).after = cursor.after.dropWhile p := by
  rw [run, reads_runFrom]

theorem reads_someRun (h : cursor.someRun p = some stop) :
    cursor.after.takeWhile p ≠ [] ∧ Reads cursor stop (cursor.after.takeWhile p) ∧
      stop.after = cursor.after.dropWhile p := by
  obtain ⟨middle, hnext, rfl⟩ := Option.map_eq_some_iff.mp h
  obtain ⟨c, hc, hreads⟩ := reads_next hnext
  have hafter : cursor.after = c :: middle.after := hreads.after
  rw [hafter, List.takeWhile_cons_of_pos hc, List.dropWhile_cons_of_pos hc, after_run]
  exact ⟨List.cons_ne_nil _ _, hreads.trans (reads_run p middle), rfl⟩

theorem reads_boundary (h : cursor.boundary = some stop) :
    stop = cursor ∧ cursor.atBoundary = true := by
  unfold boundary at h
  split at h
  next hb =>
    cases h
    exact ⟨rfl, hb⟩
  next => cases h

/-- At a boundary behind a word, no word goes on. -/
theorem isWordChar_of_atBoundary {c d : Char} (h : cursor.atBoundary = true)
    (hc : cursor.before.head? = some c) (hd : cursor.after.head? = some d)
    (hword : isWordChar c = true) : isWordChar d = false := by
  obtain ⟨before, hbefore⟩ := List.head?_eq_some_iff.mp hc
  obtain ⟨after, hafter⟩ := List.head?_eq_some_iff.mp hd
  rw [atBoundary, atWordBoundary, hbefore, hafter, startsWithWordChar, startsWithWordChar,
    hword] at h
  simpa using h

theorem reads_oneOf {words : List (List Char)} (h : cursor.oneOf words = some stop) :
    ∃ text ∈ words, cursor.word text = some stop :=
  List.exists_of_findSome?_eq_some h

theorem reads_wholeWord {words : List (List Char)} (h : cursor.wholeWord words = some stop) :
    cursor.atBoundary = true ∧ stop.atBoundary = true ∧
      ∃ text ∈ words, cursor.word text = some stop := by
  obtain ⟨text, htext, hread⟩ := List.exists_of_findSome?_eq_some h
  simp only [Option.bind_eq_bind, Option.bind_eq_some_iff] at hread
  obtain ⟨first, hfirst, middle, hword, hlast⟩ := hread
  obtain ⟨rfl, hstart⟩ := reads_boundary hfirst
  obtain ⟨rfl, hstop⟩ := reads_boundary hlast
  exact ⟨hstart, hstop, text, htext, hword⟩

end StructuredText.Cursor
