import StructuredText.Proofs.BlockEnds

/-!
# Lines that blocks end

In a text with the line breaks that are due, the line of a block's end goes no further than blanks
and comments.

Results:
1. `exists_pieces`: a text with line feeds put in is the same text in pieces, a line feed between
   each two of them.
2. `Clear.endsItsLine`: where spaces, tabs and comments end a line, it ends in the text.
3. `LineBreak.breakBlocks_endsLines`: breaks are put in outside literals, they end the lines of all
   blocks, and doing so twice changes nothing more.
-/

namespace StructuredText

open List Literal

/-! ## Texts in pieces -/

/-- A text with line feeds put in is the same text in pieces, a line feed between each two of
them. -/
theorem exists_pieces : ∀ (cuts : List Nat) (pos : Nat) (text : List Char), cuts.Pairwise (· < ·) →
    (∀ cut ∈ cuts, pos ≤ cut ∧ cut ≤ pos + text.length) →
    ∃ pieces, pieces.flatten = text ∧ pieces ≠ [] ∧
      applyEditsFrom pos (cuts.map fun cut => ⟨cut, cut, ['\n']⟩) text = joinLines pieces ∧
      ∀ first later, pieces = first ++ later →
        first = [] ∨ later = [] ∨ pos + first.flatten.length ∈ cuts
  | [], pos, text, _, _ => by
    refine ⟨[text], by simp, by simp, rfl, fun first later h => ?_⟩
    rcases singleton_eq_append_iff.mp h with ⟨hfirst, -⟩ | ⟨-, hlater⟩
    · exact .inl hfirst
    · exact .inr (.inl hlater)
  | cut :: cuts, pos, text, hsorted, hcuts => by
    obtain ⟨hlater, hsorted⟩ := pairwise_cons.mp hsorted
    obtain ⟨hle, hlt⟩ := hcuts cut mem_cons_self
    have hlength : (text.take (cut - pos)).length = cut - pos := by
      rw [length_take]
      omega
    obtain ⟨pieces, hflatten, hne, hjoin, hplaces⟩ :=
      exists_pieces cuts cut (text.drop (cut - pos)) hsorted fun other hother => by
        have := hlater other hother
        have := (hcuts other (mem_cons_of_mem _ hother)).2
        rw [length_drop]
        omega
    refine ⟨text.take (cut - pos) :: pieces, ?_, cons_ne_nil _ _, ?_, fun first later h => ?_⟩
    · rw [flatten_cons, hflatten, take_append_drop]
    · rw [joinLines_cons hne, ← hjoin, map_cons, applyEditsFrom]
      simp
    · cases first with
      | nil => exact .inl rfl
      | cons piece first =>
        obtain ⟨rfl, hrest⟩ := cons_eq_cons.mp h
        have hplace :
            pos + (text.take (cut - pos) :: first).flatten.length = cut + first.flatten.length := by
          rw [flatten_cons, length_append, hlength]
          omega
        rw [hplace]
        rcases hplaces first later hrest with rfl | hnil | hmem
        · exact .inr (.inr mem_cons_self)
        · exact .inr (.inl hnil)
        · exact .inr (.inr (mem_cons_of_mem _ hmem))

theorem Insertable.le_length {cells : List Cell} {cut : Nat} (h : Insertable cells cut) :
    cut ≤ cells.length := by
  obtain ⟨left, right, rfl, rfl, -⟩ := h
  rw [length_append]
  omega

/-- No literal goes on where a line feed is put in. -/
theorem Insertable.not_between {cells : List Cell} {cut : Nat} (h : Insertable cells cut) :
    ∀ span ∈ spansFrom 0 cells, ¬ (span.start < cut ∧ cut < span.stop) := by
  rintro span hspan ⟨hstart, hstop⟩
  obtain ⟨left, right, rfl, rfl, hhead, -⟩ := h
  rw [spansFrom_append hhead, Nat.zero_add] at hspan
  rcases mem_append.mp hspan with hspan | hspan
  · have := stop_le_of_mem_spansFrom 0 hspan
    omega
  · have := start_of_mem_spansFrom _ hspan
    omega

namespace LineBreak

/-! ## Lines that end in a text -/

/-- Behind offset `pos`: a space or a tab stands at the place, a comment goes over it, or nothing
but blanks stands between a line comment and the place, on the same line. -/
def Passed (document : List Char) (pos i : Nat) : Prop :=
  (∃ c, document[i]? = some c ∧ isPad c = true) ∨
  (∃ span ∈ scan document, span.kind.isComment = true ∧ pos ≤ span.start ∧
    span.start ≤ i ∧ i < span.stop) ∨
  ∃ span ∈ scan document, span.kind = .lineComment ∧ pos ≤ span.start ∧ span.stop ≤ i ∧
    ∀ j, span.stop ≤ j → j ≤ i → ∃ c, document[j]? = some c ∧ isBlank c = true ∧ c ≠ '\n'

/-- Nothing but spaces, tabs and comments follows offset `pos`, and other blanks only behind a line
comment, up to a line feed outside literals, or up to the end of the text if a comment is among
them. -/
def EndsItsLine (document : List Char) (pos : Nat) : Prop :=
  ∃ stop, pos ≤ stop ∧ (∀ i, pos ≤ i → i < stop → Passed document pos i) ∧
    (document[stop]? = some '\n' ∧ isProtected (scan document).toArray stop = false ∨
      stop = document.length ∧ ∃ span ∈ scan document, span.kind.isComment = true ∧
      pos ≤ span.start)

theorem ne_feed_of_isPad {c : Char} (h : isPad c = true) : c ≠ '\n' := by
  rintro rfl
  exact absurd h (by decide)

section

variable {cells left block right : List Cell} {pos : Nat}

theorem exists_getElem?_block (hcells : cells = left ++ (block ++ right)) {i : Nat}
    (hle : left.length ≤ i) (hlt : i < (left ++ block).length) :
    ∃ c ∈ chars block, (chars cells)[i]? = some c := by
  rw [length_append] at hlt
  have hget : i - left.length < (chars block).length := by
    rw [length_chars]
    omega
  refine ⟨_, getElem_mem hget, ?_⟩
  rw [hcells, chars_append, chars_append, getElem?_append_right (by rwa [length_chars]),
    length_chars, getElem?_append_left hget, getElem?_eq_getElem hget]

theorem passed_pads (hcells : cells = left ++ (block ++ right))
    (hpads : ∀ c ∈ chars block, isPad c = true)
    (hpassed : ∀ i, pos ≤ i → i < left.length → Passed (chars cells) pos i) :
    ∀ i, pos ≤ i → i < (left ++ block).length → Passed (chars cells) pos i := by
  intro i hpos hi
  by_cases hlt : i < left.length
  · exact hpassed i hpos hlt
  · obtain ⟨c, hmem, hc⟩ := exists_getElem?_block hcells (Nat.le_of_not_lt hlt) hi
    exact .inl ⟨c, hc, hpads c hmem⟩

/-- Behind a line comment all blanks pass, up to the end of the line. -/
theorem passed_trailing {start : Nat} (hcells : cells = left ++ (block ++ right))
    (hspan : ⟨start, left.length, .lineComment⟩ ∈ scan (chars cells)) (hstart : pos ≤ start)
    (hblanks : ∀ c ∈ chars block, isBlank c = true ∧ c ≠ '\n')
    (hpassed : ∀ i, pos ≤ i → i < left.length → Passed (chars cells) pos i) :
    ∀ i, pos ≤ i → i < (left ++ block).length → Passed (chars cells) pos i := by
  intro i hpos hi
  by_cases hlt : i < left.length
  · exact hpassed i hpos hlt
  · refine .inr (.inr ⟨_, hspan, rfl, hstart, Nat.le_of_not_lt hlt, fun j hj hji => ?_⟩)
    obtain ⟨c, hmem, hc⟩ := exists_getElem?_block hcells hj (Nat.lt_of_le_of_lt hji hi)
    exact ⟨c, hc, hblanks c hmem⟩

variable (hmarked : Marked recognize [] cells)
include hmarked

theorem mem_scan_of_literalCells {kind : Kind} {c : Char} {body : List Char}
    (hcells : cells = left ++ (literalCells kind c body ++ right))
    (hright : ∀ cell ∈ right.head?, cell.isInside = false) :
    ⟨left.length, (left ++ literalCells kind c body).length, kind⟩ ∈ scan (chars cells) := by
  rw [hmarked.scan_eq, hcells, spansFrom_append (by rintro cell ⟨⟩; rfl),
    spansFrom_literalCells hright, Nat.zero_add, length_append, length_literalCells]
  exact mem_append_right _ mem_cons_self

/-- Blanks up to the end of a line end it. -/
theorem endsItsLine_of_blanks (hcells : cells = left ++ (block ++ right))
    (hhead : ∀ cell ∈ (block ++ right).head?, cell.isInside = false)
    (hblanks : ∀ c ∈ chars block, isBlank c = true)
    (hright : ∀ cell ∈ right.head?, cell.char = '\n') (hpos : pos ≤ left.length)
    (hpassed : ∀ i, pos ≤ i → i < (left ++ block).length → Passed (chars cells) pos i)
    (hend : right = [] →
      ∃ span ∈ scan (chars cells), span.kind.isComment = true ∧ pos ≤ span.start) :
    EndsItsLine (chars cells) pos := by
  refine ⟨(left ++ block).length, by rw [length_append]; omega, hpassed, ?_⟩
  cases right with
  | nil => exact .inr ⟨by rw [hcells, append_nil, length_chars], hend rfl⟩
  | cons cell right =>
    have hmarked' := hmarked.of_append hcells hhead
    rw [hmarked'.codeCells_of_isBlank hblanks] at hmarked'
    have hchar := hright cell rfl
    have hfeed := @Marked.codeCells_of_isBlank _ [cell] right
      (hmarked'.of_append rfl hmarked'.head?_of_codeCells) (by simp [hchar]; decide)
    have hcell : cells[(left ++ block).length]? = some cell := by
      rw [hcells, ← append_assoc, getElem?_append_right (Nat.le_refl _), Nat.sub_self]
      rfl
    refine .inl ⟨?_, ?_⟩
    · rw [chars, getElem?_map, hcell, Option.map_some, hchar]
    · rw [hmarked.scan_eq, hmarked.isProtected_eq_false_iff hcell]
      exact congrArg Cell.role (cons_eq_cons.mp hfeed).1

/-- A comment behind spaces and tabs passes. -/
theorem passed_comment {pads body : List Char} {kind : Kind} {c : Char}
    (hpads : ∀ d ∈ pads, isPad d = true) (hkind : kind.isComment = true)
    (hcells : cells = left ++ (codeCells pads ++ (literalCells kind c body ++ right)))
    (hright : ∀ cell ∈ right.head?, cell.isInside = false) (hpos : pos ≤ left.length)
    (hpassed : ∀ i, pos ≤ i → i < left.length → Passed (chars cells) pos i) :
    (∀ i, pos ≤ i → i < (left ++ codeCells pads ++ literalCells kind c body).length →
        Passed (chars cells) pos i) ∧
      ∃ start, pos ≤ start ∧
        ⟨start, (left ++ codeCells pads ++ literalCells kind c body).length, kind⟩ ∈
          scan (chars cells) := by
  have hsplit : cells = (left ++ codeCells pads) ++ (literalCells kind c body ++ right) := by
    rw [hcells, append_assoc]
  have hspan := mem_scan_of_literalCells hmarked hsplit hright
  have hstart : pos ≤ (left ++ codeCells pads).length := by
    rw [length_append]
    omega
  refine ⟨fun i hle hlt => ?_, _, hstart, hspan⟩
  by_cases hi : i < (left ++ codeCells pads).length
  · exact passed_pads hcells (by rwa [chars_codeCells]) hpassed i hle hi
  · exact .inr (.inl ⟨_, hspan, hkind, hstart, Nat.le_of_not_lt hi, hlt⟩)

/-- Where a line ends with spaces, tabs and comments, it ends in the text. -/
theorem Clear.endsItsLine {afterComment : Bool} (h : Clear afterComment right) :
    ∀ left, cells = left ++ right → pos ≤ left.length →
      (∀ i, pos ≤ i → i < left.length → Passed (chars cells) pos i) →
      (afterComment = true →
        ∃ span ∈ scan (chars cells), span.kind.isComment = true ∧ pos ≤ span.start) →
      EndsItsLine (chars cells) pos := by
  have hhead := h.head?_not_inside
  induction h with
  | @atEnd pads hpads =>
    intro left hcells hpos hpassed hcomment
    rw [← append_nil (codeCells pads)] at hcells hhead
    have hpads' : ∀ c ∈ chars (codeCells pads), isPad c = true := by rwa [chars_codeCells]
    exact endsItsLine_of_blanks hmarked hcells hhead (fun c hc => isBlank_of_isPad (hpads' c hc))
      (by rintro cell ⟨⟩) hpos (passed_pads hcells hpads' hpassed) fun _ => hcomment rfl
  | @atFeed _ pads rest hpads =>
    intro left hcells hpos hpassed _
    have hpads' : ∀ c ∈ chars (codeCells pads), isPad c = true := by rwa [chars_codeCells]
    exact endsItsLine_of_blanks hmarked hcells hhead (fun c hc => isBlank_of_isPad (hpads' c hc))
      (by rintro cell ⟨⟩; rfl) hpos (passed_pads hcells hpads' hpassed)
      fun hnil => absurd hnil (cons_ne_nil _ _)
  | @lineComment _ pads body c rest hpads hrest =>
    intro left hcells hpos hpassed _
    obtain ⟨hpassed', start, hstart, hspan⟩ :=
      passed_comment hmarked hpads rfl hcells hrest hpos hpassed
    rw [← append_assoc] at hcells
    have hblank := blankToLineEnd_of_literalAt
      ((hmarked.of_append hcells (by rintro cell ⟨⟩; rfl)).literal_inv hrest).1
    -- The comment has no blanks at its end: they stand between it and the line feed.
    obtain ⟨blanks, tail, rfl, hblanks, htail⟩ :=
      chars_eq_append (takeWhile_append_dropWhile (p := (· != '\n')) (l := chars rest)).symm
    have hblanks' : ∀ d ∈ chars blanks, isBlank d = true ∧ d ≠ '\n' := by
      rw [hblanks]
      exact fun d hd => ⟨hblank d hd, by simpa using mem_takeWhile_imp hd⟩
    rw [← append_assoc] at hcells
    refine endsItsLine_of_blanks hmarked hcells hrest (fun d hd => (hblanks' d hd).1) ?_ ?_
      (passed_trailing hcells hspan hstart hblanks' hpassed') fun _ => ⟨_, hspan, rfl, hstart⟩
    · rintro cell hcell
      have := head?_dropWhile_not (· != '\n') (chars (blanks ++ tail))
      rw [← htail, chars, head?_map, hcell] at this
      simpa using this
    · rw [length_append, length_append]
      omega
  | @comment _ pads body kind c rest hpads hkind _ hrest ih =>
    intro left hcells hpos hpassed _
    obtain ⟨hpassed', start, hstart, hspan⟩ :=
      passed_comment hmarked hpads hkind hcells hrest.head?_not_inside hpos hpassed
    refine ih hrest.head?_not_inside _ (by simp [hcells]) ?_ hpassed'
      fun _ => ⟨_, hspan, hkind, hstart⟩
    rw [length_append, length_append]
    omega

end

/-- Line breaks are put in outside literals. Behind the end of each block the line ends, at most
blanks and comments later, and a text with its breaks stays as it is. -/
theorem breakBlocks_endsLines (text : List Char) :
    (∃ pieces, pieces.flatten = text ∧ joinLines pieces = breakBlocks text ∧
      ∀ first later, pieces = first ++ later → ∀ span ∈ scan text,
        ¬ (span.start < first.flatten.length ∧ first.flatten.length < span.stop)) ∧
    (∀ found ∈ occurrences findEnd (breakBlocks text),
      isProtected (scan (breakBlocks text)).toArray found.start = false →
        EndsItsLine (breakBlocks text) found.stop) ∧
    breakBlocks (breakBlocks text) = breakBlocks text := by
  obtain ⟨cells, rfl, hmarked⟩ := exists_marked_recognize text
  obtain ⟨hout, hchars⟩ := fed_breakPoints hmarked
  refine ⟨?_, ?_, ?_⟩
  · obtain ⟨pieces, hflatten, -, hjoin, hplaces⟩ :=
      exists_pieces (breakPoints (chars cells)) 0 (chars cells) (breakPoints_sorted hmarked)
        fun cut hcut => ⟨Nat.zero_le cut, by
          rw [Nat.zero_add, length_chars]
          exact (insertable_of_mem_breakPoints hmarked hcut).1.le_length⟩
    refine ⟨pieces, hflatten, hjoin.symm, fun first later hsplit span hspan hbetween => ?_⟩
    rw [hmarked.scan_eq] at hspan
    rcases hplaces first later hsplit with rfl | rfl | hmem
    · exact Nat.not_lt_zero _ hbetween.1
    · rw [append_nil] at hsplit
      have := stop_le_of_mem_spansFrom 0 hspan
      rw [← hsplit, hflatten, length_chars] at hbetween
      omega
    · rw [Nat.zero_add] at hmem
      exact (insertable_of_mem_breakPoints hmarked hmem).1.not_between span hspan hbetween
  · rw [← hchars, hout.scan_eq]
    intro found hfound hfree
    obtain ⟨before, block, right, hcells, hstop, hend⟩ := exists_isEnd hout hfound hfree
    rw [hstop]
    exact (clear_of_isEnd hmarked hcells hend).endsItsLine
      hout _ (by rw [hcells, append_assoc])
      (Nat.le_refl _) (fun i hle hlt => absurd hlt (Nat.not_lt.mpr hle)) nofun
  · rw [breakBlocks, breakPoints_breakBlocks]
    rfl

end LineBreak

end StructuredText
