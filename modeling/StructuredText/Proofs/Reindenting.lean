import StructuredText.Proofs.LineContents

/-!
# Indentation and the blanks around lines

Indentation depends on the contents of lines only. The blanks at the start of a line that starts
outside all literals can be changed, and those at its end that are in no literal, without any effect
on the indented text. Offsets of lines and of literals shift by this, so that the texts are compared
line by line.

Results:
1. `Reblanked.startAlike`: texts whose lines have other blanks around them agree in their cells.
2. `Indentation.apply_reblanked`: such texts are indented alike. A second indentation changes
   nothing, and lines that start inside a literal are kept.
3. `Indentation.apply_open_literal`: blanks put on an empty last line fall inside a literal that is
   still open there.
-/

namespace StructuredText

open List Literal

/-- A line that starts inside a literal. -/
def Carried (spans : List Span) (start : Nat) : Prop :=
  ∃ span ∈ spans, span.start < start ∧ start < span.stop

instance (spans : List Span) (start : Nat) : Decidable (Carried spans start) :=
  inferInstanceAs (Decidable (∃ span ∈ spans, span.start < start ∧ start < span.stop))

instance (text : List Char) : Decidable (LineBlanks text) :=
  inferInstanceAs (Decidable (∀ c ∈ text, isBlank c = true ∧ c ≠ '\n'))

/-- Lines of two texts, from the offsets `start` and `start'` on, in texts with the literals `spans`
and `spans'`. A line that starts inside a literal is kept. On the other lines the blanks at the
start and those at the end that are in no literal may differ. -/
inductive Reblanked (spans spans' : List Span) :
    Nat → Nat → List (List Char) → List (List Char) → Prop
  | nil {start start' : Nat} : Reblanked spans spans' start start' [] []
  | carried {start start' : Nat} {line : List Char} {others others' : List (List Char)} :
      Carried spans start →
      Reblanked spans spans' (start + line.length + 1) (start' + line.length + 1) others others' →
      Reblanked spans spans' start start' (line :: others) (line :: others')
  | free {start start' : Nat} {gap gap' content trailing trailing' : List Char}
      {others others' : List (List Char)} :
      ¬ Carried spans start →
      LineBlanks gap → LineBlanks gap' → LineBlanks trailing → LineBlanks trailing' →
      Uncovered spans' start' gap'.length →
      Uncovered spans (start + (gap ++ content).length) trailing.length →
      Uncovered spans' (start' + (gap' ++ content).length) trailing'.length →
      Reblanked spans spans' (start + (gap ++ content ++ trailing).length + 1)
        (start' + (gap' ++ content ++ trailing').length + 1) others others' →
      Reblanked spans spans' start start' ((gap ++ content ++ trailing) :: others)
        ((gap' ++ content ++ trailing') :: others')

/-! ## From lines to cells -/

/-- The lines that follow the end of a line. -/
def LinesBehind (tail : List Cell) (others : List (List Char)) : Prop :=
  tail = [] ∧ others = [] ∨
    ∃ ending rest, tail = ending :: rest ∧ ending.char = '\n' ∧ lines (chars rest) = others

variable {cells content content' rest tail left cells' : List Cell} {free : Bool}

/-- Cells are split where their lines are. -/
theorem exists_lineCells {line : List Char} {others : List (List Char)}
    (h : lines (chars cells) = line :: others) :
    ∃ first tail, cells = first ++ tail ∧ chars first = line ∧ '\n' ∉ line ∧
      LinesBehind tail others := by
  rcases exists_line (chars cells) with hflat | ⟨start, text, hstart, htext⟩
  · rw [lines_of_not_mem hflat] at h
    obtain ⟨rfl, rfl⟩ := cons_eq_cons.mp h
    exact ⟨cells, [], by simp, rfl, hflat, .inl ⟨rfl, rfl⟩⟩
  · obtain ⟨first, behind, rfl, rfl, hbehind⟩ := chars_eq_append htext
    obtain ⟨ending, rest, rfl⟩ : ∃ ending rest, behind = ending :: rest :=
      exists_cons_of_ne_nil (by rintro rfl; cases hbehind)
    obtain ⟨hfeed, rfl⟩ := cons_eq_cons.mp hbehind
    rw [htext, lines_append hstart] at h
    obtain ⟨rfl, rfl⟩ := cons_eq_cons.mp h
    exact ⟨first, ending :: rest, rfl, rfl, hstart, .inr ⟨ending, rest, rfl, hfeed, rfl⟩⟩

/-- Two texts from the starts of lines on. -/
def StartAlike (cells cells' : List Cell) : Prop :=
  ∃ free gap gap' rest rest', cells = codeCells gap ++ rest ∧ cells' = codeCells gap' ++ rest' ∧
    LineBlanks gap ∧ LineBlanks gap' ∧ (free = false → gap = gap') ∧
    (free = true → ∀ cell ∈ cells.head?, cell.isInside = false) ∧ Reblank SameChar free rest rest'

/-- Two texts from the ends of lines on. -/
def EndAlike (tail tail' : List Cell) : Prop :=
  tail = [] ∧ tail' = [] ∨
    ∃ ending rest ending' rest', tail = ending :: rest ∧ tail' = ending' :: rest' ∧
      ending.char = '\n' ∧ ending'.char = '\n' ∧ StartAlike rest rest'

theorem Reblank.keeps {rest' : List Cell} (hchars : chars content = chars content')
    (hflat : '\n' ∉ chars content) (h : Reblank SameChar free rest rest') :
    Reblank SameChar free (content ++ rest) (content' ++ rest') := by
  induction content generalizing content' with
  | nil =>
    obtain rfl : content' = [] := map_eq_nil_iff.mp hchars.symm
    exact h
  | cons cell content ih =>
    obtain ⟨cell', content', rfl⟩ : ∃ cell' others, content' = cell' :: others :=
      exists_cons_of_ne_nil (by rintro rfl; cases hchars)
    rw [chars_cons, chars_cons] at hchars
    obtain ⟨hcell, hchars⟩ := cons_eq_cons.mp hchars
    rw [chars_cons, mem_cons, not_or] at hflat
    exact .keep hcell (Ne.symm hflat.1) (ih hchars hflat.2)

/-- Two lines of the same content, and what follows them. -/
theorem EndAlike.reblank {trailing trailing' : List Char} {tail' : List Cell}
    (h : EndAlike tail tail') (hchars : chars content = chars content')
    (hflat : '\n' ∉ chars content) (htrailing : LineBlanks trailing)
    (htrailing' : LineBlanks trailing') (hkept : free = false → trailing = trailing') :
    Reblank SameChar free (content ++ (codeCells trailing ++ tail))
      (content' ++ (codeCells trailing' ++ tail')) := by
  refine .keeps hchars hflat ?_
  obtain ⟨rfl, rfl⟩ | ⟨ending, _, ending', _, rfl, rfl, hfeed, hfeed', hstart⟩ := h
  · rw [append_nil, append_nil]
    exact .finish htrailing htrailing' hkept
  · obtain ⟨free', gap, gap', rest, rest', rfl, rfl, hgap, hgap', hfree, hhead, hrest⟩ := hstart
    exact .next htrailing htrailing' hkept (hfeed.trans hfeed'.symm) hfeed hgap hgap'
      hfree hhead hrest

/-- What is in no literal belongs to the code. -/
theorem Marked.codeCells_of_uncovered {cells left first right : List Cell} {start : Nat}
    (h : Marked recognize [] cells) (hcells : cells = left ++ (first ++ right))
    (hstart : left.length = start)
    (huncovered : Uncovered (spansFrom 0 cells) start (chars first).length) :
    first = codeCells (chars first) := by
  refine (codeCells_chars fun cell hcell => ?_).symm
  obtain ⟨i, hi, rfl⟩ := mem_iff_getElem.mp hcell
  have hat : cells[start + i]? = some first[i] := by
    rw [hcells, ← hstart, getElem?_append_right (Nat.le_add_right _ _),
      Nat.add_sub_cancel_left, getElem?_append_left hi, getElem?_eq_getElem hi]
  by_contra hrole
  obtain ⟨span, hmem, hspan⟩ := (h.covered_iff_role hat).mpr hrole
  exact huncovered i (by rwa [length_chars]) span hmem hspan

theorem Marked.head?_of_not_carried (h : Marked recognize [] (left ++ rest))
    (hnot : ¬ Carried (spansFrom 0 (left ++ rest)) left.length) :
    ∀ cell ∈ rest.head?, cell.isInside = false := by
  intro cell hcell
  by_contra hinside
  exact hnot (h.exists_span_of_inside hcell (by simpa using hinside))

theorem Reblanked.length_eq {spans spans' : List Span} {start start' : Nat}
    {texts texts' : List (List Char)} (h : Reblanked spans spans' start start' texts texts') :
    texts.length = texts'.length := by
  induction h with
  | nil => rfl
  | carried _ _ ih | free _ _ _ _ _ _ _ _ _ ih => rw [length_cons, length_cons, ih]

/-- The ends of two lines, where the lines behind them start alike. -/
theorem LinesBehind.endAlike {left left' first first' tail tail' : List Cell}
    {others others' : List (List Char)} (h : LinesBehind tail others)
    (h' : LinesBehind tail' others')
    (hlength : others.length = others'.length)
    (hlater : ∀ {start start' rest rest' : List Cell}, left ++ (first ++ tail) = start ++ rest →
      left' ++ (first' ++ tail') = start' ++ rest' →
      start.length = left.length + (chars first).length + 1 →
      start'.length = left'.length + (chars first').length + 1 →
      lines (chars rest) = others → lines (chars rest') = others' → StartAlike rest rest') :
    EndAlike tail tail' := by
  obtain ⟨rfl, rfl⟩ | ⟨ending, rest, rfl, hfeed, rfl⟩ := h
  · obtain ⟨rfl, -⟩ | ⟨_, rest', -, -, rfl⟩ := h'
    · exact .inl ⟨rfl, rfl⟩
    · exact absurd (length_eq_zero_iff.mp hlength.symm) (lines_ne_nil _)
  · obtain ⟨-, rfl⟩ | ⟨ending', rest', rfl, hfeed', rfl⟩ := h'
    · exact absurd (length_eq_zero_iff.mp hlength) (lines_ne_nil _)
    · refine .inr ⟨ending, rest, ending', rest', rfl, rfl, hfeed, hfeed', ?_⟩
      exact @hlater (left ++ (first ++ [ending])) (left' ++ (first' ++ [ending'])) rest rest'
        (by simp) (by simp) (by simp [Nat.add_assoc]) (by simp [Nat.add_assoc]) rfl rfl

/-- Texts whose lines have other blanks around them agree in their cells, from line to line. -/
theorem Reblanked.startAlike {cells cells' : List Cell} (hmarked : Marked recognize [] cells)
    (hmarked' : Marked recognize [] cells') {start start' : Nat} {texts texts' : List (List Char)}
    (h : Reblanked (spansFrom 0 cells) (spansFrom 0 cells') start start' texts texts') :
    ∀ {left left' rest rest' : List Cell}, cells = left ++ rest → cells' = left' ++ rest' →
      left.length = start → left'.length = start' → lines (chars rest) = texts →
      lines (chars rest') = texts' → StartAlike rest rest' := by
  induction h with
  | nil => exact fun _ _ _ _ hlines _ => absurd hlines (lines_ne_nil _)
  | carried _ hlater ih =>
    rintro left left' rest rest' rfl rfl rfl rfl hlines hlines'
    obtain ⟨first, tail, rfl, rfl, hflat, hbehind⟩ := exists_lineCells hlines
    obtain ⟨first', tail', rfl, hfirst, -, hbehind'⟩ := exists_lineCells hlines'
    have hend := @LinesBehind.endAlike left left' first first' _ _ _ _ hbehind hbehind'
      hlater.length_eq (by rw [hfirst]; exact ih)
    refine ⟨false, [], [], _, _, rfl, rfl, lineBlanks_nil, lineBlanks_nil, fun _ => rfl, nofun, ?_⟩
    exact hend.reblank hfirst.symm hflat lineBlanks_nil lineBlanks_nil fun _ => rfl
  | @free _ _ gap gap' content trailing trailing' others others' hnot hgap hgap'
      htrailing htrailing' hleading hends hends' hlater ih =>
    rintro left left' rest rest' rfl rfl rfl rfl hlines hlines'
    obtain ⟨first, tail, rfl, hfirst, hflat, hbehind⟩ := exists_lineCells hlines
    obtain ⟨first', tail', rfl, hfirst', -, hbehind'⟩ := exists_lineCells hlines'
    rw [← hfirst, ← hfirst'] at ih
    have hend := @LinesBehind.endAlike left left' first first' _ _ _ _ hbehind hbehind'
      hlater.length_eq ih
    have hhead := hmarked.head?_of_not_carried hnot
    obtain ⟨_, ending, rfl, hline, rfl⟩ := chars_eq_append hfirst
    obtain ⟨opening, middle, rfl, rfl, rfl⟩ := chars_eq_append hline
    obtain ⟨_, ending', rfl, hline', rfl⟩ := chars_eq_append hfirst'
    obtain ⟨opening', middle', rfl, rfl, hmiddle⟩ := chars_eq_append hline'
    have hopening : opening = codeCells (chars opening) := by
      have hlater := hmarked.of_append rfl hhead
      rw [append_assoc, append_assoc] at hlater
      exact hlater.codeCells_of_isBlank fun c hc => (hgap c hc).1
    have hopening' := @Marked.codeCells_of_uncovered _ left' opening' (middle' ++
      (ending' ++ tail')) _ hmarked' (by simp) rfl hleading
    have hending := @Marked.codeCells_of_uncovered _ (left ++ (opening ++ middle)) ending tail _
      hmarked (by simp) (by simp) hends
    have hending' := @Marked.codeCells_of_uncovered _ (left' ++ (opening' ++ middle'))
      ending' tail' _ hmarked' (by simp) (by simp [← hmiddle]) hends'
    refine ⟨true, chars opening, chars opening', middle ++ (ending ++ tail),
      middle' ++ (ending' ++ tail'),
      by rw [← hopening]; simp, by rw [← hopening']; simp, hgap, hgap', nofun, fun _ => hhead, ?_⟩
    rw [hending, hending']
    exact hend.reblank hmiddle.symm (by simp at hflat; exact hflat.2.1) htrailing htrailing' nofun

theorem StartAlike.sameLines (h : StartAlike cells cells') (hmarked : Marked recognize [] cells)
    (hmarked' : Marked recognize [] cells') :
    SameLines cells cells' := by
  obtain ⟨free, gap, gap', rest, rest', rfl, rfl, hgap, hgap', hfree, hhead, hrest⟩ := h
  have hagree := hrest.agree rest.length rfl hmarked.of_codeCells hmarked'.of_codeCells
  refine hagree.sameLines (by simpa using hgap.feed_not_mem) (by simpa using hgap'.feed_not_mem) ?_
  cases free with
  | false => rw [Begun, hfree rfl]
  | true => exact ⟨gap, gap', [], hgap, hgap', by simp, by simp, hhead rfl⟩

/-! ## Lines that are kept -/

theorem SameLines.length_lines (h : SameLines cells cells') :
    (lines (chars cells')).length = (lines (chars cells)).length := by
  induction h with
  | last hline hline' _ => rw [lines_of_not_mem hline, lines_of_not_mem hline']; rfl
  | next hline hline' hfeed _ _ ih =>
    rw [chars_append, chars_cons, hfeed, lines_append hline', chars_append, chars_cons, hfeed,
      lines_append hline, length_cons, length_cons, ih]

/-- A line that starts inside a literal is the same in both texts. -/
theorem SameLine.eq_of_carried {line line' : List Cell} (h : SameLine tail line line')
    (hmarked : Marked recognize [] cells) (hcells : cells = left ++ (line ++ tail))
    (hcarried : Carried (spansFrom 0 cells) left.length) : line' = line := by
  cases h with
  | carried _ => rfl
  | placed _ _ _ _ hhead =>
    obtain ⟨span, hmem, hstart, hstop⟩ := hcarried
    have hfound : (spanAt (spansFrom 0 cells).toArray left.length).filter (·.start < left.length) =
        some span := by
      rw [(spanAt_eq_some_iff (spansFrom_ordered cells 0)).mpr ⟨hmem, by omega, by omega⟩]
      simpa using hstart
    obtain ⟨cell, hcell, hinside⟩ := Indentation.inside_of_filter_spanAt hmarked hcells hfound
    rw [hhead cell hcell] at hinside
    cases hinside

/-- The length of lines with their line feeds. -/
def linesLength (texts : List (List Char)) : Nat :=
  (texts.flatMap fun line => line ++ ['\n']).length

theorem SameLines.getElem?_of_carried {cells : List Cell} (hmarked : Marked recognize [] cells)
    {rest rest' : List Cell} (h : SameLines rest rest') :
    ∀ {left : List Cell} {first : List (List Char)} {line : List Char} {later : List (List Char)},
      cells = left ++ rest → lines (chars rest) = first ++ line :: later →
      Carried (spansFrom 0 cells) (left.length + linesLength first) →
      (lines (chars rest'))[first.length]? = some line := by
  induction h with
  | last hline hline' hsame =>
    intro left first line later hcells hlines hcarried
    rw [lines_of_not_mem hline] at hlines
    cases first with
    | nil =>
      obtain ⟨rfl, -⟩ := cons_eq_cons.mp hlines
      rw [hsame.eq_of_carried hmarked (by rw [hcells, append_nil]) hcarried,
        lines_of_not_mem hline]
      rfl
    | cons other first =>
      obtain ⟨-, hnil⟩ := cons_eq_cons.mp hlines
      exact absurd hnil.symm (by simp)
  | @next start start' rest rest' ending hline hline' hfeed hsame _ ih =>
    intro left first line later hcells hlines hcarried
    rw [chars_append, chars_cons, hfeed, lines_append hline] at hlines
    rw [chars_append, chars_cons, hfeed, lines_append hline']
    cases first with
    | nil =>
      obtain ⟨rfl, -⟩ := cons_eq_cons.mp hlines
      rw [hsame.eq_of_carried hmarked hcells hcarried]
      rfl
    | cons other first =>
      obtain ⟨rfl, hlater⟩ := cons_eq_cons.mp hlines
      refine @ih (left ++ (start ++ [ending])) first line later (by simp [hcells]) hlater ?_
      have hlength : (left ++ (start ++ [ending])).length + linesLength first =
          left.length + linesLength (chars start :: first) := by
        simp [linesLength]
        omega
      rwa [hlength]

namespace Indentation

/-- Texts that differ in the blanks around their lines are indented alike, with the same levels. A
second indentation changes nothing. The number of lines is kept, and so is each line that starts
inside a literal. -/
theorem apply_reblanked (text : List Char) :
    (∀ text', Reblanked (Literal.scan text) (Literal.scan text') 0 0 (lines text) (lines text') →
      apply text' = apply text ∧ levels text' = levels text) ∧
    apply (apply text) = apply text ∧
    (lines (apply text)).length = (lines text).length ∧
    ∀ first line later, lines text = first ++ line :: later →
      Carried (Literal.scan text) (linesLength first) →
      (lines (apply text))[first.length]? = some line := by
  obtain ⟨cells, rfl, hmarked⟩ := exists_marked_recognize text
  obtain ⟨out, hout, hmoves, hrelined⟩ := exists_indented hmarked
  have hsame := hrelined.sameLines
  refine ⟨fun text' h => ?_, ?_, ?_, fun first line later hlines hcarried => ?_⟩
  · obtain ⟨cells', rfl, hmarked'⟩ := exists_marked_recognize text'
    rw [hmarked.scan_eq, hmarked'.scan_eq] at h
    have hstart := @Reblanked.startAlike cells cells' hmarked hmarked' _ _ _ _ h [] [] cells cells'
      rfl rfl rfl rfl rfl rfl
    have hscan := (hstart.sameLines hmarked hmarked').scan_eq hmarked hmarked'
    exact ⟨by rw [apply, apply, hscan], by rw [levels, levels, hscan]⟩
  · have hscan := hsame.scan_eq hmarked (hmoves.marked hmarked)
    rw [← hout, apply, ← hscan, ← apply, hout]
  · rw [← hout, hsame.length_lines]
  · rw [hmarked.scan_eq] at hcarried
    rw [← hout]
    exact @SameLines.getElem?_of_carried cells hmarked cells out hsame []
      first line later rfl hlines (by simpa using hcarried)

/-- The third line starts inside a string and is kept, also the blanks at its end. -/
theorem apply_reblanked_string :
    let text := "if a then\n b := 'x\n y';  \n\tend_if ".toList
    let text' := "   if a then \nb := 'x\n y';  \nend_if".toList
    Reblanked (Literal.scan text) (Literal.scan text') 0 0 (lines text) (lines text') ∧
      apply text' = apply text ∧ Carried (Literal.scan text) 19 ∧
      (lines (apply text))[2]? = some " y';  ".toList := by
  intro text text'
  have hspans : Literal.scan text = [⟨16, 22, .string⟩] := by decide +kernel
  have hspans' : Literal.scan text' = [⟨19, 25, .string⟩] := by decide +kernel
  have hlines : lines text = ["if a then".toList, " b := 'x".toList, " y';  ".toList,
      "\tend_if ".toList] := by decide +kernel
  have hlines' : lines text' = ["   if a then ".toList, "b := 'x".toList, " y';  ".toList,
      "end_if".toList] := by decide +kernel
  have hcarried : Carried (Literal.scan text) 19 := by decide +kernel
  have hrelated :
      Reblanked (Literal.scan text) (Literal.scan text') 0 0 (lines text) (lines text') := by
    rw [hspans, hspans', hlines, hlines']
    refine @Reblanked.free _ _ 0 0 [] "   ".toList "if a then".toList [] " ".toList _ _ (by decide)
      (by decide) (by decide) (by decide) (by decide) (by decide) (by decide) (by decide) ?_
    refine @Reblanked.free _ _ 10 14 " ".toList [] "b := 'x".toList [] [] _ _ (by decide)
      (by decide) (by decide) (by decide) (by decide) (by decide) (by decide) (by decide) ?_
    refine .carried (by decide) ?_
    exact @Reblanked.free _ _ 26 29 "\t".toList [] "end_if".toList " ".toList [] [] [] (by decide)
      (by decide) (by decide) (by decide) (by decide) (by decide) (by decide) (by decide) .nil
  obtain ⟨halike, -, -, hkept⟩ := apply_reblanked text
  exact ⟨hrelated, (halike text' hrelated).1, hcarried,
    hkept ["if a then".toList, " b := 'x".toList] " y';  ".toList ["\tend_if ".toList]
    hlines hcarried⟩

/-- An empty last line starts inside no literal, but blanks put there belong to a string that is
still open. -/
theorem apply_open_literal :
    ¬ Carried (Literal.scan "'\n".toList) 2 ∧ lines "'\n".toList = ["'".toList, []] ∧
      lines "'\n ".toList = ["'".toList, " ".toList] ∧
      apply "'\n ".toList ≠ apply "'\n".toList := by
  decide +kernel

end Indentation

end StructuredText
