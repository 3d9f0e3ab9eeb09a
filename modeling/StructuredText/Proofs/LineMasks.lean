import StructuredText.Proofs.BlockDepth
import StructuredText.Proofs.Reindenting

/-!
# Masks of lines

A line is masked on its own before its kind is found, and of a line that starts inside a literal
only the part behind the literal is. A literal can be cut at the end of the line. Still the code
that is seen this way is the code of the whole text there.

Results:
1. `Marked.alone`: the literals of the rest of a line are found on it alone.
2. `Marked.mask_alone`, `Marked.ofLine_alone`: so its mask and its kind are those that it has in the
   text.
3. `Indentation.scan_masked`: indentation sees the code of the whole text.
-/

namespace StructuredText

open List Literal LineKind

/-- The kind of the stretch `[start, stop)` of a document, by the literals of the whole document. -/
def LineKind.inDocument (document : List Char) (start stop : Nat) : LineKind :=
  if startsWithComment (trim (slice document start stop)) then .comment
  else ofCode (trim (slice (mask document) start stop))

/-! ## The rest of a line on its own -/

section

variable {left line tail : List Cell}

/-- The literals of the rest of a line are found on it alone, if it does not start inside one. -/
theorem Marked.alone (h : Marked recognize [] (left ++ (line ++ tail)))
    (hhead : ∀ cell ∈ (line ++ tail).head?, cell.isInside = false) (htail : EndsLine (chars tail)) :
    Marked recognize [] line :=
  ((h.of_append rfl hhead).cut rfl htail.blankToLineEnd).rebase

theorem Marked.slice_mask (h : Marked recognize [] (left ++ (line ++ tail))) :
    slice (mask (chars (left ++ (line ++ tail)))) left.length (left.length + line.length) =
      line.map shade := by
  have hslice := slice_middle (left.map shade) (line.map shade) (tail.map shade)
  rwa [length_map, length_map, ← map_append, ← map_append,
    ← mask_eq h] at hslice

/-- The masked rest of a line is a part of the masked text. -/
theorem Marked.mask_alone (h : Marked recognize [] (left ++ (line ++ tail)))
    (hhead : ∀ cell ∈ (line ++ tail).head?, cell.isInside = false) (htail : EndsLine (chars tail)) :
    mask (chars line) =
      slice (mask (chars (left ++ (line ++ tail)))) left.length (left.length + line.length) := by
  rw [h.slice_mask, mask_eq (h.alone hhead htail)]

/-- What stands for a blank in the masked text is a blank. -/
theorem lineBlanks_shade {cells : List Cell} (hblank : ∀ cell ∈ cells, isBlank cell.char = true)
    (hline : '\n' ∉ chars cells) : LineBlanks (cells.map shade) := by
  intro c hc
  obtain ⟨cell, hcell, rfl⟩ := mem_map.mp hc
  have hfeed : cell.char ≠ '\n' := fun heq => hline (heq ▸ mem_map_of_mem hcell)
  rw [shade]
  split
  · exact ⟨hblank cell hcell, hfeed⟩
  · decide

/-- Whether a line is trimmed before it is masked makes no difference to its code. -/
theorem Marked.trim_mask (h : Marked recognize [] line) (hline : '\n' ∉ chars line) :
    trim (mask (trim (chars line))) = trim (mask (chars line)) := by
  have hwhole : Marked recognize [] (line ++ []) := by rwa [append_nil]
  obtain ⟨leading, content, trailing, hsplit, hblank, hblank', -, htrim, hcontent⟩ :=
    hwhole.exists_content (by rintro c ⟨⟩)
  rw [htrim, mask_eq hcontent, mask_eq h]
  subst hsplit
  simp only [chars_append, mem_append, not_or] at hline
  rw [map_append, map_append, Indentation.trim_blanks (lineBlanks_shade hblank hline.1)
    (lineBlanks_shade hblank' hline.2.2)]

/-- The kind of the rest of a line is known from the masked text. -/
theorem Marked.ofLine_alone (h : Marked recognize [] (left ++ (line ++ tail)))
    (hhead : ∀ cell ∈ (line ++ tail).head?, cell.isInside = false) (hline : '\n' ∉ chars line)
    (htail : EndsLine (chars tail)) :
    ofLine (chars line) =
      inDocument (chars (left ++ (line ++ tail))) left.length (left.length + line.length) := by
  have hslice := slice_middle (chars left) (chars line) (chars tail)
  simp only [length_chars, ← chars_append] at hslice
  rw [ofLine, inDocument, hslice, ← h.mask_alone hhead htail, (h.alone hhead htail).trim_mask hline]

end

/-! ## Lines of a document -/

namespace Indentation

/-- The depth before a line of a document, counted from zero. -/
def depthBefore (document : List Char) : Nat → Nat
  | 0 => 0
  | n + 1 => ((scan document)[n]?.map (·.depth)).getD 0

variable {first tail : List Cell} {spans : List Span} {start : Nat} {span : Span}

/-- The depth before a line is that behind the lines before it. -/
theorem depthBefore_count {rest : List Cell} (hmarked : Marked recognize [] (first ++ rest))
    (hfirst : StartsLine first) :
    depthBefore (chars (first ++ rest)) ((chars first).count '\n') = depthBehind 0 first := by
  rcases eq_nil_or_concat first with rfl | ⟨init, ending, rfl⟩
  · rfl
  rw [concat_eq_append] at hmarked hfirst ⊢
  have hfeed : ending.char = '\n' := hfirst _ (by simp [chars])
  obtain ⟨others, line, rfl, hothers, hline⟩ := exists_startsLine init
  have hcells : others ++ line ++ [ending] ++ rest = others ++ (line ++ ending :: rest) := by simp
  rw [hcells] at hmarked ⊢
  have hscan := scan_getElem? hmarked hothers hline (by rintro c ⟨⟩; exact hfeed)
  have hcount : (chars (others ++ line ++ [ending])).count '\n' = (chars others).count
      '\n' + 1 := by
    simp [count_eq_zero.mpr hline, hfeed]
  rw [hcount, depthBefore, hscan, Option.map_some, Option.getD_some, depth_place hmarked rfl,
    depthBehind_append_feed hfeed, depthBehind_append hothers, depthBehind_line hline]
  rfl

theorem kind_codeLine (depth : Nat) (content : List Char) :
    (codeLine depth content).kind = some (ofLine content) := by
  cases content with
  | nil | cons c content => rfl

/-- A line that does not start inside a literal is placed by its content. -/
theorem place_of_not_carried (ordered : Ordered spans) (h : ¬ Carried spans start) (depth : Nat)
    (line : List Char) :
    ∃ content, place spans.toArray start depth line = codeLine depth content ∧
      ofLine content = ofLine line := by
  have hnone : (spanAt spans.toArray start).filter (·.start < start) = none := by
    rw [Option.filter_eq_none_iff]
    intro span hspan hstart
    obtain ⟨hmem, -, hstop⟩ := (spanAt_eq_some_iff ordered).mp hspan
    exact h ⟨span, hmem, by simpa using hstart, by omega⟩
  refine ⟨_, by rw [place, hnone], ofLine_contentOf _ line⟩

/-- A line that starts inside a literal is kept. -/
theorem place_of_mem (ordered : Ordered spans) (hmem : span ∈ spans) (hstart : span.start < start)
    (hstop : start < span.stop) (depth : Nat) (line : List Char) :
    place spans.toArray start depth line = carriedLine (span.stop - start) depth line := by
  have hspan : spanAt spans.toArray start = some span :=
    (spanAt_eq_some_iff ordered).mpr ⟨hmem, by omega, by omega⟩
  rw [place, hspan, Option.filter_some, if_pos (by simpa using hstart)]

/-- A literal that ends on a line it does not start on leaves the rest of the line. -/
theorem exists_rest_of_line {middle : List Cell}
    (hmem : span ∈ spansFrom 0 (first ++ (middle ++ tail))) (hstart : span.start < first.length)
    (hstop : first.length < span.stop) (hends : span.stop < first.length + middle.length) :
    ∃ inner outer, middle = inner ++ outer ∧ span.stop = first.length + inner.length ∧
      ∀ cell ∈ (outer ++ tail).head?, cell.isInside = false := by
  have hstops := stop_of_mem_spansFrom 0 hmem (by omega) (by omega)
  have hrun : (middle ++ tail).takeWhile Cell.isInside = middle.takeWhile Cell.isInside := by
    rw [takeWhile_append]
    split
    next hall =>
      rw [takeWhile_append, if_pos hall, length_append] at hstops
      omega
    next => rfl
  rw [hrun, Nat.zero_add] at hstops
  refine ⟨_, _, (takeWhile_append_dropWhile (p := Cell.isInside) (l := middle)).symm,
    hstops, ?_⟩
  intro cell hcell
  have hnot := head?_dropWhile_not Cell.isInside middle
  cases hdrop : middle.dropWhile Cell.isInside with
  | nil =>
    have hlength :=
      congrArg List.length (takeWhile_append_dropWhile (p := Cell.isInside) (l := middle))
    rw [hdrop, append_nil] at hlength
    omega
  | cons other rest =>
    rw [hdrop] at hcell hnot
    cases hcell
    simpa using hnot

/-- What indentation makes of the line that starts at `start`: how its kind is shown, and the depth
behind it, which `kind` decides. -/
def Places (document : List Char) (start : Nat) (shown : Option LineKind) (kind : LineKind) :
    Prop :=
  let number := (document.take start).count '\n'
  ∃ placed, (scan document)[number]? = some placed ∧ placed.kind = shown ∧
    placed.depth = depthAfter kind (depthBefore document number)

/-- A line is placed by the depth behind the lines before it. -/
theorem places_of_place {line : List Cell} (hmarked : Marked recognize [] (first ++ (line ++ tail)))
    (hfirst : StartsLine first) (hline : '\n' ∉ chars line) (htail : EndsLine (chars tail))
    {shown : Option LineKind} {kind : LineKind}
    (h : ∀ depth, (place (spansFrom 0 (first ++ (line ++ tail))).toArray first.length depth
        (chars line)).kind = shown ∧
      (place (spansFrom 0 (first ++ (line ++ tail))).toArray
        first.length depth (chars line)).depth = depthAfter kind depth) :
    Places (chars (first ++ (line ++ tail))) first.length shown kind := by
  have hnumber : (chars (first ++ (line ++ tail))).take first.length = chars first := by
    rw [chars_append, ← length_chars first, take_left]
  rw [Places, hnumber, depthBefore_count hmarked hfirst]
  exact ⟨_, scan_getElem? hmarked hfirst hline htail, h _⟩

/-- The masked line is a part of the masked text, and so is the masked part behind a literal that
goes on from earlier lines. So the kind that moves the depth is the one found by the literals of the
whole text. -/
theorem scan_masked (text : List Char) (start : Nat) (line : List Char)
    (hline : LineAt text start line) :
    (¬ Carried (Literal.scan text) start →
      mask line = slice (mask text) start (start + line.length) ∧
      Places text start (some (inDocument text start (start + line.length)))
        (inDocument text start (start + line.length))) ∧
    ∀ span ∈ Literal.scan text, span.start < start → start < span.stop →
      span.stop < start + line.length →
      mask (slice text span.stop (start + line.length)) =
        slice (mask text) span.stop (start + line.length) ∧
      Places text start none (inDocument text span.stop (start + line.length)) := by
  obtain ⟨before, after, rfl, rfl, hflat, hbefore, hafter⟩ := hline
  obtain ⟨cells, hcells, hmarked⟩ := exists_marked_recognize (before ++ (line ++ after))
  obtain ⟨first, rest, rfl, rfl, hrest⟩ := chars_eq_append hcells
  obtain ⟨middle, tail, rfl, rfl, rfl⟩ := chars_eq_append hrest
  have hfirst : StartsLine first := fun c hc => hbefore c (by rwa [head?_reverse])
  have ordered := spansFrom_ordered (first ++ (middle ++ tail)) 0
  rw [← hcells, hmarked.scan_eq, length_chars, length_chars]
  constructor
  · intro hfree
    have hhead : ∀ cell ∈ (middle ++ tail).head?, cell.isInside = false := fun cell hcell =>
      Bool.eq_false_iff.mpr fun hinside => hfree (hmarked.exists_span_of_inside hcell hinside)
    refine ⟨hmarked.mask_alone hhead hafter,
      places_of_place hmarked hfirst hflat hafter fun depth => ?_⟩
    obtain ⟨content, hplace, hcontent⟩ := place_of_not_carried ordered hfree depth (chars middle)
    rw [hplace, kind_codeLine, depth_codeLine, hcontent, hmarked.ofLine_alone hhead hflat hafter]
    exact ⟨rfl, rfl⟩
  · intro span hspan hstart hstop hends
    obtain ⟨inner, outer, rfl, hstops, hhead⟩ := exists_rest_of_line hspan hstart hstop hends
    have hplaced : Places (chars (first ++ (inner ++ outer ++ tail))) first.length none
        (ofLine (chars outer)) := by
      refine places_of_place hmarked hfirst hflat hafter fun depth => ?_
      rw [place_of_mem ordered hspan hstart hstop, depth_carriedLine, hstops,
        Nat.add_sub_cancel_left, chars_append, ← length_chars inner, drop_left]
      exact ⟨rfl, rfl⟩
    -- The rest of the line is a line of its own, with the literal before it.
    have hsplit : first ++ (inner ++ outer ++ tail) = (first ++ inner) ++ (outer ++ tail) := by simp
    have hmarked' := hmarked
    rw [hsplit] at hmarked'
    have hkind := hmarked'.ofLine_alone hhead (fun hmem => hflat (by simp [hmem])) hafter
    have hmask := hmarked'.mask_alone hhead hafter
    have hslice := slice_middle (chars (first ++ inner)) (chars outer) (chars tail)
    rw [length_chars, length_chars, ← chars_append, ← chars_append, ← hsplit] at hslice
    have hlength : first.length + (inner ++ outer).length = (first ++ inner).length +
        outer.length := by
      simp [Nat.add_assoc]
    rw [← hsplit] at hkind hmask
    rw [hstops, ← length_append, hlength, hslice, ← hmask, ← hkind]
    exact ⟨rfl, hplaced⟩

/-- Behind a comment that goes on from the first line, the second line opens a block; the string
that it ends in is cut behind an escape sign. The first line and the part behind the comment are
masked as in the whole text. -/
theorem scan_masked_comment :
    let text := "(* a\n b *) IF '$\n';".toList
    mask "(* a".toList = slice (mask text) 0 4 ∧ Places text 0 (some .comment) .comment ∧
      mask " IF '$".toList = slice (mask text) 10 16 ∧ Places text 5 none .opener := by
  have hfirst := (scan_masked "(* a\n b *) IF '$\n';".toList 0 "(* a".toList
    ⟨[], "\n b *) IF '$\n';".toList, rfl, rfl, by decide, by rintro c ⟨⟩, by rintro c ⟨⟩; rfl⟩).1
    (by decide +kernel)
  have hsecond := (scan_masked "(* a\n b *) IF '$\n';".toList 5 " b *) IF '$".toList
    ⟨"(* a\n".toList, "\n';".toList, rfl, rfl, by decide, by rintro c ⟨⟩; rfl,
      by rintro c ⟨⟩; rfl⟩).2 ⟨0, 10, .blockComment⟩ (by decide +kernel) (by decide) (by decide)
    (by decide)
  exact ⟨hfirst.1, hfirst.2, hsecond.1, hsecond.2⟩

end Indentation

end StructuredText
