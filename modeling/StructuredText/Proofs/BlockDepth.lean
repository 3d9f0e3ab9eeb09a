import StructuredText.Proofs.LineKinds

/-!
# The depth of blocks

The depth behind a text is found line by line from its cells: a line moves it by the kind of what
stands behind the cells of a literal that it starts inside of. Offsets play no part, so that the
depth behind a text is known from the depth behind its first lines.

Results:
1. `depthBehind_append`: the depth behind the first lines carries over to the others.
2. `Indentation.scan_getElem?`: the line at some place of a text.
3. `Indentation.scan_getLast?`: the depth behind the last line of a text.
-/

namespace StructuredText

open List Literal LineKind

/-- The depth behind a line. Of a line that starts inside a literal, only what is behind it
counts. -/
def lineDepth (depth : Nat) (line : List Cell) : Nat :=
  Indentation.depthAfter (ofLine (chars (line.dropWhile Cell.isInside))) depth

/-- The depth behind cells of which `line` is the start of the current line. -/
def depthFrom (depth : Nat) (line : List Cell) : List Cell → Nat
  | [] => lineDepth depth line
  | cell :: rest =>
      if cell.char = '\n' then depthFrom (lineDepth depth line) [] rest
      else depthFrom depth (line ++ [cell]) rest

/-- The depth behind cells that start a line at some depth. -/
def depthBehind (depth : Nat) (cells : List Cell) : Nat :=
  depthFrom depth [] cells

/-! ## Lines of cells -/

theorem depthFrom_append_feed {feed : Cell} (hfeed : feed.char = '\n') (cells rest : List Cell) :
    ∀ depth line, depthFrom depth line (cells ++ feed :: rest) =
      depthBehind (depthFrom depth line cells) rest := by
  induction cells with
  | nil =>
    intro depth line
    simp only [nil_append, depthFrom, if_pos hfeed]
    rfl
  | cons cell cells ih =>
    intro depth line
    rw [cons_append, depthFrom, depthFrom]
    split
    · exact ih _ _
    · exact ih _ _

theorem depthBehind_append_feed {feed : Cell} (hfeed : feed.char = '\n') (cells rest : List Cell)
    (depth : Nat) :
    depthBehind depth (cells ++ feed :: rest) = depthBehind (depthBehind depth cells) rest :=
  depthFrom_append_feed hfeed cells rest depth []

/-- The depth behind the first lines carries over to the others. -/
theorem depthBehind_append {first : List Cell} (hfirst : StartsLine first) (rest : List Cell)
    (depth : Nat) :
    depthBehind depth (first ++ rest) = depthBehind (depthBehind depth first) rest := by
  rcases eq_nil_or_concat first with rfl | ⟨cells, feed, rfl⟩
  · rfl
  · have hfeed : feed.char = '\n' := hfirst _ (by simp [chars])
    rw [concat_eq_append, append_assoc, singleton_append,
      depthBehind_append_feed hfeed, depthBehind_append_feed hfeed]
    rfl

theorem depthFrom_of_not_mem {cells : List Cell} (h : '\n' ∉ chars cells) :
    ∀ depth line, depthFrom depth line cells = lineDepth depth (line ++ cells) := by
  induction cells with
  | nil =>
    intro depth line
    rw [depthFrom, append_nil]
  | cons cell cells ih =>
    intro depth line
    rw [chars_cons, mem_cons, not_or] at h
    rw [depthFrom, if_neg (Ne.symm h.1), ih h.2, append_assoc]
    rfl

/-- The depth behind one line. -/
theorem depthBehind_line {line : List Cell} (h : '\n' ∉ chars line) (depth : Nat) :
    depthBehind depth line = lineDepth depth line :=
  depthFrom_of_not_mem h depth []

/-- Lines that move the depth alike can be put in each other's place. -/
theorem depthBehind_congr {left lines lines' right : List Cell} (hleft : StartsLine left)
    (hright : EndsLine (chars right))
    (h : depthBehind (depthBehind 0 left) lines = depthBehind (depthBehind 0 left) lines') :
    depthBehind 0 (left ++ (lines ++ right)) = depthBehind 0 (left ++ (lines' ++ right)) := by
  rw [depthBehind_append hleft, depthBehind_append hleft]
  cases right with
  | nil => rwa [append_nil, append_nil]
  | cons feed right =>
    have hfeed : feed.char = '\n' := hright _ rfl
    rw [depthBehind_append_feed hfeed, depthBehind_append_feed hfeed, h]

/-- Cells are whole lines and the start of one more. -/
theorem exists_startsLine (cells : List Cell) :
    ∃ first line, cells = first ++ line ∧ StartsLine first ∧ '\n' ∉ chars line := by
  induction cells with
  | nil => exact ⟨[], [], rfl, by rintro c ⟨⟩, by simp⟩
  | cons cell cells ih =>
    obtain ⟨first, line, rfl, hfirst, hline⟩ := ih
    cases first with
    | cons other first =>
      refine ⟨cell :: other :: first, line, rfl, fun c hc => hfirst c ?_, hline⟩
      rwa [chars_cons, chars_cons, getLast?_cons_cons] at hc
    | nil =>
      by_cases hfeed : cell.char = '\n'
      · refine ⟨[cell], line, rfl, ?_, hline⟩
        rintro c ⟨⟩
        exact hfeed
      · exact ⟨[], cell :: line, rfl, by rintro c ⟨⟩, by simp [Ne.symm hfeed, hline]⟩

/-- Cells are the end of a line and what follows it. -/
theorem exists_endsLine (cells : List Cell) :
    ∃ line rest, cells = line ++ rest ∧ '\n' ∉ chars line ∧ EndsLine (chars rest) := by
  rcases exists_line (chars cells) with hline | ⟨line, text, hline, htext⟩
  · exact ⟨cells, [], by simp, hline, by rintro c ⟨⟩⟩
  · obtain ⟨first, behind, rfl, rfl, hbehind⟩ := chars_eq_append htext
    refine ⟨first, behind, rfl, hline, ?_⟩
    rw [hbehind]
    rintro c ⟨⟩
    rfl

/-! ## Lines of a text -/

/-- A literal that goes on behind a place ends with the cells inside it. -/
theorem stop_of_mem_spansFrom {span : Span} {left rest : List Cell} :
    ∀ pos, span ∈ spansFrom pos (left ++ rest) → span.start < pos + left.length →
      pos + left.length < span.stop →
      span.stop = pos + left.length + (rest.takeWhile Cell.isInside).length := by
  induction left with
  | nil =>
    intro pos hmem hstart
    have := start_of_mem_spansFrom pos hmem
    rw [length_nil] at hstart
    omega
  | cons cell left ih =>
    intro pos hmem hstart hstop
    rw [length_cons] at hstart hstop ⊢
    have hlater : span ∈ spansFrom (pos + 1) (left ++ rest) →
        span.stop = pos + (left.length + 1) + (rest.takeWhile Cell.isInside).length := by
      intro hmem
      rw [ih (pos + 1) hmem (by omega) (by omega)]
      omega
    obtain ⟨c, role⟩ := cell
    cases role with
    | code | inside kind => exact hlater hmem
    | opening kind =>
      rcases mem_cons.mp hmem with rfl | hmem
      · -- All that is left of the place belongs to the literal.
        have hrun : ((left ++ rest).takeWhile Cell.isInside).length =
            left.length + (rest.takeWhile Cell.isInside).length := by
          change pos + (left.length + 1) <
            pos + 1 + ((left ++ rest).takeWhile Cell.isInside).length at hstop
          rw [takeWhile_append] at hstop ⊢
          split at hstop
          next hall => rw [if_pos hall, length_append]
          next hnot =>
            have := (takeWhile_sublist (l := left) Cell.isInside).length_le
            omega
        change pos + 1 + ((left ++ rest).takeWhile Cell.isInside).length = _
        rw [hrun]
        omega
      · exact hlater hmem

theorem drop_takeWhile_append {α : Type} (p : α → Bool) (first second : List α) :
    first.drop ((first ++ second).takeWhile p).length = first.dropWhile p := by
  induction first with
  | nil => rw [drop_nil, dropWhile_nil]
  | cons x first ih =>
    by_cases hx : p x = true
    · simp [hx, ih]
    · simp [hx]

theorem trimLeft_eq_self {text : List Char} (h : ∀ c ∈ text.head?, isBlank c = false) :
    trimLeft text = text := by
  cases text with
  | nil => rfl
  | cons c text => rw [trimLeft, dropWhile_cons_of_neg (by rw [h c rfl]; decide)]

theorem head?_trimLeft (text : List Char) : ∀ c ∈ (trimLeft text).head?, isBlank c = false := by
  intro c hc
  have hnot := head?_dropWhile_not isBlank text
  rw [trimLeft] at hc
  rw [Option.mem_def.mp hc] at hnot
  simpa using hnot

theorem trim_trimLeft (text : List Char) : trim (trimLeft text) = trim text := by
  rw [trim, trimLeft_eq_self (head?_trimLeft text), trim]

theorem trim_trim (text : List Char) : trim (trim text) = trim text := by
  have hhead : ∀ c ∈ (trim text).head?, isBlank c = false := by
    intro c hc
    obtain ⟨blanks, htext, -⟩ := trimRight_append_blanks (trimLeft text)
    refine head?_trimLeft text c ?_
    rw [htext, head?_append, ← trim, Option.mem_def.mp hc]
    rfl
  rw [trim, trimLeft_eq_self hhead, trim, trimRight_trimRight]

theorem ofLine_of_trim {text text' : List Char} (h : trim text = trim text') :
    ofLine text = ofLine text' := by
  rw [ofLine, ofLine, h]

namespace Indentation

theorem depth_carriedLine (covered depth : Nat) (line : List Char) :
    (carriedLine covered depth line).depth = depthAfter (ofLine (line.drop covered)) depth := by
  rw [carriedLine]
  by_cases h : trim (line.drop covered) = []
  · have hblank : ofLine (line.drop covered) = ofLine [] := ofLine_of_trim h
    rw [hblank, h]
    rfl
  · simp [h]

theorem depth_codeLine (depth : Nat) (content : List Char) :
    (codeLine depth content).depth = depthAfter (ofLine content) depth := by
  cases content with
  | nil | cons c content => rfl

theorem ofLine_contentOf (endsInLiteral : Bool) (line : List Char) :
    ofLine (contentOf endsInLiteral line) = ofLine line := by
  rw [contentOf]
  split
  · exact ofLine_of_trim (trim_trimLeft line)
  · exact ofLine_of_trim (trim_trim line)

theorem stop_of_filter_spanAt {cells left rest : List Cell} {span : Span}
    (hcells : cells = left ++ rest)
    (h : (spanAt (spansFrom 0 cells).toArray left.length).filter (·.start < left.length) =
      some span) :
    span.stop = left.length + (rest.takeWhile Cell.isInside).length := by
  obtain ⟨hat, hstart⟩ := Option.filter_eq_some_iff.mp h
  obtain ⟨hmem, -, hstop⟩ := (spanAt_eq_some_iff (spansFrom_ordered cells 0)).mp hat
  rw [decide_eq_true_eq] at hstart
  rw [hcells] at hmem
  rw [stop_of_mem_spansFrom 0 hmem (by omega) (by omega), Nat.zero_add]

/-- The depth behind a line of a text. -/
theorem depth_place {cells left line tail : List Cell} (hmarked : Marked recognize [] cells)
    (hcells : cells = left ++ (line ++ tail)) (depth : Nat) :
    (place (spansFrom 0 cells).toArray left.length depth (chars line)).depth =
      lineDepth depth line := by
  unfold place
  split
  next span hspan =>
    rw [depth_carriedLine, lineDepth, stop_of_filter_spanAt hcells hspan,
      Nat.add_sub_cancel_left, chars, ← map_drop, drop_takeWhile_append]
    rfl
  next hnone =>
    have hhead := head?_of_filter_spanAt hmarked hcells hnone
    have hline : line.dropWhile Cell.isInside = line := by
      cases line with
      | nil => rfl
      | cons cell line => rw [dropWhile_cons_of_neg (by rw [hhead cell rfl]; decide)]
    rw [depth_codeLine, ofLine_contentOf, lineDepth, hline]

theorem lines_line_append {line tail : List Char} (hline : '\n' ∉ line) (htail : EndsLine tail) :
    ∃ others, lines (line ++ tail) = line :: others := by
  cases tail with
  | nil => exact ⟨[], by rw [append_nil, lines_of_not_mem hline]⟩
  | cons c tail =>
    obtain rfl : c = '\n' := htail c rfl
    exact ⟨lines tail, lines_append hline tail⟩

/-- The line behind whole lines `first`. -/
theorem placeAll_getElem? {cells line tail : List Cell} (hmarked : Marked recognize [] cells)
    (hline : '\n' ∉ chars line) (htail : EndsLine (chars tail)) (n : Nat) :
    ∀ left first depth, first.length = n → cells = left ++ (first ++ (line ++ tail)) →
      StartsLine first →
      (placeAll (spansFrom 0 cells).toArray left.length depth
          (lines (chars (first ++ (line ++ tail)))))[(chars first).count '\n']? =
        some (place (spansFrom 0 cells).toArray (left ++ first).length (depthBehind depth first)
          (chars line)) := by
  induction n using Nat.strongRecOn with
  | ind n ih =>
    intro left first depth hn hcells hfirst
    rcases exists_line (chars first) with hflat | ⟨start, text, hstart, htext⟩
    · -- Whole lines without a line feed are none.
      obtain rfl : first = [] := by
        rcases eq_nil_or_concat first with rfl | ⟨init, feed, rfl⟩
        · rfl
        · have hfeed : feed.char = '\n' := hfirst _ (by simp [chars])
          simp [hfeed] at hflat
      obtain ⟨others, hothers⟩ := lines_line_append hline htail
      rw [nil_append, chars_append, hothers, append_nil]
      rfl
    · obtain ⟨start, behind, rfl, rfl, hbehind⟩ := chars_eq_append htext
      obtain ⟨feed, others, rfl⟩ : ∃ feed others, behind = feed :: others :=
        exists_cons_of_ne_nil (by rintro rfl; cases hbehind)
      obtain ⟨hfeed, rfl⟩ := cons_eq_cons.mp hbehind
      have hothers : StartsLine others := by
        intro c hc
        refine hfirst c ?_
        rw [chars_append, chars_cons, getLast?_append, getLast?_cons,
          Option.mem_def.mp hc]
        rfl
      have hlater := ih others.length (by rw [← hn]; simp; omega) (left ++ (start ++ [feed])) others
        (lineDepth depth start) rfl (by rw [hcells]; simp) hothers
      have hdepth := @depth_place cells left start (feed :: (others ++ (line ++ tail))) hmarked
        (by rw [hcells]; simp) depth
      have hlength : (left ++ (start ++ [feed])).length =
          left.length + (chars start).length + 1 := by
        simp [Nat.add_assoc]
      have hlines : lines (chars (start ++ feed :: others ++ (line ++ tail))) =
          chars start :: lines (chars (others ++ (line ++ tail))) := by
        rw [← lines_append hstart]
        simp [hfeed]
      have hcount : (chars (start ++ feed :: others)).count '\n' =
          (chars others).count '\n' + 1 := by
        rw [chars_append, count_append, count_eq_zero.mpr hstart, chars_cons, hfeed,
          count_cons_self, Nat.zero_add]
      rw [hlines, hcount, placeAll, getElem?_cons_succ, hdepth, ← hlength, hlater,
        depthBehind_append_feed hfeed, depthBehind_line hstart]
      simp

/-- The line at some place of a text. -/
theorem scan_getElem? {first line tail : List Cell}
    (hmarked : Marked recognize [] (first ++ (line ++ tail))) (hfirst : StartsLine first)
    (hline : '\n' ∉ chars line) (htail : EndsLine (chars tail)) :
    (scan (chars (first ++ (line ++ tail))))[(chars first).count '\n']? =
      some (place (spansFrom 0 (first ++ (line ++ tail))).toArray first.length
        (depthBehind 0 first) (chars line)) := by
  rw [scan, hmarked.scan_eq]
  exact placeAll_getElem? hmarked hline htail first.length [] first 0 rfl rfl hfirst

theorem length_lines (text : List Char) : (lines text).length = text.count '\n' + 1 := by
  induction text with
  | nil => rfl
  | cons c text ih =>
    by_cases hc : c = '\n'
    · rw [lines, if_pos hc, length_cons, ih, hc, count_cons_self]
    · rw [lines_cons hc, length_modifyHead, count_cons_of_ne (by simpa using hc), ih]

theorem length_placeAll (spans : Array Span) (texts : List (List Char)) :
    ∀ start depth, (placeAll spans start depth texts).length = texts.length := by
  induction texts with
  | nil => exact fun _ _ => rfl
  | cons line texts ih =>
    intro start depth
    rw [placeAll, length_cons, ih, length_cons]

/-- The depth behind the last line of a text. -/
theorem scan_getLast? {cells : List Cell} (hmarked : Marked recognize [] cells) :
    (scan (chars cells)).getLast?.map (·.depth) = some (depthBehind 0 cells) := by
  obtain ⟨first, line, rfl, hfirst, hline⟩ := exists_startsLine cells
  rw [← append_nil line] at hmarked
  have hlast := scan_getElem? hmarked hfirst hline (by rintro c ⟨⟩)
  have hlength : (scan (chars (first ++ line))).length = (chars first).count '\n' + 1 := by
    rw [scan, length_placeAll, length_lines, chars_append, count_append,
      count_eq_zero.mpr hline, Nat.add_zero]
  rw [append_nil] at hlast hmarked
  rw [getLast?_eq_getElem?, hlength, Nat.add_sub_cancel, hlast, Option.map_some,
    depth_place hmarked (by rw [append_nil]), depthBehind_append hfirst,
    depthBehind_line hline]

end Indentation

end StructuredText
