import StructuredText.Proofs.Layout
import StructuredText.Proofs.LineBlanks

/-!
# Lines with the same contents

Indentation reads the content of a line and whether the line starts inside a literal. Two texts
whose lines agree in both have the same indented lines, whatever the offsets of their lines are.

Results:
1. `Reblank.sameLines`: texts with other blanks around their lines have lines of the same contents.
2. `SameLines.scan_eq`: texts with lines of the same contents are indented alike.
3. `Relined.sameLines`: indentation keeps the contents of lines.
-/

namespace StructuredText

open List Literal

variable {rest line line' tail cells left : List Cell} {free : Bool} {blanks : List Char}

/-- Two lines of the same content, the first of them before `tail`. A line that starts inside a
literal is the same in both texts. -/
inductive SameLine (tail : List Cell) : List Cell → List Cell → Prop
  | carried {line : List Cell} :
      (∃ cell ∈ (line ++ tail).head?, cell.isInside = true) → SameLine tail line line
  | placed {gap gap' trailing trailing' : List Char} {content : List Cell} :
      LineBlanks gap → LineBlanks gap' → LineBlanks trailing → LineBlanks trailing' →
      (∀ cell ∈ (codeCells gap ++ (content ++ codeCells trailing) ++ tail).head?,
        cell.isInside = false) →
      SameLine tail (codeCells gap ++ (content ++ codeCells trailing))
        (codeCells gap' ++ (content ++ codeCells trailing'))

/-- Two texts of the same number of lines, with the same contents. -/
inductive SameLines : List Cell → List Cell → Prop
  | last {line line' : List Cell} :
      '\n' ∉ chars line → '\n' ∉ chars line' → SameLine [] line line' → SameLines line line'
  | next {line line' rest rest' : List Cell} {ending : Cell} :
      '\n' ∉ chars line → '\n' ∉ chars line' → ending.char = '\n' →
      SameLine (ending :: rest) line line' → SameLines rest rest' →
      SameLines (line ++ ending :: rest) (line' ++ ending :: rest')

/-! ## From blanks to contents -/

/-- The starts of two lines, with `rest` behind the first of them. -/
def Begun (rest line line' : List Cell) : Bool → Prop
  | false => line = line'
  | true => ∃ gap gap' content, LineBlanks gap ∧ LineBlanks gap' ∧
      line = codeCells gap ++ content ∧ line' = codeCells gap' ++ content ∧
      ∀ cell ∈ (line ++ rest).head?, cell.isInside = false

variable {cell : Cell} {out cells' : List Cell}

theorem Begun.concat (h : Begun (cell :: rest) line line' free) :
    Begun rest (line ++ [cell]) (line' ++ [cell]) free := by
  cases free with
  | false => rw [Begun] at h ⊢; rw [h]
  | true =>
    obtain ⟨gap, gap', content, hgap, hgap', rfl, rfl, hhead⟩ := h
    refine ⟨gap, gap', content ++ [cell], hgap, hgap', by simp, by simp, ?_⟩
    simpa using hhead

/-- The blanks behind lines that were begun. -/
theorem Begun.sameLine {trailing trailing' : List Char}
    (h : Begun (codeCells trailing ++ tail) line line' free) (htrailing : LineBlanks trailing)
    (htrailing' : LineBlanks trailing') (hkept : free = false → trailing = trailing') :
    SameLine tail (line ++ codeCells trailing) (line' ++ codeCells trailing') := by
  cases free with
  | false =>
    obtain rfl : line = line' := h
    obtain rfl := hkept rfl
    by_cases hinside : ∃ cell ∈ (line ++ codeCells trailing ++ tail).head?, cell.isInside = true
    · exact .carried hinside
    · have hplaced := @SameLine.placed tail [] [] trailing trailing line lineBlanks_nil
        lineBlanks_nil htrailing htrailing' (by simpa using hinside)
      exact hplaced
  | true =>
    obtain ⟨gap, gap', content, hgap, hgap', rfl, rfl, hhead⟩ := h
    have hplaced := @SameLine.placed tail gap gap' trailing trailing' content hgap hgap' htrailing
      htrailing' (by simpa using hhead)
    simpa using hplaced

theorem LineBlanks.feed_not_mem (h : LineBlanks blanks) : '\n' ∉ blanks :=
  fun hmem => (h _ hmem).2 rfl

/-- Texts with other blanks around their lines have lines of the same contents. -/
theorem Reblank.sameLines {rest' : List Cell} (h : Reblank Eq free rest rest') :
    ∀ {line line' : List Cell}, '\n' ∉ chars line → '\n' ∉ chars line' →
      Begun rest line line' free → SameLines (line ++ rest) (line' ++ rest') := by
  induction h with
  | finish htrailing htrailing' hkept =>
    intro line line' hline hline' hbegun
    refine .last ?_ ?_ (Begun.sameLine (by rwa [append_nil]) htrailing htrailing' hkept)
    · simpa using ⟨hline, htrailing.feed_not_mem⟩
    · simpa using ⟨hline', htrailing'.feed_not_mem⟩
  | @keep _ cell _ _ _ hsame hne _ ih =>
    intro line line' hline hline' hbegun
    subst hsame
    have := @ih (line ++ [cell]) (line' ++ [cell]) (by simpa using ⟨hline, Ne.symm hne⟩)
      (by simpa using ⟨hline', Ne.symm hne⟩) hbegun.concat
    simpa using this
  | @next free free' trailing trailing' gap gap' ending _ rest rest' htrailing htrailing'
      hkept hending hfeed hgap hgap' hfree hhead _ ih =>
    intro line line' hline hline' hbegun
    subst hending
    have hlater : SameLines (codeCells gap ++ rest) (codeCells gap' ++ rest') := by
      refine ih (by simpa using hgap.feed_not_mem) (by simpa using hgap'.feed_not_mem) ?_
      cases free' with
      | false => rw [Begun, hfree rfl]
      | true => exact ⟨gap, gap', [], hgap, hgap', by simp, by simp, hhead rfl⟩
    have := SameLines.next (by simpa using ⟨hline, htrailing.feed_not_mem⟩)
      (by simpa using ⟨hline', htrailing'.feed_not_mem⟩) hfeed
      (hbegun.sameLine htrailing htrailing' hkept) hlater
    simpa using this

theorem lineBlanks_of_subset (hblank : ∀ c ∈ blanks, isBlank c = true) (hsub : blanks ⊆ chars line)
    (hline : '\n' ∉ chars line) : LineBlanks blanks :=
  fun c hc => ⟨hblank c hc, fun hfeed => hline (hfeed ▸ hsub hc)⟩

theorem lineBlanks_tabs (level : Nat) : LineBlanks (List.replicate level '\t') := by
  intro c hc
  rw [eq_of_mem_replicate hc]
  decide

theorem Relaid.sameLine (h : Relaid tail line out) (hline : '\n' ∉ chars line) :
    SameLine tail line out := by
  cases h with
  | carried hinside => exact .carried hinside
  | @placed gap trailing content level hgap htrailing _ _ _ hhead =>
    have hplaced := @SameLine.placed tail gap (List.replicate level '\t') trailing [] content
      (lineBlanks_of_subset hgap (by simp) hline) (lineBlanks_tabs level)
      (lineBlanks_of_subset htrailing (by simp) hline) lineBlanks_nil hhead
    simpa using hplaced

/-- Indentation keeps the contents of lines. -/
theorem Relined.sameLines (h : Relined cells out) : SameLines cells out := by
  induction h with
  | last hline hrelaid => exact .last hline (hrelaid.not_mem hline) (hrelaid.sameLine hline)
  | next hline hfeed hrelaid _ ih =>
    exact .next hline (hrelaid.not_mem hline) hfeed (hrelaid.sameLine hline) ih

/-! ## From contents to indented lines -/

/-- A literal ends in no blank where code follows. -/
theorem Marked.isBlank_of_role {before : List Char} {first : List Cell}
    (h : Marked recognize before (first ++ cell :: rest)) (hrole : cell.role ≠ .code)
    (hne : rest ≠ []) (hhead : ∀ other ∈ rest.head?, other.isInside = false) :
    isBlank cell.char = false := by
  by_contra hblank
  have hcode := @Marked.codeCells_of_head _ _ h first [cell]
    rest rfl (by simpa using hblank) hne hhead
  exact hrole (role_of_mem_codeCells (hcode ▸ mem_singleton_self cell))

namespace Indentation

/-- Whether a line ends inside a literal. -/
def endsInLiteral (line : List Cell) : Bool :=
  line.getLast?.any fun cell => !cell.isCode

theorem trimLeft_blanks (h : LineBlanks blanks) (text : List Char) :
    trimLeft (blanks ++ text) = trimLeft text :=
  dropWhile_append_of_pos fun c hc => (h c hc).1

theorem trim_append (h : LineBlanks blanks) (text : List Char) :
    trim (text ++ blanks) = trim text := by
  have hblank : ∀ c ∈ blanks, isBlank c = true := fun c hc => (h c hc).1
  rw [trim, trimLeft, dropWhile_append]
  split
  next hall =>
    rw [List.isEmpty_iff] at hall
    rw [trim, trimLeft, hall, List.dropWhile_eq_nil_iff.mpr hblank]
  next => rw [trimRight_append hblank, ← trimLeft, ← trim]

theorem trim_blanks {blanks' : List Char} (h : LineBlanks blanks) (h' : LineBlanks blanks')
    (text : List Char) : trim (blanks ++ (text ++ blanks')) = trim text := by
  rw [trim, trimLeft_blanks h, ← trim, trim_append h']

theorem trimRight_trimLeft_concat (text : List Char) {c : Char} (h : isBlank c = false) :
    trimRight (trimLeft (text ++ [c])) = trimLeft (text ++ [c]) := by
  refine trimRight_eq_self fun d hd => ?_
  have hsingle : [c].dropWhile isBlank = [c] := dropWhile_cons_of_neg (by simp [h])
  have hlast : (trimLeft (text ++ [c])).getLast? = some c := by
    rw [trimLeft, dropWhile_append, hsingle]
    split
    · rfl
    · exact getLast?_concat
  rw [hlast] at hd
  rwa [← Option.some.inj hd]

theorem endsInLiteral_codeCells (first : List Cell) {text : List Char} (h : text ≠ []) :
    endsInLiteral (first ++ codeCells text) = false := by
  rcases eq_nil_or_concat text with rfl | ⟨init, c, rfl⟩
  · exact absurd rfl h
  · simp [endsInLiteral, Cell.isCode]

theorem exists_of_endsInLiteral (h : endsInLiteral line = true) :
    ∃ others cell, line = others ++ [cell] ∧ cell.role ≠ .code := by
  rcases eq_nil_or_concat line with rfl | ⟨others, cell, rfl⟩
  · cases h
  · refine ⟨others, cell, concat_eq_append, ?_⟩
    simpa [endsInLiteral, Cell.isCode] using h

theorem contentOf_nil (endsInLiteral : Bool) : contentOf endsInLiteral [] = [] := by
  cases endsInLiteral <;> rfl

theorem contentOf_blanks (h : LineBlanks blanks) (endsInLiteral : Bool) (text : List Char) :
    contentOf endsInLiteral (blanks ++ text) = contentOf endsInLiteral text := by
  rw [contentOf, contentOf, trim, trimLeft_blanks h, ← trim]

/-- The blanks around a line are no part of its content. -/
theorem contentOf_line {before gap trailing : List Char} {content : List Cell}
    (hmarked : Marked recognize before (codeCells gap ++ (content ++ codeCells trailing) ++ tail))
    (hgap : LineBlanks gap) (htrailing : LineBlanks trailing) :
    contentOf (endsInLiteral (codeCells gap ++ (content ++ codeCells trailing)))
        (chars (codeCells gap ++ (content ++ codeCells trailing))) =
      contentOf (endsInLiteral content) (chars content) := by
  cases trailing with
  | nil =>
    rw [codeCells_nil, append_nil, chars_append, chars_codeCells, contentOf_blanks hgap]
    cases hlast : content.getLast? with
    | none => rw [getLast?_eq_none_iff.mp hlast, chars_nil, contentOf_nil, contentOf_nil]
    | some cell =>
      rw [endsInLiteral, endsInLiteral, getLast?_append, hlast]
      rfl
  | cons c trailing =>
    have hcode : endsInLiteral (codeCells gap ++ (content ++ codeCells (c :: trailing))) =
        false := by
      rw [← append_assoc]
      exact endsInLiteral_codeCells _ (cons_ne_nil c trailing)
    rw [hcode, chars_append, chars_codeCells, chars_append, chars_codeCells, contentOf,
      if_neg (by decide), trim_blanks hgap htrailing, contentOf]
    split
    next hends =>
      obtain ⟨others, cell, rfl, hrole⟩ := exists_of_endsInLiteral hends
      have hsplit : Marked recognize before (codeCells gap ++ others ++
          cell :: (codeCells (c :: trailing) ++ tail)) := by simpa using hmarked
      have hblank := hsplit.isBlank_of_role hrole (cons_ne_nil _ _) (by rintro other ⟨⟩; rfl)
      rw [trim, chars_append, chars_cons, chars_nil, trimRight_trimLeft_concat _ hblank]
    next => rfl

/-- A line that starts inside a literal. -/
theorem place_carried (hmarked : Marked recognize [] cells)
    (hcells : cells = left ++ (line ++ tail))
    (hinside : ∃ cell ∈ (line ++ tail).head?, cell.isInside = true) (depth : Nat) :
    place (spansFrom 0 cells).toArray left.length depth (chars line) =
      carriedLine (line.takeWhile Cell.isInside).length depth (chars line) := by
  unfold place
  split
  next span hspan =>
    have hdrop : (chars line).drop (span.stop - left.length) =
        (chars line).drop (line.takeWhile Cell.isInside).length := by
      have hself := drop_takeWhile_append Cell.isInside line []
      rw [append_nil] at hself
      rw [stop_of_filter_spanAt hcells hspan, Nat.add_sub_cancel_left, chars, ← map_drop,
        ← map_drop, drop_takeWhile_append, hself]
    rw [carriedLine, carriedLine, hdrop]
  next hnone =>
    obtain ⟨cell, hcell, hinside⟩ := hinside
    rw [head?_of_filter_spanAt hmarked hcells hnone cell hcell] at hinside
    cases hinside

/-- A line that starts outside all literals. -/
theorem place_placed (hmarked : Marked recognize [] cells) (hcells : cells = left ++ (line ++ tail))
    (hhead : ∀ cell ∈ (line ++ tail).head?, cell.isInside = false) (depth : Nat) :
    place (spansFrom 0 cells).toArray left.length depth (chars line) =
      codeLine depth (contentOf (endsInLiteral line) (chars line)) := by
  unfold place
  split
  next span hspan =>
    obtain ⟨cell, hcell, hinside⟩ := inside_of_filter_spanAt hmarked hcells hspan
    rw [hhead cell hcell] at hinside
    cases hinside
  next hnone =>
    rcases eq_nil_or_concat line with rfl | ⟨init, cell, rfl⟩
    · simp only [chars_nil, contentOf_nil]
    · have hat : cells[left.length + init.length]? = some cell := by
        rw [hcells]
        simp
      have hpos : (left.length : Int) + (chars (init.concat cell)).length - 1 =
          (left.length + init.length : Nat) := by
        rw [length_chars, length_concat]
        omega
      have hends : isProtected (spansFrom 0 cells).toArray (left.length + init.length : Nat) =
          endsInLiteral (init.concat cell) := by
        rw [Bool.eq_iff_iff, ← not_iff_not, Bool.not_eq_true, hmarked.isProtected_eq_false_iff hat]
        simp [endsInLiteral, Cell.isCode]
      simp only [hpos, hends]

end Indentation

open Indentation

theorem SameLine.place_eq {left' tail' : List Cell} (h : SameLine tail line line')
    (hmarked : Marked recognize [] cells) (hmarked' : Marked recognize [] cells')
    (hcells : cells = left ++ (line ++ tail)) (hcells' : cells' = left' ++ (line' ++ tail'))
    (htail : tail'.head? = tail.head?) (depth : Nat) :
    place (spansFrom 0 cells).toArray left.length depth (chars line) =
      place (spansFrom 0 cells').toArray left'.length depth (chars line') := by
  cases h with
  | carried hinside =>
    rw [place_carried hmarked hcells hinside, place_carried hmarked' hcells' ?_]
    rwa [head?_append, htail, ← head?_append]
  | @placed gap gap' trailing trailing' content hgap hgap' htrailing htrailing' hhead =>
    have hlater := hmarked.of_append hcells hhead
    have hhead' : ∀ cell ∈ (codeCells gap' ++ (content ++ codeCells trailing') ++ tail').head?,
        cell.isInside = false := by
      rw [append_assoc, append_assoc] at hlater ⊢
      cases gap' with
      | cons c gap' => rintro cell ⟨⟩; rfl
      | nil =>
        cases content with
        | cons cell content => exact hlater.head?_of_codeCells
        | nil =>
          cases trailing' with
          | cons c trailing' => rintro cell ⟨⟩; rfl
          | nil =>
            rw [nil_append, ← append_assoc, ← codeCells_append] at hlater
            rw [codeCells_nil, nil_append, nil_append, nil_append, htail]
            exact hlater.head?_of_codeCells
    have hlater' := hmarked'.of_append hcells' hhead'
    rw [place_placed hmarked hcells hhead, place_placed hmarked' hcells' hhead',
      contentOf_line hlater hgap htrailing, contentOf_line hlater' hgap' htrailing']

/-- Lines of the same contents are indented alike. -/
theorem SameLines.placeAll_eq {cells cells' : List Cell} (hmarked : Marked recognize [] cells)
    (hmarked' : Marked recognize [] cells') {rest rest' : List Cell} (h : SameLines rest rest') :
    ∀ {left left' : List Cell} (depth : Nat), cells = left ++ rest → cells' = left' ++ rest' →
      placeAll (spansFrom 0 cells).toArray left.length depth (lines (chars rest)) =
        placeAll (spansFrom 0 cells').toArray left'.length depth (lines (chars rest')) := by
  induction h with
  | last hline hline' hsame =>
    intro left left' depth hcells hcells'
    rw [lines_of_not_mem hline, lines_of_not_mem hline', placeAll, placeAll, placeAll, placeAll,
      hsame.place_eq hmarked hmarked' (by rw [hcells, append_nil])
        (by rw [hcells', append_nil]) rfl depth]
  | @next line line' rest rest' ending hline hline' hfeed hsame _ ih =>
    intro left left' depth hcells hcells'
    have hplace := hsame.place_eq hmarked hmarked' hcells hcells' rfl depth
    have hlater := @ih (left ++ (line ++ [ending])) (left' ++ (line' ++ [ending]))
      (place (spansFrom 0 cells).toArray left.length depth (chars line)).depth
      (by simp [hcells]) (by simp [hcells'])
    have hlength : ∀ first line : List Cell,
        (first ++ (line ++ [ending])).length = first.length + (chars line).length + 1 := by
      simp [Nat.add_assoc]
    rw [hlength, hlength] at hlater
    rw [chars_append, chars_cons, hfeed, lines_append hline, chars_append, chars_cons, hfeed,
      lines_append hline', placeAll, placeAll, hlater, hplace]

/-- Texts with lines of the same contents are indented alike. -/
theorem SameLines.scan_eq (h : SameLines cells cells') (hmarked : Marked recognize [] cells)
    (hmarked' : Marked recognize [] cells') :
    Indentation.scan (chars cells) = Indentation.scan (chars cells') := by
  rw [Indentation.scan, hmarked.scan_eq, Indentation.scan, hmarked'.scan_eq]
  exact @SameLines.placeAll_eq cells cells' hmarked hmarked' cells cells' h [] [] 0 rfl rfl

end StructuredText
