import StructuredText.Indentation
import StructuredText.Proofs.Preservation

/-!
# Indentation as moves

Indenting a text changes only the blanks at the starts and ends of its lines, and leaves lines that
start inside a literal as they are.

Results:
1. `line_respacing`: the blanks around the content of a line are changed by moves.
2. `Indentation.exists_indented`: indenting a text is a sequence of moves, line by line.
-/

namespace StructuredText

open List Literal

/-! ## Lines -/

variable {line gap : List Char} {left right content tail : List Cell}

theorem lines_of_not_mem (h : '\n' ∉ line) : lines line = [line] := by
  induction line with
  | nil => rfl
  | cons c line ih =>
    rw [mem_cons, not_or] at h
    rw [lines, if_neg (Ne.symm h.1), ih h.2]

theorem lines_append (h : '\n' ∉ line) (rest : List Char) :
    lines (line ++ '\n' :: rest) = line :: lines rest := by
  induction line with
  | nil => rfl
  | cons c line ih =>
    rw [mem_cons, not_or] at h
    rw [cons_append, lines, if_neg (Ne.symm h.1), ih h.2]

/-- A text is one line, or a line and a further text behind a line feed. -/
theorem exists_line (text : List Char) :
    '\n' ∉ text ∨ ∃ line rest, '\n' ∉ line ∧ text = line ++ '\n' :: rest := by
  by_cases h : '\n' ∈ text
  · obtain ⟨line, rest, rfl, hline⟩ := eq_append_cons_of_mem h
    exact .inr ⟨line, rest, hline, rfl⟩
  · exact .inl h

/-! ## The blanks of a line -/

/-- The text before a line: nothing, or something that ends in a line feed. -/
def StartsLine (left : List Cell) : Prop :=
  ∀ c ∈ (chars left).getLast?, c = '\n'

theorem StartsLine.joins (h : StartsLine left) (right : List Cell) :
    Joins .strict left right :=
  .inl fun c hc => by rw [h c hc]; decide

theorem StartsLine.splits (h : StartsLine left) (hright : right ≠ []) :
    Splits .strict left right where
  code := fun hnil => absurd hnil hright
  words := by
    intro c hc _ _
    rw [h c hc]
    exact .inl (by decide)
  signs := by
    intro _ c hc d _
    rw [h c hc]
    exact cling_eq_false (by decide) (by decide) d
  typed := by
    intro _ c hc _ _
    rw [h c hc]
    exact .inl (by decide)

/-- The blanks at the start of a line can be changed. -/
theorem leading_respacing {left right : List Cell} {gap gap' : List Char} (hleft : StartsLine left)
    (hgap : ∀ c ∈ gap, isBlank c = true) (hline : '\n' ∉ gap)
    (hgap' : ∀ c ∈ gap', isLayoutBlank c = true)
    (hhead : ∀ cell ∈ right.head?, cell.isInside = false) (hright : gap' ≠ [] → right ≠ []) :
    Respacing .strict (left ++ (codeCells gap ++ right)) (left ++ (codeCells gap' ++ right)) := by
  have hmove : Move .strict (left ++ codeCells gap ++ right) (left ++ codeCells gap' ++ right) :=
    .mk hgap hgap' hhead (fun _ hne => hleft.splits (hright hne)) (fun _ _ => hleft.joins right)
      fun hmem => absurd hmem hline
  rw [append_assoc, append_assoc] at hmove
  exact .single hmove

/-- The blanks at the end of a line can be taken out. -/
theorem trailing_respacing {left right : List Cell} {gap : List Char}
    (hgap : ∀ c ∈ gap, isBlank c = true) (hline : '\n' ∉ gap)
    (hhead : ∀ cell ∈ right.head?, cell.isInside = false) (hright : EndsLine (chars right)) :
    Respacing .strict (left ++ (codeCells gap ++ right)) (left ++ right) := by
  have hmove : Move .strict (left ++ codeCells gap ++ right) (left ++ codeCells [] ++ right) := by
    refine .mk hgap (by simp) hhead (fun _ hne => absurd rfl hne) (fun _ _ => .inr ?_)
      fun hmem => absurd hmem hline
    intro d hd
    rw [hright d hd]
    exact .inl (by decide)
  simp only [codeCells_nil, append_nil, append_assoc] at hmove
  exact .single hmove

/-- A line that stands before `tail`, and what indentation makes of it: a line that starts inside a
literal is kept; the others have tabs in place of the blanks before their content, and lose the
blanks behind it. -/
inductive Relaid (tail : List Cell) : List Cell → List Cell → Prop
  | carried {line : List Cell} :
      (∃ cell ∈ (line ++ tail).head?, cell.isInside = true) → Relaid tail line line
  | placed {gap trailing : List Char} {content : List Cell} {level : Nat} :
      (∀ c ∈ gap, isBlank c = true) → (∀ c ∈ trailing, isBlank c = true) →
      (∀ cell ∈ content.head?, isBlank cell.char = false) →
      (∀ cell ∈ content.getLast?, cell.role = .code → isBlank cell.char = false) →
      (content = [] → level = 0) →
      (∀ cell ∈ (codeCells gap ++ (content ++ codeCells trailing) ++ tail).head?,
        cell.isInside = false) →
      Relaid tail (codeCells gap ++ (content ++ codeCells trailing))
        (codeCells (List.replicate level '\t') ++ content)

/-- Indentation works line by line, and keeps the ends of lines. -/
inductive Relined : List Cell → List Cell → Prop
  | last {line out : List Cell} : '\n' ∉ chars line → Relaid [] line out → Relined line out
  | next {line out rest rest' : List Cell} {ending : Cell} :
      '\n' ∉ chars line → ending.char = '\n' → Relaid (ending :: rest) line out →
      Relined rest rest' → Relined (line ++ ending :: rest) (out ++ ending :: rest')

/-- A line is written with its level of tabs before its content. -/
theorem content_respacing (hleft : StartsLine left) (hgap : ∀ c ∈ gap, isBlank c = true)
    (hline : '\n' ∉ gap) (hhead : ∀ cell ∈ (content ++ right).head?, cell.isInside = false)
    (depth : Nat) :
    ∃ level, (content = [] → level = 0) ∧ (Indentation.codeLine depth (chars content)).text =
        chars (codeCells (List.replicate level '\t') ++ content) ∧
      Respacing .strict (left ++ (codeCells gap ++ (content ++ right)))
        (left ++ ((codeCells (List.replicate level '\t') ++ content) ++ right)) := by
  cases content with
  | nil =>
    refine ⟨0, fun _ => rfl, rfl, ?_⟩
    exact @leading_respacing left right gap [] hleft hgap hline (by simp) hhead fun hne =>
      absurd rfl hne
  | cons cell content =>
    refine ⟨Indentation.levelAt (LineKind.ofLine (chars (cell :: content))) depth, nofun, ?_, ?_⟩
    · rw [chars_append, chars_codeCells]
      rfl
    · rw [append_assoc]
      refine leading_respacing hleft hgap hline ?_ hhead fun _ => by simp
      intro c hc
      rw [eq_of_mem_replicate hc]
      decide

/-- A line whose content is trimmed at both ends, with tabs in place of the blanks around it. -/
theorem Relaid.of_trimmed {blanks : List Char} {level : Nat} (hgap : ∀ c ∈ gap, isBlank c = true)
    (hblanks : ∀ c ∈ blanks, isBlank c = true)
    (hfirst : ∀ c ∈ (chars content).head?, isBlank c = false)
    (htrimmed : trimRight (chars content) = chars content) (hlevel : content = [] → level = 0)
    (hhead : ∀ cell ∈ (codeCells gap ++ (content ++ codeCells blanks) ++ tail).head?,
      cell.isInside = false) :
    Relaid tail (codeCells gap ++ (content ++ codeCells blanks))
      (codeCells (List.replicate level '\t') ++ content) := by
  refine .placed hgap hblanks (fun cell hcell => hfirst _ ?_) (fun cell hcell _ => ?_) hlevel hhead
  · rw [chars, head?_map, Option.mem_def.mp hcell]
    rfl
  · refine isBlank_getLast?_of_trimRight htrimmed cell.char ?_
    rw [chars, getLast?_map, Option.mem_def.mp hcell]
    rfl

/-- The cells of a line with other blanks around its content. `tail` is what follows the line in the
marked text, and `right` what follows it now. -/
theorem line_respacing {before : List Char} {line : List Cell}
    (hmarked : Marked recognize before (line ++ tail)) (hleft : StartsLine left)
    (hline : '\n' ∉ chars line) (hsame : right.head? = tail.head?) (hright : EndsLine (chars right))
    {endsInLiteral : Bool}
    (hlast : ∀ cell ∈ line.getLast?, endsInLiteral = false ↔ cell.role = .code) (depth : Nat) :
    ∃ out, (Indentation.codeLine depth (Indentation.contentOf endsInLiteral (chars line))).text =
        chars out ∧
      Respacing .strict (left ++ (line ++ right)) (left ++ (out ++ right)) ∧
        Relaid tail line out := by
  obtain ⟨leading, inner, rfl, hleading, hinner⟩ :=
    chars_eq_append (takeWhile_append_dropWhile (p := isBlank) (l := chars line)).symm
  have hblank : ∀ c ∈ chars leading, isBlank c = true := by
    rw [hleading]
    exact fun _ => mem_takeWhile_imp
  rw [append_assoc] at hmarked
  have hcode := hmarked.codeCells_of_isBlank hblank
  rw [chars_append, mem_append, not_or] at hline
  have htrim : trimLeft (chars (leading ++ inner)) = chars inner := hinner.symm
  have hfirst : ∀ c ∈ (chars inner).head?, isBlank c = false := by
    rw [hinner]
    intro c hc
    have hnot := head?_dropWhile_not isBlank (chars (leading ++ inner))
    rw [Option.mem_def.mp hc] at hnot
    simpa using hnot
  generalize chars leading = gap at hcode hblank hline hleading
  subst hcode
  have hhead : ∀ {first : List Cell}, Marked recognize before (codeCells gap ++ (first ++ tail)) →
      ∀ cell ∈ (first ++ right).head?, cell.isInside = false := by
    intro first h
    have := h.head?_of_codeCells
    rwa [head?_append, ← hsame, ← head?_append] at this
  cases endsInLiteral with
  | true =>
    rw [Indentation.contentOf, if_pos rfl, htrim, append_assoc]
    obtain ⟨level, hlevel, hout, hmoves⟩ :=
      content_respacing hleft hblank hline.1 (hhead hmarked) depth
    refine ⟨_, hout, hmoves, ?_⟩
    have hplaced := @Relaid.placed tail gap [] inner level hblank (by simp)
      (fun cell hcell => hfirst _ (by rw [chars, head?_map, Option.mem_def.mp hcell]; rfl))
      (fun cell hcell hrole => ?_) hlevel (by simpa using hmarked.head?_not_inside)
    · simpa using hplaced
    · have := (hlast cell (by rw [getLast?_append, Option.mem_def.mp hcell]; rfl)).mpr hrole
      cases this
  | false =>
    rw [Indentation.contentOf, if_neg (by decide), trim, htrim]
    obtain ⟨blanks, htext, hblanks⟩ := trimRight_append_blanks (chars inner)
    obtain ⟨content, trailing, rfl, hcontent, htrailing⟩ := chars_eq_append htext
    rw [← hcontent]
    have hcode : trailing = codeCells (chars trailing) := by
      have hsplit : Marked recognize before (codeCells gap ++ content ++ (trailing ++ tail)) := by
        simpa using hmarked
      refine hsplit.codeCells_of_last (by rwa [htrailing]) ?_
      intro cell hcell
      refine (hlast cell ?_).mp rfl
      rw [getLast?_append, getLast?_append, Option.mem_def.mp hcell]
      rfl
    rw [htrailing] at hcode
    subst hcode
    rw [append_assoc] at hmarked
    have hstarts : ∀ d ∈ (chars content).head?, isBlank d = false := by
      intro d hd
      refine hfirst d ?_
      rw [chars_append, head?_append, Option.mem_def.mp hd]
      rfl
    have htrimmed : trimRight (chars content) = chars content := by
      rw [hcontent, trimRight_trimRight]
    have hrelaid : ∀ {level : Nat}, (content = [] → level = 0) →
        Relaid tail (codeCells gap ++ (content ++ codeCells blanks))
          (codeCells (List.replicate level '\t') ++ content) :=
      fun hlevel => .of_trimmed hblank hblanks hstarts htrimmed hlevel
        (by simpa using hmarked.head?_not_inside)
    cases blanks with
    | nil =>
      simp only [codeCells_nil, append_nil, append_assoc] at hrelaid ⊢
      obtain ⟨level, hlevel, hout, hmoves⟩ :=
        content_respacing hleft hblank hline.1 (hhead hmarked) depth
      exact ⟨_, hout, by simpa using hmoves, hrelaid hlevel⟩
    | cons c blanks =>
      -- First the blanks at the end go, then those at the start change.
      have hend : ∀ cell ∈ right.head?, cell.isInside = false := by
        have hmarked' : Marked recognize before
            ((codeCells gap ++ content) ++ (codeCells (c :: blanks) ++ tail)) := by
          simpa using hmarked
        rw [hsame]
        exact (hmarked'.of_append rfl (by rintro cell ⟨⟩; rfl)).head?_of_codeCells
      have hstart : ∀ cell ∈ (content ++ right).head?, cell.isInside = false := by
        cases content with
        | nil => exact hend
        | cons cell content => exact hmarked.head?_of_codeCells
      obtain ⟨level, hlevel, hout, hmoves⟩ :=
        content_respacing hleft hblank hline.1 hstart depth
      refine ⟨_, hout, Respacing.trans ?_ hmoves, hrelaid hlevel⟩
      have htrail := @trailing_respacing (left ++ (codeCells gap ++ content)) right (c :: blanks)
        hblanks ?_ hend hright
      · simpa using htrail
      · intro hmem
        refine hline.2 ?_
        rw [chars_append, chars_codeCells]
        exact mem_append_right _ hmem

/-! ## Lines of a marked text -/

namespace Indentation

variable {cells left rest : List Cell}

/-- A line that does not start inside a literal. -/
theorem head?_of_filter_spanAt (hmarked : Marked recognize [] cells) (hcells : cells = left ++ rest)
    (h : (spanAt (spansFrom 0 cells).toArray left.length).filter (·.start < left.length) = none) :
    ∀ cell ∈ rest.head?, cell.isInside = false := by
  subst hcells
  intro cell hcell
  by_contra hinside
  rw [Bool.not_eq_false] at hinside
  obtain ⟨span, hspan, hstart, hstop⟩ := hmarked.exists_span_of_inside hcell hinside
  have hfound : spanAt (spansFrom 0 (left ++ rest)).toArray left.length = some span :=
    (spanAt_eq_some_iff (spansFrom_ordered _ 0)).mpr ⟨hspan, by omega, by omega⟩
  rw [hfound, Option.filter_eq_none_iff] at h
  exact h span rfl (by simpa using hstart)

/-- A line that starts inside a literal. -/
theorem inside_of_filter_spanAt (hmarked : Marked recognize [] cells)
    (hcells : cells = left ++ rest) {span : Span}
    (h : (spanAt (spansFrom 0 cells).toArray left.length).filter (·.start < left.length) =
      some span) :
    ∃ cell ∈ rest.head?, cell.isInside = true := by
  obtain ⟨hat, hlt⟩ := Option.filter_eq_some_iff.mp h
  have hholds := (spanAt_eq_some_iff (spansFrom_ordered cells 0)).mp hat
  obtain ⟨⟨c, role⟩, hcell, hrole⟩ := (hmarked.covered_iff left.length).mp
    ⟨span, hholds.1, by simpa using hholds.2.1, by simpa using hholds.2.2⟩
  have hhead : rest.head? = some ⟨c, role⟩ := by
    rw [head?_eq_getElem?, ← hcell, hcells, getElem?_append_right (Nat.le_refl _),
      Nat.sub_self]
  refine ⟨_, hhead, ?_⟩
  cases role with
  | code => exact absurd rfl hrole
  | inside kind => rfl
  | opening kind =>
    -- The literal that opens here would be the one that holds this place.
    obtain ⟨tail, rfl⟩ := head?_eq_some_iff.mp hhead
    obtain ⟨other, hother, hstart, -⟩ := @mem_spansFrom_of_opening c kind tail left 0
    rw [← hcells] at hother
    rw [Nat.zero_add] at hstart
    have hnonempty := (spansFrom_ordered cells 0).nonempty other hother
    have hat' : spanAt (spansFrom 0 cells).toArray left.length = some other :=
      (spanAt_eq_some_iff (spansFrom_ordered cells 0)).mpr ⟨hother, by omega, by omega⟩
    rw [hat, Option.some.injEq] at hat'
    rw [hat', hstart] at hlt
    simp at hlt

theorem place_respacing {cells left line tail right : List Cell}
    (hmarked : Marked recognize [] cells)
    (hcells : cells = left ++ (line ++ tail)) (hleft : StartsLine left) (hline : '\n' ∉ chars line)
    (hsame : right.head? = tail.head?) (hright : EndsLine (chars right)) (depth : Nat) :
    ∃ out, (place (spansFrom 0 cells).toArray left.length depth (chars line)).text = chars out ∧
      Respacing .strict (left ++ (line ++ right)) (left ++ (out ++ right)) ∧
      Relaid tail line out := by
  unfold place
  split
  next span hspan =>
    exact ⟨line, rfl, .refl, .carried (inside_of_filter_spanAt hmarked hcells hspan)⟩
  next hnone =>
    have hmarked' := hmarked.of_append hcells (head?_of_filter_spanAt hmarked hcells hnone)
    refine line_respacing hmarked' hleft hline hsame hright ?_ depth
    intro cell hcell
    obtain ⟨init, rfl⟩ := getLast?_eq_some_iff.mp hcell
    have hat : cells[left.length + init.length]? = some cell := by
      rw [hcells]
      simp
    have hpos : (left.length : Int) + (chars (init ++ [cell])).length - 1 =
        (left.length + init.length : Nat) := by
      rw [length_chars, length_append, length_singleton]
      omega
    rw [hpos, hmarked.isProtected_eq_false_iff hat]

theorem placeAll_ne_nil (spans : Array Span) (start depth : Nat) (text : List Char) :
    (placeAll spans start depth (lines text)).map (·.text) ≠ [] := by
  cases h : lines text with
  | nil => exact absurd h (lines_ne_nil text)
  | cons line others => simp [placeAll]

/-- The lines from some place on, with `left` before it. -/
theorem placeAll_respacing (hmarked : Marked recognize [] cells) (n : Nat) :
    ∀ left rest depth, rest.length = n → cells = left ++ rest → StartsLine left →
      ∃ out, joinLines ((placeAll (spansFrom 0 cells).toArray left.length depth
          (lines (chars rest))).map (·.text)) = chars out ∧
        Respacing .strict (left ++ rest) (left ++ out) ∧ Relined rest out := by
  induction n using Nat.strongRecOn with
  | ind n ih =>
    intro left rest depth hn hcells hleft
    rcases exists_line (chars rest) with hline | ⟨line, text, hline, htext⟩
    · rw [lines_of_not_mem hline]
      obtain ⟨out, hout, hmoves, hrelaid⟩ := @place_respacing cells left rest [] [] hmarked
        (by rw [hcells, append_nil]) hleft hline rfl (by rintro c ⟨⟩) depth
      refine ⟨out, hout, ?_, .last hline hrelaid⟩
      simpa using hmoves
    · obtain ⟨first, behind, rfl, rfl, hbehind⟩ := chars_eq_append htext
      obtain ⟨feed, others, rfl⟩ : ∃ feed others, behind = feed :: others :=
        exists_cons_of_ne_nil (by rintro rfl; cases hbehind)
      rw [chars_cons] at hbehind
      obtain ⟨hfeed, rfl⟩ := cons_eq_cons.mp hbehind
      rw [htext, lines_append hline, placeAll, map_cons,
        joinLines_cons (placeAll_ne_nil _ _ _ _)]
      generalize (place (spansFrom 0 cells).toArray left.length depth (chars first)).depth = depth'
      -- The later lines first, then this one.
      have hlength : (left ++ (first ++ [feed])).length =
          left.length + (chars first).length + 1 := by
        simp [Nat.add_assoc]
      obtain ⟨out, hout, hmoves, hrelined⟩ := ih others.length (by rw [← hn]; simp; omega)
        (left ++ (first ++ [feed])) others depth' rfl (by simp [hcells]) (by
          intro c hc
          rw [chars_append, chars_append, chars_cons, chars_nil, ← append_assoc,
            getLast?_concat] at hc
          cases hc
          exact hfeed)
      rw [hlength] at hout
      obtain ⟨written, hwritten, hmoves', hrelaid⟩ := @place_respacing cells left first
        (feed :: others) (feed :: out) hmarked hcells hleft hline rfl
        (by rintro c ⟨⟩; exact hfeed) depth
      refine ⟨written ++ feed :: out, ?_, Respacing.trans ?_ hmoves',
        .next hline hfeed hrelaid hrelined⟩
      · rw [hwritten, hout, chars_append, chars_cons, hfeed]
      · simpa using hmoves

/-- Indenting a text is a sequence of moves, line by line. -/
theorem exists_indented (hmarked : Marked recognize [] cells) :
    ∃ out, chars out = apply (chars cells) ∧ Respacing .strict cells out ∧ Relined cells out := by
  obtain ⟨out, hout, hmoves, hrelined⟩ := placeAll_respacing hmarked cells.length [] cells 0 rfl rfl
    (by rintro c ⟨⟩)
  refine ⟨out, ?_, hmoves, hrelined⟩
  rw [apply, scan, hmarked.scan_eq]
  exact hout.symm

theorem apply_respaced (text : List Char) : Respaced .strict text (apply text) := by
  rintro cells hmarked rfl
  obtain ⟨out, hout, hmoves, -⟩ := exists_indented hmarked
  exact ⟨out, hout, hmoves⟩

end Indentation

end StructuredText
