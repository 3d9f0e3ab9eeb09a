import StructuredText.Proofs.Layout

/-!
# Blank lines

The code of a text has no two blank lines in a row once they are reduced. Indentation empties lines
of blanks, so that it can bring further blank lines about: those with blanks other than spaces and
tabs, which are not reduced. In a text without such blanks the bound holds to the end.

Results:
1. `LineBreak.reduceBlankLines_fewFeeds`: reducing leaves at most two line feeds in a row.
2. `Relined.fewFeeds`, `HeaderJoin.fewFeeds`: later passes put no more in a row.
3. `Format.canonical_blankLines`: a formatted text has no two blank lines in a row.
-/

namespace StructuredText

open List Literal

variable {cells out : List Cell} {text : List Char}

/-! ## Line feeds in a row -/

/-- The code has no three line feeds in a row. -/
def FewFeeds (cells : List Cell) : Prop :=
  ¬ [feed, feed, feed] <:+: cells

variable {rest line : List Cell} {before document : List Char} {licence : Licence}

theorem fewFeeds_cons {cell : Cell} :
    FewFeeds (cell :: rest) ↔ ¬ (cell = feed ∧ [feed, feed] <+: rest) ∧ FewFeeds rest := by
  rw [FewFeeds, infix_cons_iff, not_or, cons_prefix_cons, eq_comm]
  rfl

theorem FewFeeds.of_append {first rest : List Cell} (h : FewFeeds (first ++ rest)) :
    FewFeeds rest :=
  fun hfeeds => h (hfeeds.trans (suffix_append first rest).isInfix)

/-- Cells of which none is a line feed of the code can stand before the others. -/
theorem FewFeeds.append {block rest : List Cell} (h : FewFeeds rest) (hblock : feed ∉ block) :
    FewFeeds (block ++ rest) := by
  induction block with
  | nil => exact h
  | cons cell block ih =>
    rw [mem_cons, not_or] at hblock
    exact fewFeeds_cons.mpr ⟨fun hfeeds => hblock.1 hfeeds.1.symm, ih hblock.2⟩

/-- Cells of which none is a line feed of the code can stand between others. -/
theorem FewFeeds.append_append {left block right : List Cell} (hleft : FewFeeds left)
    (hright : FewFeeds right) (hblock : feed ∉ block) (hne : block ≠ []) :
    FewFeeds (left ++ (block ++ right)) := by
  obtain ⟨cell, block, rfl⟩ := exists_cons_of_ne_nil hne
  have hcell : feed ≠ cell := fun h => hblock (h ▸ mem_cons_self)
  induction left with
  | nil => exact hright.append hblock
  | cons first left ih =>
    obtain ⟨hfirst, hleft⟩ := fewFeeds_cons.mp hleft
    refine fewFeeds_cons.mpr ⟨?_, ih hleft⟩
    rintro ⟨rfl, hfeeds⟩
    refine hfirst ⟨rfl, ?_⟩
    match left with
    | [] | [second] => simp [hcell] at hfeeds
    | second :: third :: left => simpa using hfeeds

/-! ## Reducing blank lines -/

/-- How many line feeds a text starts with. -/
def leadingFeeds (text : List Char) : Nat :=
  (text.takeWhile (· == '\n')).length

theorem leadingFeeds_cons {c : Char} {rest : List Char} :
    leadingFeeds (c :: rest) = if c = '\n' then leadingFeeds rest + 1 else 0 := by
  unfold leadingFeeds
  split
  next h => simp [h]
  next h => simp [h]

theorem le_leadingFeeds_append {block rest : List Char} (hblock : ∀ c ∈ block, c = '\n') :
    block.length ≤ leadingFeeds (block ++ rest) := by
  rw [leadingFeeds, takeWhile_append_of_pos (by simpa using hblock), length_append]
  exact Nat.le_add_right _ _

theorem two_le_leadingFeeds (h : [feed, feed] <+: cells) : 2 ≤ leadingFeeds (chars cells) := by
  obtain ⟨rest, rfl⟩ := h
  simp [feed, leadingFeeds_cons]

namespace LineBreak

/-- Where the rule reads nothing, no three line feeds stand in a row. -/
theorem leadingFeeds_le_two {cursor : Cursor} (h : lineFeeds cursor = none) :
    leadingFeeds cursor.after ≤ 2 := by
  cases hrun : cursor.someRun (· == '\n') with
  | none =>
    cases hafter : cursor.after with
    | nil => simp [leadingFeeds]
    | cons c rest =>
      rw [leadingFeeds_cons]
      split
      next hc => simp [Cursor.someRun, Cursor.next, hafter, hc] at hrun
      next => omega
  | some stop =>
    have hpos := (Cursor.reads_someRun hrun).2.1.pos
    simp only [lineFeeds, hrun, Option.bind_eq_bind, Option.bind_some, ite_eq_right_iff] at h
    rw [leadingFeeds]
    by_contra hlt
    cases h (by omega)

end LineBreak

/-- A walk that reduces line feeds leaves at most two in a row. The second part carries the
induction: line feeds that are kept do not become more. -/
theorem Rewrites.fewFeeds (h : Rewrites (.ofReader LineBreak.lineFeeds) id before cells out) :
    ∀ first, Marked recognize [] (first ++ cells) → FewFeeds out ∧
      (leadingFeeds (chars cells) ≤ 2 → leadingFeeds (chars out) ≤ leadingFeeds (chars cells)) := by
  induction h with
  | nil => exact fun _ _ => ⟨by simp [FewFeeds], fun _ => Nat.le_refl _⟩
  | @miss before cell rest out hfind _ ih =>
    intro first hmarked
    obtain ⟨hfew, hleading⟩ := ih (first ++ [cell]) (by simpa using hmarked)
    have hle : leadingFeeds (cell.char :: chars rest) ≤ 2 :=
      LineBreak.leadingFeeds_le_two (Option.map_eq_none_iff.mp hfind)
    simp only [chars_cons, leadingFeeds_cons] at hle ⊢
    by_cases hfeed : cell.char = '\n'
    · simp only [if_pos hfeed] at hle ⊢
      have hrest := hleading (by omega)
      refine ⟨fewFeeds_cons.mpr ⟨fun hfeeds => ?_, hfew⟩, fun _ => by omega⟩
      have := two_le_leadingFeeds hfeeds.2
      omega
    · simp only [if_neg hfeed] at hle ⊢
      exact ⟨fewFeeds_cons.mpr ⟨fun hfeeds => hfeed (by rw [hfeeds.1]; rfl), hfew⟩,
        fun _ => Nat.le_refl _⟩
  | @blocked before block rest out value hfind hnot _ ih =>
    intro first hmarked
    have hreduces := LineBreak.lineFeeds_spec.holds (hfind.trans (by rw [length_chars]))
    have hlong := @le_leadingFeeds_append _ (chars rest) hreduces.feeds
    have := hreduces.length
    refine ⟨(ih (first ++ block) (by simpa using hmarked)).1.append fun hmem => ?_, fun hle => ?_⟩
    · -- With one code point in a literal, all line feeds are in it.
      obtain ⟨cell, hcell, hrole⟩ := hnot
      have hblank : ∀ c ∈ chars block, isBlank c = true := fun c hc =>
        hreduces.feeds c hc ▸ rfl
      rcases hmarked.code_or_not_code hblank with hall | hnone
      · exact hrole (hall cell hcell)
      · exact hnone feed hmem rfl
    · rw [chars_append] at hle
      omega
  | @hit before block rest out value hfind _ _ _ ih =>
    intro first hmarked
    have hreduces := LineBreak.lineFeeds_spec.holds (hfind.trans (by rw [length_chars]))
    have hlong := @le_leadingFeeds_append _ (chars rest) hreduces.feeds
    have := hreduces.length
    obtain ⟨hfew, hleading⟩ := ih (first ++ block) (by simpa using hmarked)
    have hnone : leadingFeeds (chars rest) = 0 := by
      cases hrest : chars rest with
      | nil => rfl
      | cons c text =>
        have hc := hreduces.ends c (by rw [hrest]; rfl)
        rw [leadingFeeds_cons, if_neg hc]
    have hout := hleading (by omega)
    refine ⟨?_, fun hle => ?_⟩
    · rw [id, hreduces.written]
      have hhead : ¬ [feed] <+: out := by
        rintro ⟨tail, rfl⟩
        simp [feed, leadingFeeds_cons] at hout
        omega
      refine fewFeeds_cons.mpr ⟨fun hfeeds => ?_, fewFeeds_cons.mpr ⟨fun hfeeds => ?_, hfew⟩⟩
      · exact hhead (cons_prefix_cons.mp hfeeds.2).2
      · exact hhead ((prefix_append [feed] [feed]).trans hfeeds.2)
    · rw [chars_append] at hle
      omega

/-- Reducing leaves at most two line feeds in a row. -/
theorem LineBreak.reduceBlankLines_fewFeeds (text : List Char) :
    MarkedAs FewFeeds (reduceBlankLines text) := by
  obtain ⟨cells, hcells, hmarked⟩ := exists_marked_recognize (blankLine.apply text)
  obtain ⟨out, hwalk, hout⟩ := Rule.apply_rewrites lineFeeds_spec hmarked
  have hpatched := hwalk.patched (fun _ _ _ _ => lineFeeds_spec.holds) [] hmarked
  refine ⟨out, ?_, hpatched.marked .strict lineFeeds_respaces hmarked,
    (hwalk.fewFeeds [] hmarked).1⟩
  rw [reduceBlankLines, ← hcells, hout]

/-! ## Blanks that formatting writes -/

/-- All blanks of the code are spaces, tabs and line feeds. -/
def LayoutBlanks (cells : List Cell) : Prop :=
  ∀ cell ∈ cells, cell.role = .code → isBlank cell.char = true → isLayoutBlank cell.char = true

theorem layoutBlanks_append {first : List Cell} :
    LayoutBlanks (first ++ rest) ↔ LayoutBlanks first ∧ LayoutBlanks rest := by
  simp only [LayoutBlanks, mem_append, or_imp, forall_and]

theorem layoutBlanks_codeCells (h : ∀ c ∈ text, isLayoutBlank c = true) :
    LayoutBlanks (codeCells text) := by
  intro cell hcell _ _
  obtain ⟨c, hc, rfl⟩ := mem_map.mp hcell
  exact h c hc

theorem Respacing.layoutBlanks (h : Respacing licence cells out) (hblanks : LayoutBlanks cells) :
    LayoutBlanks out := by
  induction h with
  | refl => exact hblanks
  | tail _ hmove ih =>
    cases hmove with
    | mk _ hgap _ _ _ _ =>
      simp only [layoutBlanks_append] at ih ⊢
      exact ⟨⟨ih.1.1, layoutBlanks_codeCells hgap⟩, ih.2⟩

theorem Respaced.layoutBlanks {after : List Char} (h : Respaced licence before after)
    (hblanks : MarkedAs LayoutBlanks before) :
    MarkedAs LayoutBlanks after := by
  obtain ⟨cells, hcells, hmarked, hblanks⟩ := hblanks
  obtain ⟨out, hout, hmoves⟩ := h cells hmarked hcells
  exact ⟨out, hout, hmoves.marked hmarked, hmoves.layoutBlanks hblanks⟩

/-- A letter is no blank. -/
theorem Recast.layoutBlanks (h : Recast cells out) (hblanks : LayoutBlanks cells) :
    LayoutBlanks out := by
  induction h with
  | nil => exact hblanks
  | @cons cell cell' _ _ hcell _ ih =>
    rw [LayoutBlanks, forall_mem_cons] at hblanks ⊢
    refine ⟨fun hcode hblank => ?_, ih hblanks.2⟩
    obtain ⟨hrole, heq | ⟨-, hletter, -⟩, -⟩ := hcell
    · rw [← heq] at hblank ⊢
      exact hblanks.1 (hrole ▸ hcode) hblank
    · simp [isLetter, isWordChar_of_isBlank hblank] at hletter

theorem Casing.apply_layoutBlanks [Host] (h : MarkedAs LayoutBlanks text) :
    ∃ cased, apply Vocabulary.standard text = .ok cased ∧ MarkedAs LayoutBlanks cased := by
  obtain ⟨cells, hcells, hmarked, hblanks⟩ := h
  obtain ⟨cased, hcased, hrecast⟩ := apply_standard text
  obtain ⟨middle, out, rfl, hfirst, hsecond⟩ := hrecast cells hmarked hcells
  have hmiddle : Marked recognize [] middle := hfirst.marked hmarked
  exact ⟨_, hcased, out, rfl, hsecond.marked hmiddle,
    hsecond.layoutBlanks (hfirst.layoutBlanks hblanks)⟩

theorem Spacing.Repadded.layoutBlanks (h : Repadded cells out) (hblanks : LayoutBlanks cells) :
    LayoutBlanks out := by
  induction h with
  | nil => exact hblanks
  | code _ _ ih =>
    rw [LayoutBlanks, forall_mem_cons] at hblanks ⊢
    exact ⟨hblanks.1, ih hblanks.2⟩
  | literal _ _ _ ih =>
    rw [layoutBlanks_append] at hblanks ⊢
    exact ⟨fun cell hcell hcode => absurd hcode (role_of_mem_literalCells hcell), ih hblanks.2⟩

namespace Spacing

theorem padComments_layoutBlanks (h : MarkedAs LayoutBlanks text) :
    MarkedAs LayoutBlanks (padComments text) := by
  obtain ⟨spaced, hspaced, hpadded⟩ := exists_padded text
  obtain ⟨cells, hcells, hmarked, hblanks⟩ := hspaced.layoutBlanks h
  obtain ⟨out, hout, hrepadded⟩ := hpadded cells hmarked hcells
  exact ⟨out, hout, hrepadded.marked [], hrepadded.layoutBlanks hblanks⟩

theorem spaceOperators_layoutBlanks (h : MarkedAs LayoutBlanks text) :
    MarkedAs LayoutBlanks (spaceOperators text) :=
  (spaceOperators_respaced text).layoutBlanks ((operator_respaced text).layoutBlanks h)

end Spacing

/-! ## Later passes -/

/-- Indentation empties no line of spaces and tabs, as there is none in a trimmed text. -/
theorem Relaid.eq_nil {tail : List Cell} (h : Relaid tail line out) (hout : out = [])
    (hline : '\n' ∉ chars line) (hbare : EndsBare line) (hblanks : LayoutBlanks line) :
    line = [] := by
  cases h with
  | carried _ => exact hout
  | @placed gap trailing content level hgap htrailing _ _ _ _ =>
    obtain ⟨-, rfl⟩ := append_eq_nil_iff.mp hout
    rw [nil_append, ← codeCells_append] at hline hbare hblanks ⊢
    have hblank : ∀ c ∈ gap ++ trailing, isBlank c = true := by
      intro c hc
      exact (mem_append.mp hc).elim (hgap c) (htrailing c)
    generalize gap ++ trailing = blanks at hline hbare hblanks hblank ⊢
    rcases eq_nil_or_concat blanks with rfl | ⟨init, c, rfl⟩
    · rfl
    rw [concat_eq_append] at hline hbare hblanks hblank
    have hlayout := hblanks ⟨c, .code⟩ (by simp) rfl (hblank c (by simp))
    have hpad := hbare ⟨c, .code⟩ (by simp) rfl
    rw [isLayoutBlank, hpad, Bool.false_or, beq_iff_eq] at hlayout
    refine absurd ?_ hline
    rw [chars_codeCells, ← hlayout]
    exact mem_append_right _ mem_cons_self

theorem feed_not_mem (h : '\n' ∉ chars line) : feed ∉ line :=
  fun hmem => h (mem_map_of_mem hmem)

/-- Indentation puts no more line feeds in a row, at the start of the text or further on. -/
theorem Relined.fewFeeds (h : Relined cells out) (htrimmed : Trimmed cells)
    (hblanks : LayoutBlanks cells) :
    (∀ n, List.replicate n feed <+: out → List.replicate n feed <+: cells) ∧
      (FewFeeds cells → FewFeeds out) := by
  -- Line feeds at the start of a line that is not empty.
  have hstart : ∀ {line rest : List Cell} {n : Nat}, '\n' ∉ chars line → line ≠ [] →
      List.replicate n feed <+: line ++ rest → n = 0 := by
    intro line rest n hline hne hfeeds
    obtain ⟨cell, line, rfl⟩ := exists_cons_of_ne_nil hne
    cases n with
    | zero => rfl
    | succ n =>
      have := (cons_prefix_cons.mp hfeeds).1
      exact absurd (by rw [this]; exact mem_cons_self) (feed_not_mem hline)
  induction h with
  | @last line out hline hrelaid =>
    have hfree := hrelaid.not_mem hline
    refine ⟨fun n hfeeds => ?_, fun _ => ?_⟩
    · have hn : n = 0 := by
        by_cases hne : out = []
        · rw [hne, prefix_nil] at hfeeds
          simpa using hfeeds
        · exact hstart hfree hne (hfeeds.trans (prefix_append out []))
      rw [hn]
      exact nil_prefix
    · have : FewFeeds ([] : List Cell) := by simp [FewFeeds]
      simpa using this.append (feed_not_mem hfree)
  | @next line out rest rest' ending hline hending hrelaid _ ih =>
    obtain ⟨hbare, hrest⟩ := (trimmed_line hline hending).mp htrimmed
    obtain ⟨hblanksLine, hblanksRest⟩ := layoutBlanks_append.mp hblanks
    have hblanksLater : LayoutBlanks rest := fun cell hcell =>
      hblanksRest cell (mem_cons_of_mem _ hcell)
    obtain ⟨hleading, hfew⟩ := ih hrest hblanksLater
    have hfree := hrelaid.not_mem hline
    refine ⟨fun n hfeeds => ?_, fun hcells => ?_⟩
    · by_cases hnil : out = []
      · cases hrelaid.eq_nil hnil hline hbare hblanksLine
        rw [hnil] at hfeeds
        cases n with
        | zero => exact nil_prefix
        | succ n =>
          obtain ⟨hcell, hlater⟩ := cons_prefix_cons.mp hfeeds
          exact cons_prefix_cons.mpr ⟨hcell, hleading n hlater⟩
      · rw [hstart hfree hnil hfeeds]
        exact nil_prefix
    · obtain ⟨hfirst, hlater⟩ := fewFeeds_cons.mp hcells.of_append
      refine FewFeeds.append (fewFeeds_cons.mpr ⟨?_, hfew hlater⟩) (feed_not_mem hfree)
      exact fun hfeeds => hfirst ⟨hfeeds.1, hleading 2 hfeeds.2⟩

/-- Putting a header on one line puts no more line feeds in a row. -/
theorem HeaderJoin.fewFeeds (h : HeaderJoin cells out) (hfew : FewFeeds cells) : FewFeeds out := by
  cases h with
  | @mk left block line right _ hline hflat _ =>
    refine FewFeeds.append_append (fun hfeeds =>
      hfew (hfeeds.trans (prefix_append _ _).isInfix))
      hfew.of_append.of_append (fun hmem => hflat feed hmem rfl rfl) ?_
    rintro rfl
    obtain ⟨c, hc, -⟩ := hline.first
    cases hc

theorem Indentation.apply_fewFeeds
    (h : MarkedAs (fun cells => Trimmed cells ∧ LayoutBlanks cells ∧ FewFeeds cells) text) :
    MarkedAs FewFeeds (apply text) := by
  obtain ⟨cells, rfl, hmarked, htrimmed, hblanks, hfew⟩ := h
  obtain ⟨out, hout, hmoves, hrelined⟩ := exists_indented hmarked
  exact ⟨out, hout, hmoves.marked hmarked, (hrelined.fewFeeds htrimmed hblanks).2 hfew⟩

namespace Format

theorem earlyPasses_layoutBlanks [Host] : ∀ pass ∈ earlyPasses Vocabulary.standard, ∀ text,
    ∃ out, pass text = .ok out ∧ (MarkedAs LayoutBlanks text → MarkedAs LayoutBlanks out) := by
  refine earlyPasses_rel (fun hcased h => ?_) fun hmoves => hmoves.layoutBlanks
  obtain ⟨_, hcased', hblanks⟩ := Casing.apply_layoutBlanks h
  cases hcased.symm.trans hcased'
  exact hblanks

theorem finish_fewFeeds (h : MarkedAs LayoutBlanks text) : MarkedAs FewFeeds (finish text) := by
  have htrimmed := Spacing.tightenColons_trimmed
    (Spacing.trimLineEnds_trimmed (Spacing.spaceOperators text))
  have hblanks := (Spacing.tightenColons_respaced _).layoutBlanks
    ((Spacing.trimLineEnds_respaced _).layoutBlanks (Spacing.spaceOperators_layoutBlanks h))
  have htrimmed' := LineBreak.reduceBlankLines_trimmed (LineBreak.breakBlocks_trimmed htrimmed)
  have hblanks' := (LineBreak.reduceBlankLines_respaced _).layoutBlanks
    ((LineBreak.breakBlocks_respaced _).layoutBlanks hblanks)
  exact Header.joinAll_markedAs HeaderJoin.fewFeeds (Indentation.apply_fewFeeds
    (htrimmed'.and (hblanks'.and (LineBreak.reduceBlankLines_fewFeeds _))))

end Format

/-! ## Formatted texts -/

/-- Whether the blanks of a document outside its literals are spaces, tabs and line feeds. -/
def hasLayoutBlanks (document : List Char) : Bool :=
  let spans := (scan document).toArray
  document.zipIdx.all fun entry =>
    !isBlank entry.1 || isLayoutBlank entry.1 || isProtected spans entry.2

/-- Three line feeds stand in a row from `pos` on, all outside the literals of the document. -/
def FeedsAt (document : List Char) (pos : Nat) : Prop :=
  ∀ i < 3, document[pos + i]? = some '\n' ∧
    isProtected (scan document).toArray (pos + i : Nat) = false

instance (document : List Char) (pos : Nat) : Decidable (FeedsAt document pos) :=
  inferInstanceAs (Decidable (∀ i < 3, _ ∧ _))

theorem markedAs_layoutBlanks (h : hasLayoutBlanks document = true) :
    MarkedAs LayoutBlanks document := by
  obtain ⟨cells, rfl, hmarked⟩ := exists_marked_recognize document
  refine ⟨cells, rfl, hmarked, fun cell hcell hcode hblank => ?_⟩
  obtain ⟨pos, hpos⟩ := mem_iff_getElem?.mp hcell
  have hentry : (cell.char, pos) ∈ (chars cells).zipIdx := by
    rw [mk_mem_zipIdx_iff_getElem?, chars, getElem?_map, hpos]
    rfl
  have hfree := (hmarked.isProtected_eq_false_iff hpos).mpr hcode
  rw [← hmarked.scan_eq] at hfree
  simpa [hblank, hfree] using all_eq_true.mp h _ hentry

theorem not_feedsAt (h : MarkedAs FewFeeds document) (pos : Nat) :
    ¬ FeedsAt document pos := by
  obtain ⟨cells, rfl, hmarked, hfew⟩ := h
  intro hfeeds
  have hat : ∀ i < 3, cells[pos + i]? = some feed := by
    intro i hi
    obtain ⟨hchar, hfree⟩ := hfeeds i hi
    rw [chars, getElem?_map, Option.map_eq_some_iff] at hchar
    obtain ⟨⟨c, role⟩, hcell, rfl⟩ := hchar
    rw [hmarked.scan_eq, hmarked.isProtected_eq_false_iff hcell] at hfree
    cases hfree
    exact hcell
  refine hfew (List.infix_iff_getElem?.mpr ⟨pos, ?_, ?_⟩)
  · have := (List.getElem?_eq_some_iff.mp (hat 2 (by decide))).1
    simp only [List.length_cons, List.length_nil]
    omega
  · intro i hi
    rw [Nat.add_comm, hat i hi]
    obtain rfl | rfl | rfl : i = 0 ∨ i = 1 ∨ i = 2 := by
      simp only [List.length_cons, List.length_nil] at hi
      omega
    all_goals rfl

namespace Format

/-- A formatted text has no three line feeds in a row outside its literals, if the blanks outside
the literals of the text are spaces, tabs and line feeds. -/
theorem canonical_blankLines [Host] (file : String) (text : List Char)
    (h : hasLayoutBlanks (normalizeNewlines text) = true) :
    ∃ formatted, canonical Vocabulary.standard file text = .ok formatted ∧
      ∀ pos, ¬ FeedsAt formatted.text pos := by
  obtain ⟨parted, hparted, hpasses⟩ := runPasses_finish (normalizeNewlines text)
  obtain ⟨formatted, hformatted, htext⟩ := canonical_of_runPasses hpasses file
  obtain ⟨_, hparted', hblanks⟩ := runPasses_rel (fun _ hblanks => hblanks)
    (fun _ _ _ hfirst hsecond hblanks => hsecond (hfirst hblanks)) earlyPasses_layoutBlanks
    (normalizeNewlines text)
  cases hparted.symm.trans hparted'
  refine ⟨formatted, hformatted, ?_⟩
  rw [htext]
  exact not_feedsAt (finish_fewFeeds
    (Spacing.padComments_layoutBlanks (hblanks (markedAs_layoutBlanks h))))

/-- Many blank lines, with spaces and tabs in them, and a comment with a form feed in it. -/
theorem canonical_blankLines_reduced :
    let text := "a;\n \n\t\n\n(*\x0c*)\n\n\n\nb;".toList
    hasLayoutBlanks (normalizeNewlines text) = true ∧
      ∃ formatted, @canonical Host.plain .standard "" text = .ok formatted ∧
        ∀ pos, ¬ FeedsAt formatted.text pos :=
  ⟨by decide +kernel, @canonical_blankLines Host.plain _ _ (by decide +kernel)⟩

/-- Lines of form feeds are no blank lines before indentation, and are empty behind it. -/
theorem canonical_feeds_of_formFeeds :
    ∃ formatted, @canonical Host.plain .standard "" "a\n\x0c\n\x0c\nb".toList = .ok formatted ∧
      FeedsAt formatted.text 1 := by
  have hfound : (@canonical Host.plain .standard "" "a\n\x0c\n\x0c\nb".toList).toOption.any
      (fun formatted => decide (FeedsAt formatted.text 1)) = true := by
    decide +kernel
  obtain ⟨formatted, hformatted, hfeeds⟩ := exists_ok_of_any hfound
  exact ⟨formatted, hformatted, of_decide_eq_true hfeeds⟩

end Format

end StructuredText
