import StructuredText.Proofs.Settling

/-!
# Settled rows

What the rules on gaps made of a row, they keep. The rule on the last semicolon does not change
that.

Results:
1. `settle_settle`: a gap that has been settled stays as it is.
2. `Strip.IsRow.settled`: so does a row.
3. `Strip.Settled.cut`: so does a row that is cut behind a semicolon.
4. `Spacing.finalSemicolon_cells`, `finalSemicolon_feed`: the rule on the last semicolon cuts a row
   so, and keeps what it made.
-/

namespace StructuredText

open Literal Spacing

/-! ## Settled gaps -/

/-- A rule puts a space into the gap: a spaced operator is beside it, or a comma before it. -/
def filled (prev next : Option Item) : Bool :=
  prev.any Item.isSpaced || prev.any Item.isCodeComma || next.any Item.isSpaced

/-- The gap goes before a comma. -/
def commaNext (prev next : Option Item) : Bool :=
  next.any Item.isCodeComma && !prev.any Item.isComma

/-- The gap goes at the end of a line and before a colon. -/
def endsGap (next : Option Item) : Bool :=
  next.all Item.isFeed || next.any Item.isColon

section Settle

variable {prev next : Option Item} {gap : List Cell}

theorem isSign_of_isSpaced (h : prev.any Item.isSpaced = true) : prev.any Item.isSign = true := by
  cases prev with
  | none => cases h
  | some item =>
    cases item with
    | plain cell => cases h
    | sign cells spaced => rfl

theorem isComma_of_isCodeComma (h : prev.any Item.isCodeComma = true) :
    prev.any Item.isComma = true := by
  cases prev with
  | none => cases h
  | some item =>
    cases item with
    | plain cell =>
      rw [show cell = ⟨',', .code⟩ from beq_iff_eq.mp h]
      rfl
    | sign cells spaced => cases h

theorem collapseChange_collapseChange :
    collapseChange prev (collapseChange prev gap next) next = collapseChange prev gap next := by
  by_cases hwide : (gap.all Cell.isCode && (2 ≤ gap.length || gap.head?.any (·.char == '\t'))) =
    true
  · have hspace : collapseChange prev gap next = codeCells [' '] := if_pos hwide
    rw [hspace]
    rfl
  · have hkept : collapseChange prev gap next = gap := if_neg hwide
    rw [hkept, hkept]

/-- A gap with a space behind it becomes a space. -/
theorem collapseChange_space (hgap : gap.all Cell.isCode = true) :
    collapseChange prev (gap ++ codeCells [' ']) next = codeCells [' '] := by
  cases gap with
  | nil => rfl
  | cons cell gap =>
    refine if_pos ?_
    rw [List.all_append, hgap]
    simp [codeCells, Cell.isCode]

theorem commaChange_eq : commaChange prev gap next =
    if prev.any Item.isCodeComma then codeCells [' '] else if commaNext prev next then []
    else gap := by
  rw [commaChange, TokenRule.change, commaNext]
  cases hprev : prev.any Item.isCodeComma with
  | true => simp [isComma_of_isCodeComma hprev, commaRule]
  | false => cases prev.any Item.isComma <;> cases next.any Item.isCodeComma <;> simp [commaRule]

theorem collapseChange_operatorChange
    (hcode : next.any Item.isSpaced = true → gap.all Cell.isCode = true) :
    collapseChange prev (operatorChange prev gap next) next =
      if prev.any Item.isSpaced || next.any Item.isSpaced then codeCells [' ']
      else collapseChange prev gap next := by
  rw [operatorChange, TokenRule.change]
  cases hnext : next.any Item.isSpaced with
  | true =>
    rw [Bool.or_true, if_pos rfl]
    refine collapseChange_space ?_
    split
    · split
      · rfl
      · exact hcode hnext
    · rfl
  | false =>
    cases hspaced : prev.any Item.isSpaced with
    | true =>
      rw [isSign_of_isSpaced hspaced]
      rfl
    | false => simp

theorem isPad_of_mem_settle (hgap : ∀ cell ∈ gap, isPad cell.char = true) :
    ∀ cell ∈ settle prev gap next, isPad cell.char = true :=
  colonChange_gentle.pads _ _ _ (trimChange_gentle.pads _ _ _ (collapseChange_gentle.pads _ _ _
    (commaChange_gentle.pads _ _ _ (operatorChange_gentle.pads _ _ _ hgap))))

section

variable (hcode : filled prev next = true → gap.all Cell.isCode = true)
include hcode

/-- What the rules on operators, commas and runs make of a gap. -/
theorem collapseChange_commaChange :
    collapseChange prev (commaChange prev (operatorChange prev gap next) next) next =
      if commaNext prev next then [] else if filled prev next then codeCells [' ']
      else collapseChange prev gap next := by
  rw [commaChange_eq, filled]
  cases hprev : prev.any Item.isCodeComma with
  | true =>
    have hnot : commaNext prev next = false := by
      rw [commaNext, isComma_of_isCodeComma hprev, Bool.not_true, Bool.and_false]
    rw [hnot, Bool.or_true, Bool.true_or]
    rfl
  | false =>
    cases commaNext prev next with
    | true => rfl
    | false =>
      rw [Bool.or_false]
      refine collapseChange_operatorChange fun hnext => hcode ?_
      rw [filled, hnext, Bool.or_true]

/-- What all rules make of a gap. -/
theorem settle_eq :
    settle prev gap next =
      if commaNext prev next then [] else
        let spaced := if filled prev next then codeCells [' '] else collapseChange prev gap next
        if endsGap next && spaced.all Cell.isCode then [] else spaced := by
  rw [settle, collapseChange_commaChange hcode]
  cases commaNext prev next with
  | true => simp [trimChange, colonChange]
  | false =>
    rw [if_neg Bool.false_ne_true, if_neg Bool.false_ne_true]
    generalize (if filled prev next then codeCells [' '] else collapseChange prev gap next) = spaced
    rw [trimChange, colonChange, endsGap]
    cases next.all Item.isFeed <;> cases next.any Item.isColon <;> cases hall :
      spaced.all Cell.isCode <;> simp [hall]

/-- A gap that has been settled stays as it is. -/
theorem settle_settle :
    settle prev (settle prev gap next) next = settle prev gap next := by
  have hall : filled prev next = true → (settle prev gap next).all Cell.isCode = true := by
    intro hfilled
    rw [settle_eq hcode, hfilled]
    split
    · rfl
    · simp only [if_true]
      split <;> rfl
  rw [settle_eq hall, settle_eq hcode]
  cases commaNext prev next with
  | true => rfl
  | false =>
    cases filled prev next with
    | true => rfl
    | false =>
      simp only [Bool.false_eq_true, if_false]
      split
      next hends => simp [collapseChange]
      next hends => rw [collapseChange_collapseChange, if_neg hends]

/-- A gap that has been settled is one space at most, or no code. -/
theorem collapseChange_settle :
    collapseChange prev (settle prev gap next) next = settle prev gap next := by
  rw [settle_eq hcode]
  split
  · rfl
  · cases filled prev next with
    | true =>
      simp only [if_true]
      split <;> rfl
    | false =>
      simp only [Bool.false_eq_true, if_false]
      split
      · rfl
      · exact collapseChange_collapseChange

/-- A gap is opened only where a rule puts a space. -/
theorem filled_of_settle
    (hgap : gap = []) (hne : settle prev gap next ≠ []) : filled prev next = true := by
  by_contra hfilled
  rw [settle_eq hcode, hgap] at hne
  simp [hfilled, collapseChange] at hne

/-- A gap is closed only before a comma, a colon and the end of a line. -/
theorem closed_of_settle (hgap : gap ≠ []) (hnil : settle prev gap next = []) :
    commaNext prev next = true ∨ endsGap next = true := by
  by_contra hnot
  rw [not_or, Bool.not_eq_true, Bool.not_eq_true] at hnot
  rw [settle_eq hcode, hnot.1, hnot.2] at hnil
  simp only [Bool.false_eq_true, if_false, Bool.false_and] at hnil
  split at hnil
  · cases hnil
  · rw [collapseChange] at hnil
    split at hnil
    · cases hnil
    · exact hgap hnil

end

/-- A gap that is not all code is kept. -/
theorem settle_code (hcode : filled prev next = true ∨ commaNext prev next = true →
    gap.all Cell.isCode = true) :
    settle prev gap next = gap ∨
      gap.all Cell.isCode = true ∧ (settle prev gap next).all Cell.isCode = true := by
  by_cases hall : gap.all Cell.isCode = true
  · refine .inr ⟨hall, ?_⟩
    rw [settle_eq fun h => hcode (.inl h)]
    have hcollapse : (collapseChange prev gap next).all Cell.isCode = true := by
      rw [collapseChange]
      split
      · rfl
      · exact hall
    split
    · rfl
    · simp only
      split
      · split <;> rfl
      · split
        · rfl
        · exact hcollapse
  · refine .inl ?_
    have hfilled : filled prev next = false := by
      rw [Bool.eq_false_iff]
      exact fun h => hall (hcode (.inl h))
    have hcomma : commaNext prev next = false := by
      rw [Bool.eq_false_iff]
      exact fun h => hall (hcode (.inr h))
    have hkept : collapseChange prev gap next = gap := by
      rw [collapseChange, if_neg (by simp [hall])]
    rw [settle_eq fun h => hcode (.inl h), hfilled, hcomma]
    simp [hkept, hall]

end Settle

/-! ## Settled rows -/

variable {item : Item} {following : List Char}

theorem Item.Fits.isCode_of_isSpaced (h : item.Fits following) (hspaced : item.isSpaced = true) :
    item.isCode = true := by
  cases item with
  | plain cell => cases hspaced
  | sign cells spaced =>
    have hsign : spacesSign cells following = true := h.2 ▸ hspaced
    exact (Bool.and_eq_true_iff.mp hsign).1

theorem Item.isCode_of_isCodeComma (h : item.isCodeComma = true) :
    item.isCode = true := by
  cases item with
  | plain cell =>
    rw [show cell = ⟨',', .code⟩ from beq_iff_eq.mp h]
    rfl
  | sign cells spaced => cases h

/-- A gap that a rule puts a space into or takes before a comma is beside an item of code. -/
theorem isCode_of_filled {prev next : Option Item}
    (hprev : ∀ item ∈ prev, ∃ following, item.Fits following)
    (hnext : ∀ item ∈ next, ∃ following, item.Fits following)
    (h : filled prev next = true ∨ commaNext prev next = true) :
    prev.any Item.isCode = true ∨ next.any Item.isCode = true := by
  have hspaced : ∀ beside : Option Item, (∀ item ∈ beside, ∃ following, item.Fits following) →
      beside.any Item.isSpaced = true → beside.any Item.isCode = true := by
    intro beside hfits hspaced
    obtain ⟨item, rfl, hitem⟩ := (Option.any_eq_true _ _).mp hspaced
    obtain ⟨following, hfits⟩ := hfits item rfl
    exact hfits.isCode_of_isSpaced hitem
  rw [filled, commaNext, Bool.or_eq_true, Bool.or_eq_true, Bool.and_eq_true] at h
  rcases h with ((h | h) | h) | ⟨h, -⟩
  · exact .inl (hspaced prev hprev h)
  · obtain ⟨item, rfl, hitem⟩ := (Option.any_eq_true _ _).mp h
    exact .inl (Item.isCode_of_isCodeComma hitem)
  · exact .inr (hspaced next hnext h)
  · obtain ⟨item, rfl, hitem⟩ := (Option.any_eq_true _ _).mp h
    exact .inr (Item.isCode_of_isCodeComma hitem)

namespace Strip

variable {strip : Strip} {prev : Option Item}

/-- A gap that a rule puts a space into or takes before a comma is code. -/
theorem Clear.all_isCode (hclear : strip.Clear prev) (hreads : strip.Reads)
    (hprev : ∀ item ∈ prev, ∃ following, item.Fits following)
    (hfilled : filled prev strip.first = true ∨ commaNext prev strip.first = true) :
    strip.gap.all Cell.isCode = true := by
  refine StructuredText.all_isCode ?_
  have hcode := isCode_of_filled hprev hreads.first_fits hfilled
  cases strip with
  | last gap => exact hclear (hcode.resolve_right nofun)
  | next gap item rest => exact hclear.1 hcode

/-- Two changes make the same of a row if they make the same of its gaps. -/
theorem regap_congr {change change' : GapChange}
    (h : ∀ prev gap next, (filled prev next = true → gap.all Cell.isCode = true) →
      change prev gap next = change' prev gap next) (hreads : strip.Reads) :
    ∀ prev, (∀ item ∈ prev, ∃ following, item.Fits following) → strip.Clear prev →
      strip.regap change prev = strip.regap change' prev := by
  induction strip with
  | last gap =>
    intro prev hprev hclear
    exact congrArg Strip.last (h prev gap none fun hfilled =>
      hclear.all_isCode hreads hprev (.inl hfilled))
  | next gap item rest ih =>
    intro prev hprev hclear
    have hgap := h prev gap (some item) fun hfilled => hclear.all_isCode hreads hprev (.inl hfilled)
    have hrest := ih hreads.2.2 (some item) (by rintro _ ⟨⟩; exact ⟨_, hreads.2.1⟩) hclear.2
    rw [Strip.regap, Strip.regap, hgap, hrest]

/-- All gaps of the row are settled. -/
structure Settled (prev : Option Item) (strip : Strip) : Prop where
  settle : strip.regap StructuredText.settle prev = strip
  collapse : strip.regap collapseChange prev = strip

/-- The rules on gaps settle a row. -/
theorem IsRow.settled (h : strip.IsRow) :
    (strip.regap StructuredText.settle none).Settled none where
  settle := by
    rw [regap_regap]
    exact regap_congr (fun _ _ _ => settle_settle) h.reads none (by simp) (h.marked.clear h.reads)
  collapse := by
    rw [regap_regap]
    exact regap_congr (fun _ _ _ => collapseChange_settle) h.reads none (by simp)
      (h.marked.clear h.reads)

end Strip

/-! ## The end of a text -/

/-- A semicolon is an item of its own. -/
theorem Item.Fits.eq_semicolon (h : item.Fits following) {left right : List Cell}
    (hcells : item.cells = left ++ ⟨';', .code⟩ :: right) :
    item = .plain ⟨';', .code⟩ ∧ left = [] ∧ right = [] := by
  cases item with
  | plain cell =>
    rcases List.singleton_eq_append_iff.mp hcells with ⟨rfl, hright⟩ | ⟨-, hright⟩
    · obtain ⟨rfl, rfl⟩ := List.cons_eq_cons.mp hright
      exact ⟨rfl, rfl, rfl⟩
    · cases hright
  | sign cells spaced =>
    have hnot : ∀ sign ∈ operators, ';' ∉ sign := by decide
    refine absurd ?_ (hnot _ (signAt_eq_some h.1).1)
    rw [show cells = left ++ ⟨';', .code⟩ :: right from hcells]
    simp

namespace Strip

/-- A row that is settled is so with a line feed in place of what stands behind a semicolon. -/
theorem Settled.cut {strip : Strip} {right : List Cell} : ∀ {prev : Option Item} {left : List Cell},
    strip.Settled prev → strip.Reads → strip.cells = left ++ ⟨';', .code⟩ :: right →
    ∃ cut : Strip, cut.cells = left ++ codeCells [';', '\n'] ∧ cut.Reads ∧ cut.Settled prev := by
  induction strip with
  | last gap =>
    intro prev left _ hreads hcells
    have := hreads ⟨';', .code⟩ (by rw [show gap = _ from hcells]; simp)
    exact absurd this (by decide)
  | next gap item rest ih =>
    intro prev left hsettled hreads hcells
    obtain ⟨hpads, hfits, hrest⟩ := hreads
    obtain ⟨hgap, -, hsettle⟩ := Strip.next.inj hsettled.settle
    obtain ⟨hgap', -, hcollapse⟩ := Strip.next.inj hsettled.collapse
    obtain ⟨middle, rfl, hmiddle⟩ : ∃ middle, left = gap ++ middle ∧
        item.cells ++ rest.cells = middle ++ ⟨';', .code⟩ :: right := by
      rcases List.append_eq_append_iff.mp hcells with ⟨middle, rfl, heq⟩ | ⟨tail, rfl, heq⟩
      · exact ⟨middle, rfl, heq⟩
      · cases tail with
        | nil => exact ⟨[], by simp, by simpa using heq.symm⟩
        | cons cell tail =>
          obtain ⟨rfl, -⟩ := List.cons_eq_cons.mp heq
          exact absurd (hpads ⟨';', .code⟩ (by simp)) (by decide)
    -- The semicolon is behind the first item, or it is that item.
    have hlater : ∀ middle, rest.cells = middle ++ ⟨';', .code⟩ :: right →
        ∃ cut : Strip, cut.cells = gap ++ (item.cells ++ middle) ++ codeCells [';', '\n'] ∧
          cut.Reads ∧ cut.Settled prev := by
      intro middle hrest'
      obtain ⟨cut, hcut, hreads, hsettled'⟩ := ih ⟨hsettle, hcollapse⟩ hrest hrest'
      have hhead : (chars cut.cells).head? = (chars rest.cells).head? := by
        rw [hcut, hrest']
        cases middle <;> rfl
      refine ⟨.next gap item cut, by rw [Strip.cells, hcut]; simp,
        ⟨hpads, hfits.congr (.inl hhead), hreads⟩, ?_, ?_⟩
      · rw [Strip.regap, hgap, hsettled'.settle]
      · rw [Strip.regap, hgap', hsettled'.collapse]
    rcases List.append_eq_append_iff.mp hmiddle with ⟨tail, rfl, hrest'⟩ | ⟨tail, hitem, hright⟩
    · exact hlater tail hrest'
    · cases tail with
      | nil =>
        rw [List.append_nil] at hitem
        obtain ⟨cut, hcut, hboth⟩ := hlater [] hright.symm
        exact ⟨cut, by rw [hcut, List.append_nil, hitem], hboth⟩
      | cons cell tail =>
        obtain ⟨rfl, -⟩ := List.cons_eq_cons.mp hright
        obtain ⟨rfl, rfl, -⟩ := hfits.eq_semicolon hitem
        refine ⟨.next gap (.plain ⟨';', .code⟩) (.next [] (.plain ⟨'\n', .code⟩) (.last [])),
          by simp [Strip.cells, Item.cells, codeCells],
          ⟨hpads, hfits, by simp, ⟨by decide, by decide⟩, by simp [Strip.Reads]⟩, ?_, ?_⟩
        · rw [Strip.regap, hgap]
          rfl
        · rw [Strip.regap, hgap']
          rfl

end Strip

/-- The rule on the last semicolon puts a line feed in place of the blanks at the end, or does
nothing. -/
theorem Rewrites.finalSemicolon_cases {before : List Char} {cells out : List Cell}
    (h : Rewrites (.ofReader finalSemicolon) id before cells out) :
    out = cells ∨ ∃ left gap, cells = left ++ codeCells (';' :: gap) ∧
      out = left ++ codeCells [';', '\n'] ∧ (∀ c ∈ gap, isBlank c = true) ∧ 2 ≤ gap.length := by
  induction h with
  | nil => exact .inl rfl
  | @miss before cell rest out _ _ ih =>
    rcases ih with rfl | ⟨left, gap, rfl, rfl, hgap⟩
    · exact .inl rfl
    · exact .inr ⟨cell :: left, gap, rfl, rfl, hgap⟩
  | @blocked before block rest out value hfind _ hrest _ =>
    obtain ⟨hnil, -⟩ :=
      @Rule.Spec.holds _ _ finalSemicolon_spec before _ _ _ (by rwa [length_chars])
    obtain rfl := List.map_eq_nil_iff.mp hnil
    obtain ⟨-, rfl⟩ | ⟨_, _, _, hcons, -⟩ | ⟨block, _, _, _, hsplit, hne, -⟩ := hrest.inv
    · exact .inl rfl
    · cases hcons
    · exact absurd (List.append_eq_nil_iff.mp hsplit.symm).1 hne
  | @hit before block rest out value hfind _ hcode hrest _ =>
    obtain ⟨hnil, hwritten, gap, hblock, hgap, hlength, -⟩ :=
      @Rule.Spec.holds _ _ finalSemicolon_spec before _ _ _ (by rwa [length_chars])
    obtain rfl := List.map_eq_nil_iff.mp hnil
    obtain ⟨-, rfl⟩ | ⟨_, _, _, hcons, -⟩ | ⟨block, _, _, _, hsplit, hne, -⟩ := hrest.inv
    · refine .inr ⟨[], gap, ?_, ?_, hgap, hlength⟩
      · rw [List.append_nil, List.nil_append, ← hblock, codeCells_chars hcode]
      · rw [List.append_nil, List.nil_append, id, hwritten]
    · cases hcons
    · exact absurd (List.append_eq_nil_iff.mp hsplit.symm).1 hne

namespace Spacing

/-- What the rule on the last semicolon makes of a text. -/
theorem finalSemicolon_cells {cells : List Cell} (h : Marked recognizeTyped [] cells) :
    finalSemicolon.apply (chars cells) = chars cells ∨
      ∃ left gap, cells = left ++ codeCells (';' :: gap) ∧
        finalSemicolon.apply (chars cells) = chars (left ++ codeCells [';', '\n']) ∧
        Marked recognizeTyped [] (left ++ codeCells [';', '\n']) ∧ (∀ c ∈ gap, isBlank c = true) ∧
        2 ≤ gap.length := by
  have htyped : finalSemicolon.apply (chars cells) = finalSemicolon.applyTyped (chars cells) := by
    refine Rule.apply_eq_applyTyped finalSemicolon_spec ?_ _
    rintro block rest written ⟨-, -, gap, rfl, hgap, -⟩ c hc
    rcases List.mem_cons.mp hc with rfl | hc
    · decide
    · exact isTypedChar_of_isBlank (hgap c hc)
  obtain ⟨out, hwalk, hout⟩ := replaceOutside_rewrites finalSemicolon_spec.isProper h id
  rw [htyped, Rule.applyTyped, h.scanTyped_eq, hout]
  rcases hwalk.finalSemicolon_cases with rfl | ⟨left, gap, hcells, rfl, hgap⟩
  · exact .inl rfl
  · have hmoves := hwalk.respacing finalSemicolon_spec (@finalSemicolon_respaces .strict _ _) h
    exact .inr ⟨left, gap, hcells, rfl, hmoves.strict_markedTyped h, hgap⟩

/-- One line feed behind the last semicolon stays. -/
theorem finalSemicolon_feed {left : List Cell}
    (h : Marked recognizeTyped [] (left ++ codeCells [';', '\n'])) :
    finalSemicolon.apply (chars (left ++ codeCells [';', '\n'])) =
      chars (left ++ codeCells [';', '\n']) := by
  rcases finalSemicolon_cells h with hsame | ⟨other, gap, hcells, -, -, hgap, hlength⟩
  · exact hsame
  · -- The semicolon would be one of the blanks at the end, which are two or more.
    have hreverse := congrArg (fun cells => (chars cells).reverse) hcells
    rcases hgap' : gap.reverse with _ | ⟨d, _ | ⟨c, tail⟩⟩
    · simp [List.reverse_eq_nil_iff.mp hgap'] at hlength
    · rw [← List.length_reverse, hgap'] at hlength
      simp at hlength
    · simp only [chars_append, chars_codeCells, List.reverse_append, List.reverse_cons,
        hgap'] at hreverse
      have hblank := hgap ';' (by
        obtain rfl : ';' = c := (List.cons_eq_cons.mp (List.cons_eq_cons.mp hreverse).2).1
        rw [← List.mem_reverse, hgap']
        simp)
      exact absurd hblank (by decide)

end Spacing

end StructuredText
