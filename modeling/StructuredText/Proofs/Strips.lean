import StructuredText.Proofs.OperatorSpacing

/-!
# Items and gaps

A text is a row of items with gaps between them. A gap is a run of spaces and tabs. An item is a
code point, or the sign of an operator, as operators are read from left to right. A rule on spaces
and tabs keeps the items, and what it makes of a gap is decided by the gap and the items on both
sides.

Results:
1. `exists_strip`: every text is such a row.
2. `Strip.regap_regap`: two changes of gaps, one after the other, are one change.
3. `Strip.Reads.regap`: the operators are the same behind a change that is gentle.
4. `Marked.clear`: a gap beside code is code.
-/

namespace StructuredText

open List Literal Spacing

/-- A code point, or the sign of an operator. A sign is spaced if the rule on operators puts spaces
around it. -/
inductive Item where
  | plain (cell : Cell)
  | sign (cells : List Cell) (spaced : Bool)
deriving DecidableEq

namespace Item

def cells : Item → List Cell
  | .plain cell => [cell]
  | .sign cells _ => cells

def isCode (item : Item) : Bool :=
  item.cells.all Cell.isCode

def isSign : Item → Bool
  | .plain _ => false
  | .sign _ _ => true

def isSpaced : Item → Bool
  | .plain _ => false
  | .sign _ spaced => spaced

end Item

/-- Whether the rule on operators puts spaces around a sign. -/
def spacesSign (cells : List Cell) (following : List Char) : Bool :=
  cells.all Cell.isCode &&
    !(chars cells == ['*', '*'] || chars cells == ['*'] && following.head? == some ';')

/-- The item is what is read before the given text. -/
def Item.Fits (following : List Char) : Item → Prop
  | .plain cell => isPad cell.char = false ∧ [cell.char] ∉ operators
  | .sign cells spaced =>
      signAt (chars cells ++ following) = some (chars cells) ∧ spaced = spacesSign cells following

/-- Items with a gap before each and one behind the last. -/
inductive Strip where
  | last (gap : List Cell)
  | next (gap : List Cell) (item : Item) (rest : Strip)

namespace Strip

def cells : Strip → List Cell
  | .last gap => gap
  | .next gap item rest => gap ++ (item.cells ++ rest.cells)

/-- The first gap. -/
def gap : Strip → List Cell
  | .last gap | .next gap _ _ => gap

/-- The first item. -/
def first : Strip → Option Item
  | .last _ => none
  | .next _ item _ => some item

/-- The row with another first gap. -/
def withGap (gap : List Cell) : Strip → Strip
  | .last _ => .last gap
  | .next _ item rest => .next gap item rest

/-- The gaps are runs of spaces and tabs, and the items are what is read. -/
def Reads : Strip → Prop
  | .last gap => ∀ cell ∈ gap, isPad cell.char = true
  | .next gap item rest =>
      (∀ cell ∈ gap, isPad cell.char = true) ∧ item.Fits (chars rest.cells) ∧ rest.Reads

end Strip

/-- What becomes of a gap, given the items before and behind it. -/
abbrev GapChange := Option Item → List Cell → Option Item → List Cell

/-- The row with all gaps changed. `prev` is the item before it. -/
def Strip.regap (change : GapChange) (prev : Option Item) : Strip → Strip
  | .last gap => .last (change prev gap none)
  | .next gap item rest =>
      .next (change prev gap (some item)) item (rest.regap change (some item))

/-! ## Items -/

namespace Item

variable {item : Item} {following following' : List Char}

theorem Fits.ne_nil (h : item.Fits following) : item.cells ≠ [] := by
  cases item with
  | plain cell => exact cons_ne_nil _ _
  | sign cells spaced =>
    rintro rfl
    exact absurd (signAt_eq_some h.1).1 (by decide)

/-- No code point of an item is a space or tab. -/
theorem Fits.isPad_eq_false (h : item.Fits following) :
    ∀ cell ∈ item.cells, isPad cell.char = false := by
  cases item with
  | plain cell => simpa [cells] using h.1
  | sign cells spaced =>
    have hnot : ∀ sign ∈ operators, ∀ d ∈ sign, isPad d = false := by decide
    exact fun cell hcell => hnot _ (signAt_eq_some h.1).1 _ (mem_map_of_mem hcell)

/-- What is read depends on the code point behind it only where that could go on with a sign. -/
theorem Fits.congr (h : item.Fits following)
    (hsame : following'.head? = following.head? ∨
      (∀ d ∈ following'.head?, d ∉ ['=', '>', '*', ';']) ∧
        (item.isSign = true → item.isSpaced = false → following.head? ≠ some ';')) :
    item.Fits following' := by
  cases item with
  | plain cell => exact h
  | sign cells spaced =>
    obtain ⟨hsign, hspaced⟩ := h
    have hmem := (signAt_eq_some hsign).1
    rcases hsame with hsame | ⟨hhead, hsemicolon⟩
    · exact ⟨signAt_congr hsign (.inl hsame), by rw [hspaced, spacesSign, spacesSign, hsame]⟩
    · refine ⟨?_, ?_⟩
      · have hapart : Apart (chars cells) following' :=
          .of_head fun d hd hmem' => hhead d hd (by simp only [mem_cons] at hmem' ⊢; tauto)
        rw [signAt_append (fun hnil => absurd (hnil ▸ hmem) (by decide)) hapart, signAt_self hmem]
      · have hnot : (following'.head? == some ';') = false := by
          rw [beq_eq_false_iff_ne]
          exact fun heq => hhead _ heq (by decide)
        rw [hspaced, spacesSign, spacesSign, hnot]
        cases hbefore : following.head? == some ';' with
        | false => rfl
        | true =>
          -- The sign is not spaced then, so the semicolon must not go.
          have hspaced' : spaced = true := by
            by_contra hnot
            exact hsemicolon rfl (Bool.not_eq_true _ ▸ hnot) (beq_iff_eq.mp hbefore)
          rw [hspaced', spacesSign, hbefore] at hspaced
          simp only [Bool.and_true, Bool.and_false, Bool.or_false] at hspaced ⊢
          revert hspaced
          cases chars cells == ['*', '*'] <;> cases chars cells == ['*'] <;> simp

end Item

/-! ## Rows -/

theorem chars_head?_append {first second : List Cell} (hne : first ≠ []) :
    (chars (first ++ second)).head? = (chars first).head? := by
  cases first with
  | nil => exact absurd rfl hne
  | cons cell first => rfl

namespace Strip

/-- Every text is a row of items and gaps. -/
theorem exists_strip (cells : List Cell) : ∃ strip : Strip, strip.cells = cells ∧ strip.Reads := by
  induction hn : cells.length using Nat.strongRecOn generalizing cells with
  | ind n ih =>
    have hsplit := takeWhile_append_dropWhile (p := fun cell : Cell => isPad cell.char)
      (l := cells)
    have hpads : ∀ cell ∈ cells.takeWhile (fun cell => isPad cell.char), isPad cell.char = true :=
      fun cell hcell => mem_takeWhile_imp (p := fun cell : Cell => isPad cell.char) hcell
    rcases hrest : cells.dropWhile (fun cell => isPad cell.char) with _ | ⟨cell, rest⟩
    · rw [hrest, append_nil] at hsplit
      exact ⟨.last _, hsplit, hpads⟩
    · have hcell : isPad cell.char = false := by
        have := head?_dropWhile_not (fun cell : Cell => isPad cell.char) cells
        simpa [hrest] using this
      rw [hrest] at hsplit
      have hlength := congrArg List.length hsplit
      rw [length_append] at hlength
      cases hsign : signAt (chars (cell :: rest)) with
      | none =>
        obtain ⟨strip, rfl, hreads⟩ := ih rest.length (by simp at hlength; omega) rest rfl
        exact ⟨.next _ (.plain cell) strip, hsplit, hpads,
          ⟨hcell, not_mem_operators_of_signAt hsign⟩, hreads⟩
      | some sign =>
        obtain ⟨hmem, tail, htail⟩ := signAt_eq_some hsign
        obtain ⟨block, behind, hblock, rfl, rfl⟩ := chars_eq_append htail.symm
        have hne : block.length ≠ 0 := by
          intro hzero
          rw [eq_nil_of_length_eq_zero hzero] at hmem
          exact absurd hmem (by decide)
        have hlength' := congrArg List.length hblock
        rw [length_append] at hlength'
        obtain ⟨strip, rfl, hreads⟩ := ih behind.length (by omega) behind rfl
        refine ⟨.next _ (.sign block (spacesSign block (chars strip.cells))) strip, ?_, hpads,
          ⟨?_, rfl⟩, hreads⟩
        · rw [Strip.cells, Item.cells, ← hblock, hsplit]
        · rw [← chars_append, ← hblock, hsign]

variable {strip : Strip} {change change' : GapChange} {prev : Option Item}

theorem regap_regap : ∀ (strip : Strip) (prev : Option Item),
    (strip.regap change prev).regap change' prev =
      strip.regap (fun prev gap next => change' prev (change prev gap next) next) prev
  | .last _, _ => rfl
  | .next _ item rest, _ => congrArg (Strip.next _ item) (regap_regap rest (some item))

theorem first_regap (change : GapChange) (prev : Option Item) (strip : Strip) :
    (strip.regap change prev).first = strip.first := by
  cases strip <;> rfl

theorem gap_regap (change : GapChange) (prev : Option Item) (strip : Strip) :
    (strip.regap change prev).gap = change prev strip.gap strip.first := by
  cases strip <;> rfl

theorem Reads.gap (h : strip.Reads) : ∀ cell ∈ strip.gap, isPad cell.char = true := by
  cases strip with
  | last gap => exact h
  | next gap item rest => exact h.1

/-- The first item is what is read before some text. -/
theorem Reads.first_fits (h : strip.Reads) :
    ∀ item ∈ strip.first, ∃ following, item.Fits following := by
  cases strip with
  | last _ => rintro item ⟨⟩
  | next _ item rest =>
    rintro _ ⟨⟩
    exact ⟨_, h.2.1⟩

/-- A row starts with its first gap, or with its first item if that is empty. -/
theorem head?_of_gap_eq_nil (h : strip.Reads) (hgap : strip.gap = []) :
    (chars strip.cells).head? = strip.first.bind fun item => (chars item.cells).head? := by
  cases strip with
  | last gap =>
    obtain rfl : gap = [] := hgap
    rfl
  | next gap item rest =>
    obtain rfl : gap = [] := hgap
    exact chars_head?_append h.2.1.ne_nil

theorem head?_of_gap_ne_nil (h : strip.Reads) (hgap : strip.gap ≠ []) :
    ∃ c, (chars strip.cells).head? = some c ∧ isPad c = true := by
  have hpads := h.gap
  have hhead : ∃ tail, strip.cells = strip.gap ++ tail := by
    cases strip with
    | last gap => exact ⟨[], (append_nil _).symm⟩
    | next gap item rest => exact ⟨_, rfl⟩
  obtain ⟨tail, htail⟩ := hhead
  obtain ⟨cell, gap, hcons⟩ := exists_cons_of_ne_nil hgap
  refine ⟨cell.char, ?_, hpads cell (by rw [hcons]; exact mem_cons_self)⟩
  rw [htail, hcons]
  rfl

end Strip

/-! ## Gentle changes -/

/-- A change of gaps that makes no operator out of two and none out of a star before a semicolon:
gaps stay runs of spaces and tabs, a gap is closed only where no operator can go on, and none is
opened between a sign that is not spaced and a semicolon. -/
structure Gentle (change : GapChange) : Prop where
  pads : ∀ prev gap next, (∀ cell ∈ gap, isPad cell.char = true) →
    ∀ cell ∈ change prev gap next, isPad cell.char = true
  closes : ∀ prev gap next, gap ≠ [] → change prev gap next = [] →
    ∀ item ∈ next, ∀ following, item.Fits following →
      ∀ c ∈ (chars item.cells).head?, c ∉ ['=', '>', '*', ';']
  opens : ∀ prev next, prev.any Item.isSign = true → prev.any Item.isSpaced = false →
    change prev [] next ≠ [] → ∀ item ∈ next, ∀ following, item.Fits following →
      (chars item.cells).head? ≠ some ';'

theorem not_mem_of_isPad {c : Char} (h : isPad c = true) : c ∉ ['=', '>', '*', ';'] := by
  rw [isPad, Bool.or_eq_true, beq_iff_eq, beq_iff_eq] at h
  rcases h with rfl | rfl <;> decide

/-- Behind a gentle change the items are what is read. -/
theorem Strip.Reads.regap {change : GapChange} (hgentle : Gentle change) {strip : Strip}
    (h : strip.Reads) : ∀ prev, (strip.regap change prev).Reads := by
  induction strip with
  | last gap => exact fun prev => hgentle.pads prev gap none h
  | next gap item rest ih =>
    intro prev
    obtain ⟨hpads, hfits, hrest⟩ := h
    have hrest' := ih hrest (some item)
    refine ⟨hgentle.pads _ _ _ hpads, hfits.congr ?_, hrest'⟩
    have hgap' := Strip.gap_regap change (some item) rest
    by_cases hopen : change (some item) rest.gap rest.first = []
    · have hhead' := Strip.head?_of_gap_eq_nil hrest' (hgap'.trans hopen)
      rw [Strip.first_regap] at hhead'
      by_cases hgap : rest.gap = []
      · exact .inl (hhead'.trans (Strip.head?_of_gap_eq_nil hrest hgap).symm)
      · obtain ⟨c, hhead, hc⟩ := Strip.head?_of_gap_ne_nil hrest hgap
        refine .inr ⟨fun d hd => ?_, fun _ _ heq => ?_⟩
        · rw [hhead', Option.mem_def, Option.bind_eq_some_iff] at hd
          obtain ⟨next, hnext, hd⟩ := hd
          obtain ⟨following, hfits'⟩ := hrest.first_fits next hnext
          exact hgentle.closes _ _ _ hgap hopen next hnext following hfits' d hd
        · rw [hhead] at heq
          cases heq
          exact absurd hc (by decide)
    · obtain ⟨c, hhead', hc⟩ := Strip.head?_of_gap_ne_nil hrest' (by rw [hgap']; exact hopen)
      refine .inr ⟨fun d hd => ?_, fun hsign hspaced heq => ?_⟩
      · rw [hhead'] at hd
        cases hd
        exact not_mem_of_isPad hc
      · by_cases hgap : rest.gap = []
        · rw [Strip.head?_of_gap_eq_nil hrest hgap, Option.bind_eq_some_iff] at heq
          obtain ⟨next, hnext, heq⟩ := heq
          obtain ⟨following, hfits'⟩ := hrest.first_fits next hnext
          rw [hgap] at hopen
          exact hgentle.opens (some item) _ hsign hspaced hopen next hnext following hfits' heq
        · obtain ⟨d, hhead, hd⟩ := Strip.head?_of_gap_ne_nil hrest hgap
          rw [hhead] at heq
          cases heq
          exact absurd hd (by decide)

/-! ## Gaps beside code -/

/-- A gap beside an item of code is code. -/
def Strip.Clear (prev : Option Item) : Strip → Prop
  | .last gap => prev.any Item.isCode = true → ∀ cell ∈ gap, cell.role = .code
  | .next gap item rest =>
      (prev.any Item.isCode = true ∨ item.isCode = true → ∀ cell ∈ gap, cell.role = .code) ∧
        rest.Clear (some item)

theorem Item.isCode_iff {item : Item} :
    item.isCode = true ↔ ∀ cell ∈ item.cells, cell.role = .code := by
  rw [Item.isCode, all_eq_true]
  exact forall₂_congr fun _ _ => Cell.isCode_iff

theorem isBlank_of_pads {gap : List Cell} (h : ∀ cell ∈ gap, isPad cell.char = true) :
    ∀ c ∈ chars gap, isBlank c = true := by
  intro c hc
  obtain ⟨cell, hcell, rfl⟩ := mem_map.mp hc
  exact isBlank_of_isPad (h cell hcell)

/-- The gap behind an item of code. -/
theorem Marked.gap_behind_code {left gap right : List Cell} {item : Item} {following : List Char}
    (h : Marked recognizeTyped [] (left ++ (item.cells ++ (gap ++ right))))
    (hfits : item.Fits following)
    (hpads : ∀ cell ∈ gap, isPad cell.char = true) (hcode : item.isCode = true) :
    ∀ cell ∈ gap, cell.role = .code := by
  have hall := @Marked.code_of_sign left [] item.cells gap right h (by simp) (isBlank_of_pads hpads)
    hfits.ne_nil (Item.isCode_iff.mp hcode)
  exact fun cell hcell => hall cell (by simp [hcell])

/-- The gap before an item of code. -/
theorem Marked.gap_before_code {left gap right : List Cell} {item : Item} {following : List Char}
    (h : Marked recognizeTyped [] (left ++ (gap ++ (item.cells ++ right))))
    (hfits : item.Fits following)
    (hpads : ∀ cell ∈ gap, isPad cell.char = true) (hcode : item.isCode = true) :
    ∀ cell ∈ gap, cell.role = .code := by
  have hall := @Marked.code_of_sign left gap item.cells [] right h (isBlank_of_pads hpads) (by simp)
    hfits.ne_nil (Item.isCode_iff.mp hcode)
  exact fun cell hcell => hall cell (by simp [hcell])

theorem Marked.clear_behind {strip : Strip} (hreads : strip.Reads) :
    ∀ (left : List Cell) (item : Item) (following : List Char), item.Fits following →
      Marked recognizeTyped [] (left ++ (item.cells ++ strip.cells)) → strip.Clear (some item) := by
  induction strip with
  | last gap =>
    intro left item following hfits h
    exact @Marked.gap_behind_code left gap [] item following (by simpa [Strip.cells] using h)
      hfits hreads
  | next gap next rest ih =>
    intro left item following hfits h
    obtain ⟨hpads, hfits', hrest⟩ := hreads
    refine ⟨?_,
      ih hrest (left ++ (item.cells ++ gap)) next _ hfits' (by simpa [Strip.cells] using h)⟩
    rintro (hcode | hcode)
    · exact h.gap_behind_code hfits hpads hcode
    · rw [← append_assoc, Strip.cells] at h
      exact h.gap_before_code hfits' hpads hcode

/-- The gaps of a text beside code are code. -/
theorem Marked.clear {strip : Strip} (hreads : strip.Reads)
    (h : Marked recognizeTyped [] strip.cells) : strip.Clear none := by
  cases strip with
  | last gap => nofun
  | next gap item rest =>
    obtain ⟨hpads, hfits, hrest⟩ := hreads
    refine ⟨?_, Marked.clear_behind hrest gap item _ hfits h⟩
    rintro (hcode | hcode)
    · cases hcode
    · exact @Marked.gap_before_code [] gap rest.cells item _ h hfits hpads hcode

end StructuredText
