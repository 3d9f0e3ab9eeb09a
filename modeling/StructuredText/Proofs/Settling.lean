import StructuredText.Proofs.GapRules

/-!
# What spacing makes of gaps

The rules on operators, commas, runs of blanks, line ends and colons only change gaps, so one
function of a gap and the items beside it says what all of them together make of it.

Results:
1. `Spacing.operator_strip`, `comma_strip`, `padRun_strip`, `lineEnd_strip`, `beforeColon_strip`:
   each rule as a change of gaps.
2. `Spacing.settleGaps_strip`: all of them, one after the other.
-/

namespace StructuredText

open List Literal Spacing

variable {cells out : List Cell} {item : Item} {following : List Char}

/-! ## The changes of gaps -/

def operatorRule : TokenRule :=
  ⟨signAt, fun sign behind => sign == ['*', '*'] || (sign == ['*'] && behind.head? == some ';'),
    [' '], [' ']⟩

def commaRule : TokenRule :=
  ⟨fun text => if text.head? = some ',' then some [','] else none, fun _ _ => false, [], [' ']⟩

namespace Item

def isComma : Item → Bool
  | .plain cell => cell.char == ','
  | .sign _ _ => false

/-- A comma of the code. -/
def isCodeComma : Item → Bool
  | .plain cell => cell == ⟨',', .code⟩
  | .sign _ _ => false

def isFeed : Item → Bool
  | .plain cell => cell.char == '\n'
  | .sign _ _ => false

/-- A colon of the code that is an operator of its own. -/
def isColon : Item → Bool
  | .plain _ => false
  | .sign cells _ => cells == [⟨':', .code⟩]

end Item

def operatorChange : GapChange :=
  operatorRule.change Item.isSign Item.isSpaced

def commaChange : GapChange :=
  commaRule.change Item.isComma Item.isCodeComma

def collapseChange : GapChange := fun _ gap _ =>
  if gap.all Cell.isCode && (2 ≤ gap.length || gap.head?.any (·.char == '\t')) then codeCells [' ']
  else gap

def trimChange : GapChange := fun _ gap next =>
  if next.all Item.isFeed && gap.all Cell.isCode then [] else gap

def colonChange : GapChange := fun _ gap next =>
  if next.any Item.isColon && gap.all Cell.isCode then [] else gap

/-- All changes, one after the other. -/
def settle : GapChange := fun prev gap next =>
  colonChange prev (trimChange prev (collapseChange prev
    (commaChange prev (operatorChange prev gap next) next) next) next) next

/-! ## Operators and commas -/

theorem operator_eq : operator = operatorRule.rule := by
  funext cursor
  rw [operator, TokenRule.rule]
  simp only [find?_token]
  refine Option.bind_congr fun sign _ => Option.bind_congr fun last _ => ?_
  rw [TokenRule.written]
  split
  next hkeeps => rw [if_pos (show operatorRule.keeps sign last.after = true from hkeeps)]
  next hkeeps => rw [if_neg (show ¬ operatorRule.keeps sign last.after = true from hkeeps)]; rfl

theorem comma_eq : comma = commaRule.rule := by
  funext cursor
  rw [comma, TokenRule.rule]
  simp only [commaRule, Cursor.char, Cursor.next, TokenRule.written]
  cases hafter : cursor.pads.after with
  | nil => simp
  | cons c rest =>
    by_cases hc : c = ','
    · subst hc
      simp [Cursor.token, Cursor.char, Cursor.next, hafter]
    · simp [hc]

theorem operatorRule_follows : operatorRule.Follows Item.isSign Item.isSpaced where
  nothing := signAt_nil
  token := by
    intro item following hfits hsign
    cases item with
    | plain cell => cases hsign
    | sign cells spaced => exact hfits.1
  skips := by
    intro item following hfits hsign left cell right hcells
    cases item with
    | plain other =>
      have hsplit : [other] = left ++ cell :: right := hcells
      obtain ⟨rfl, rfl⟩ : other = cell ∧ left = [] := by
        rcases singleton_eq_append_iff.mp hsplit with ⟨rfl, hright⟩ | ⟨hleft, hright⟩
        · exact ⟨(cons_eq_cons.mp hright).1.symm, rfl⟩
        · cases hright
      exact signAt_cons hfits.2 _
    | sign cells spaced => cases hsign
  hits := by
    intro item following hfits
    cases item with
    | plain cell => simp [Item.isSpaced, Item.isSign]
    | sign cells spaced =>
      obtain ⟨-, rfl⟩ := hfits
      have hspaced : (Item.sign cells (spacesSign cells following)).isSpaced =
          (cells.all Cell.isCode && !operatorRule.keeps (chars cells) following) := rfl
      rw [hspaced, Bool.and_eq_true, Bool.not_eq_true']
      exact ⟨fun h => ⟨rfl, h⟩, And.right⟩

theorem commaRule_follows : commaRule.Follows Item.isComma Item.isCodeComma where
  nothing := rfl
  token := by
    intro item following hfits hcomma
    cases item with
    | plain cell =>
      have hchar : cell.char = ',' := beq_iff_eq.mp hcomma
      simp [commaRule, Item.cells, hchar]
    | sign cells spaced => cases hcomma
  skips := by
    intro item following hfits hcomma left cell right hcells
    have hchar : cell.char ≠ ',' := by
      cases item with
      | plain other =>
        have hmem : cell ∈ [other] := by
          rw [show [other] = left ++ cell :: right from hcells]
          simp
        rw [mem_singleton.mp hmem]
        exact beq_eq_false_iff_ne.mp hcomma
      | sign cells spaced =>
        have hnot : ∀ sign ∈ operators, ∀ d ∈ sign, d ≠ ',' := by decide
        exact hnot _ (signAt_eq_some hfits.1).1 _ (mem_map_of_mem (by
          rw [show cells = left ++ cell :: right from hcells]
          simp))
    simp [commaRule, hchar]
  hits := by
    intro item following hfits
    cases item with
    | plain cell =>
      obtain ⟨c, role⟩ := cell
      simp [Item.isComma, Item.isCodeComma, Item.isCode, Item.cells, Cell.isCode, commaRule]
    | sign cells spaced => simp [Item.isComma, Item.isCodeComma]

/-! ## Runs, line ends and colons -/

/-- No rule that starts with a run of spaces and tabs finds anything inside an item. -/
theorem ofReader_item_none {rule : Rule}
    (hrule : ∀ cursor, cursor.someRun isPad = none → rule cursor = none)
    (item : Item) (following : List Char) (hfits : item.Fits following) :
    ∀ left cell right (before : List Char), item.cells = left ++ cell :: right →
      Recognizer.ofReader rule false ⟨before.length, before, cell.char ::
        (chars right ++ following)⟩ = none := by
  intro left cell right before hcells
  have hpad := hfits.isPad_eq_false cell (by rw [hcells]; simp)
  rw [Recognizer.ofReader, hrule, Option.map_none]
  exact Cursor.someRun_eq_none (by rintro c ⟨⟩; exact hpad)

section Acts

variable {strip : Strip}

/-- A run of spaces and tabs is read from each place of a gap on. -/
theorem Strip.Reads.exists_someRun (h : strip.Reads) {left right : List Cell} {cell : Cell}
    (hgap : strip.gap = left ++ cell :: right) (before : List Char) :
    ∃ stop, Cursor.someRun isPad
        ⟨before.length, before, cell.char :: (chars right ++ chars (strip.withGap []).cells)⟩ =
        some stop ∧
      Cursor.Reads
        ⟨before.length, before, cell.char :: (chars right ++ chars (strip.withGap []).cells)⟩ stop
        (chars (cell :: right)) ∧
      stop.after = chars (strip.withGap []).cells := by
  refine Cursor.exists_someRun (cons_ne_nil _ _) (isPad_of_mem_chars fun other hother => ?_)
    h.head?_bare rfl
  exact h.gap other (by rw [hgap]; exact mem_append_right _ hother)

theorem padRun_acts (prev : Option Item) (hreads : strip.Reads) :
    Acts (.ofReader padRun) strip (collapseChange prev strip.gap strip.first) := by
  cases hwide : (2 ≤ strip.gap.length || strip.gap.head?.any (·.char == '\t') : Bool) with
  | true =>
    obtain ⟨cell, right, hgap⟩ : ∃ cell right, strip.gap = cell :: right := by
      refine exists_cons_of_ne_nil ?_
      intro hnil
      rw [hnil] at hwide
      cases hwide
    refine @Acts.gap _ _ _ [' '] (by rw [hgap]; exact cons_ne_nil _ _) (fun before => ?_) ?_
    · obtain ⟨stop, hrun, hread, -⟩ := @Strip.Reads.exists_someRun _ hreads []
        right cell hgap before
      have hlength : stop.pos - before.length = strip.gap.length := by
        rw [hread.pos, Nat.add_sub_cancel_left, length_chars, hgap]
      rw [hgap] at hwide ⊢
      rw [hgap] at hlength
      rw [chars_cons, cons_append, ofReader_eq_some]
      refine ⟨stop, ?_, hlength.symm⟩
      rw [padRun, hrun]
      simp only [Option.bind_eq_bind, Option.bind_some, hlength, Cursor.sees, head?_cons]
      exact if_pos (by simpa using hwide)
    · rw [collapseChange, hwide, Bool.and_true]
  | false =>
    refine .idle ?_ (by rw [collapseChange, hwide, Bool.and_false]; rfl)
    intro left cell right before hgap
    obtain ⟨stop, hrun, hread, -⟩ := hreads.exists_someRun hgap before
    rw [Bool.or_eq_false_iff, decide_eq_false_iff_not, hgap, length_append,
      length_cons] at hwide
    obtain rfl : left = [] := eq_nil_of_length_eq_zero (by omega)
    have hlength : stop.pos - before.length = 1 := by
      rw [hread.pos, Nat.add_sub_cancel_left, length_chars, length_cons]
      omega
    have htab : (some cell.char == some '\t') = false := by simpa using hwide.2
    rw [Recognizer.ofReader, padRun, hrun]
    simp [hlength, Cursor.sees, htab]

theorem lineEnd_acts (prev : Option Item) (hreads : strip.Reads) :
    Acts (.ofReader lineEnd) strip (trimChange prev strip.gap strip.first) := by
  have hend : ∀ stop : Cursor, stop.after = chars (strip.withGap []).cells →
      stop.atLineEnd = strip.first.all Item.isFeed := by
    intro stop hafter
    cases strip with
    | last gap => rw [Cursor.atLineEnd, hafter]; rfl
    | next gap item rest =>
      obtain ⟨-, hfits, -⟩ := hreads
      cases item with
      | plain cell => rw [Cursor.atLineEnd, hafter]; rfl
      | sign cells spaced =>
        obtain ⟨cell, right, rfl⟩ := exists_cons_of_ne_nil hfits.ne_nil
        have hnot : ∀ sign ∈ operators, ∀ d ∈ sign, (d == '\n') = false := by decide
        rw [Cursor.atLineEnd, hafter]
        exact hnot _ (signAt_eq_some hfits.1).1 _ mem_cons_self
  cases hfeed : strip.first.all Item.isFeed with
  | true =>
    rcases hgap : strip.gap with _ | ⟨cell, right⟩
    · refine .idle (fun left cell right _ hsplit => ?_) (by simp [trimChange, hgap])
      rw [hgap] at hsplit
      cases (append_eq_nil_iff.mp hsplit.symm).2
    · refine @Acts.gap _ _ _ [] (by rw [hgap]; exact cons_ne_nil _ _) (fun before => ?_) ?_
      · obtain ⟨stop, hrun, hread, hafter⟩ := @Strip.Reads.exists_someRun _ hreads []
          right cell hgap before
        have hlength : stop.pos - before.length = strip.gap.length := by
          rw [hread.pos, Nat.add_sub_cancel_left, length_chars, hgap]
        rw [hgap, chars_cons, cons_append, ofReader_eq_some]
        refine ⟨stop, ?_, by rw [hlength, hgap]⟩
        rw [lineEnd, hrun]
        simp only [Option.bind_eq_bind, Option.bind_some, hend stop hafter, hfeed]
        rfl
      · rw [trimChange, hfeed, Bool.true_and, hgap]
        rfl
  | false =>
    refine .idle ?_ (by rw [trimChange, hfeed, Bool.false_and]; rfl)
    intro left cell right before hgap
    obtain ⟨stop, hrun, -, hafter⟩ := hreads.exists_someRun hgap before
    rw [Recognizer.ofReader, lineEnd, hrun]
    simp [hend stop hafter, hfeed]

/-- A colon is followed by an equals sign if it is not an operator of its own. -/
theorem Item.Fits.colon_iff (h : item.Fits following) {c : Char} {tail : List Char}
    (hchars : chars item.cells ++ following = c :: tail) :
    c = ':' ∧ tail.head? ≠ some '=' ↔ chars item.cells = [':'] := by
  cases item with
  | plain cell =>
    obtain ⟨rfl, rfl⟩ := cons_eq_cons.mp hchars
    have hnot : cell.char ≠ ':' := fun heq => h.2 (by rw [heq]; decide)
    simp [cells, hnot]
  | sign cells spaced =>
    obtain ⟨hsign, -⟩ := h
    have hchars' : chars cells ++ following = c :: tail := hchars
    rw [hchars'] at hsign
    obtain ⟨d, -, hform | ⟨e, -, hform⟩⟩ := operators_forms (signAt_eq_some hsign).1
    · rw [hform] at hchars' hsign
      obtain ⟨rfl, rfl⟩ := cons_eq_cons.mp hchars'
      rw [show chars (Item.sign cells spaced).cells = [d] from hform, cons_eq_cons]
      refine ⟨fun hcolon => ⟨hcolon.1, rfl⟩, fun hcolon => ⟨hcolon.1, fun heq => ?_⟩⟩
      obtain ⟨behind, rfl⟩ := head?_eq_some_iff.mp heq
      rw [hcolon.1, ← signAt_take] at hsign
      exact absurd (show signAt [':', '='] = some [':'] from hsign) (by decide)
    · rw [hform] at hchars' hsign
      obtain ⟨rfl, rfl⟩ := cons_eq_cons.mp hchars'
      rw [show chars (Item.sign cells spaced).cells = [d, e] from hform]
      refine ⟨fun hcolon => ?_, fun hcolon => by cases hcolon⟩
      have hpair : ∀ e, [':', e] ∈ operators → e = '=' := by
        have hchecked : ∀ sign ∈ operators, sign.head? = some ':' → sign = [':'] ∨
            sign = [':', '='] := by
          decide
        intro e hmem
        rcases hchecked _ hmem rfl with heq | heq <;> cases heq
        rfl
      have hmem := (signAt_eq_some hsign).1
      rw [hcolon.1] at hmem
      exact absurd (congrArg some (hpair e hmem)) hcolon.2

/-- What is read before an item. -/
theorem beforeColon_eq (hfits : item.Fits following) {cursor stop : Cursor}
    (hrun : cursor.someRun isPad = some stop)
    (hafter : stop.after = chars item.cells ++ following) :
    beforeColon cursor = if chars item.cells = [':'] then
      some (⟨stop.pos + 1, ':' :: stop.before, following⟩, [':']) else none := by
  obtain ⟨c, tail, hcons⟩ : ∃ c tail, chars item.cells ++ following = c :: tail :=
    exists_cons_of_ne_nil (by simp [chars, hfits.ne_nil])
  have hiff := hfits.colon_iff hcons
  rw [beforeColon, hrun]
  simp only [Option.bind_eq_bind, Option.bind_some, Cursor.char, Cursor.next, hafter, hcons]
  by_cases hc : c = ':'
  · subst hc
    simp only [beq_self_eq_true, if_true, Option.bind_some]
    have hsees : ∀ pos before, Cursor.sees '=' ⟨pos, before, tail⟩ = (tail.head? == some '=') :=
      fun _ _ => rfl
    by_cases htail : tail.head? = some '='
    · rw [if_neg (fun hcolon => (hiff.mpr hcolon).2 htail), hsees, if_pos (beq_iff_eq.mpr htail)]
    · have hcolon := hiff.mp ⟨rfl, htail⟩
      have htail' : tail = following := by
        rw [hcolon] at hcons
        exact (cons_eq_cons.mp hcons).2.symm
      rw [if_pos hcolon, hsees, if_neg (fun heq => htail (beq_iff_eq.mp heq)), htail']
      rfl
  · rw [if_neg (fun hcolon => hc (hiff.mpr hcolon).1)]
    simp [hc]

theorem Item.isColon_iff (h : item.Fits following) :
    item.isColon = true ↔ chars item.cells = [':'] ∧ item.isCode = true := by
  cases item with
  | plain cell =>
    have hnot : cell.char ≠ ':' := fun heq => h.2 (by rw [heq]; decide)
    simp [isColon, cells, hnot]
  | sign cells spaced =>
    rw [isColon, beq_iff_eq]
    constructor
    · rintro rfl
      exact ⟨rfl, rfl⟩
    · rintro ⟨hchars, hcode⟩
      exact (codeCells_chars (Item.isCode_iff.mp hcode)).symm.trans (congrArg codeCells hchars)

theorem beforeColon_acts (prev : Option Item) (hreads : strip.Reads) :
    Acts (.ofReader beforeColon) strip (colonChange prev strip.gap strip.first) := by
  cases strip with
  | last gap =>
    refine .idle (fun left cell right before hgap => ?_) rfl
    obtain ⟨stop, hrun, -, hafter⟩ := hreads.exists_someRun hgap before
    rw [Recognizer.ofReader, beforeColon, hrun]
    simp only [Option.bind_eq_bind, Option.bind_some, Cursor.char, Cursor.next, hafter]
    rfl
  | next gap item rest =>
    have hfits := hreads.2.1
    have hbare : chars ((Strip.next gap item rest).withGap []).cells =
        chars item.cells ++ chars rest.cells := by
      rw [Strip.withGap, Strip.cells, nil_append, chars_append]
    by_cases hcolon : chars item.cells = [':'] ∧ gap ≠ []
    · obtain ⟨hcolon, hne⟩ := hcolon
      refine @Acts.item _ _ _ gap item rest [] rfl hne (fun before => ?_) ?_
      · obtain ⟨cell, right, rfl⟩ := exists_cons_of_ne_nil hne
        obtain ⟨stop, hrun, hread, hafter⟩ :=
          @Strip.Reads.exists_someRun _ hreads [] right cell rfl before
        rw [hbare] at hafter hrun hread
        have hlength : stop.pos = before.length + (cell :: right).length := by
          rw [hread.pos, length_chars]
        have hcursor : chars (cell :: right ++ item.cells) ++ chars rest.cells =
            cell.char :: (chars right ++ (chars item.cells ++ chars rest.cells)) := by simp
        rw [hcursor, ofReader_eq_some]
        refine ⟨⟨stop.pos + 1, ':' :: stop.before, chars rest.cells⟩, ?_, ?_⟩
        · rw [beforeColon_eq hfits hrun hafter, if_pos hcolon, nil_append, hcolon]
        · have hone : item.cells.length = 1 := by
            rw [← length_chars, hcolon]
            rfl
          change (cell :: right ++ item.cells).length = stop.pos + 1 - before.length
          rw [length_append, hone, hlength]
          omega
      · have hcode : item.isColon = item.isCode := by
          rw [Bool.eq_iff_iff, Item.isColon_iff hfits, and_iff_right hcolon]
        rw [colonChange, Strip.first, Option.any_some, hcode, all_append, Bool.and_comm]
        rfl
    · refine .idle (fun left cell right before hgap => ?_) ?_
      · obtain ⟨stop, hrun, -, hafter⟩ := hreads.exists_someRun hgap before
        rw [hbare] at hafter
        have hne : gap ≠ [] := by
          rw [show gap = left ++ cell :: right from hgap]
          simp
        rw [Recognizer.ofReader, beforeColon_eq hfits hrun hafter,
          if_neg (fun heq => hcolon ⟨heq, hne⟩), Option.map_none]
      · rw [colonChange]
        split
        next hall =>
          rw [Bool.and_eq_true] at hall
          by_contra hne
          exact hcolon ⟨((Item.isColon_iff hfits).mp hall.1).1, Ne.symm hne⟩
        next => rfl

end Acts

/-! ## The changes are gentle -/

theorem Item.Fits.not_semicolon (h : item.Fits following) (hsign : item.isSign = true) :
    (chars item.cells).head? ≠ some ';' := by
  cases item with
  | plain cell => cases hsign
  | sign cells spaced =>
    have hnot : ∀ sign ∈ operators, sign.head? ≠ some ';' := by decide
    exact hnot _ (signAt_eq_some h.1).1

/-- A rule on tokens makes gaps of gaps if it writes spaces and tabs. -/
theorem TokenRule.isPad_of_mem_change (tokens : TokenRule) {isToken hits : Item → Bool}
    (hlead : ∀ cell ∈ codeCells tokens.lead, isPad cell.char = true)
    (htrail : ∀ cell ∈ codeCells tokens.trail, isPad cell.char = true) {prev next : Option Item}
    {gap : List Cell} (hgap : ∀ cell ∈ gap, isPad cell.char = true) :
    ∀ cell ∈ tokens.change isToken hits prev gap next, isPad cell.char = true := by
  intro cell hcell
  rcases mem_append.mp hcell with hcell | hcell
  · split at hcell
    · split at hcell
      · exact htrail cell hcell
      · exact hgap cell hcell
    · split at hcell
      · cases hcell
      · exact hgap cell hcell
  · split at hcell
    · exact hlead cell hcell
    · cases hcell

theorem operatorChange_gentle : Gentle operatorChange where
  pads := fun _ _ _ => operatorRule.isPad_of_mem_change (by decide) (by decide)
  closes := by
    intro prev gap next hne hnil
    rw [operatorChange, TokenRule.change, append_eq_nil_iff] at hnil
    obtain ⟨hfirst, hsecond⟩ := hnil
    split at hsecond
    next => cases hsecond
    next hnext =>
      rw [if_neg hnext] at hfirst
      split at hfirst
      · split at hfirst
        · cases hfirst
        · exact absurd hfirst hne
      · exact absurd hfirst hne
  opens := by
    intro prev next hsign hspaced hne item hitem following hfits
    rw [operatorChange, TokenRule.change, if_pos hsign, if_neg (by simp [hspaced]),
      nil_append] at hne
    split at hne
    next hnext =>
      refine hfits.not_semicolon ?_
      rw [Option.mem_def.mp hitem, Option.any_some] at hnext
      cases item with
      | plain cell => cases hnext
      | sign cells spaced => rfl
    next => exact absurd rfl hne

theorem isComma_of_isSign {prev : Option Item} (h : prev.any Item.isSign = true) :
    prev.any Item.isComma = false := by
  cases prev with
  | none => rfl
  | some item =>
    cases item with
    | plain cell => cases h
    | sign cells spaced => rfl

theorem commaChange_gentle : Gentle commaChange where
  pads := fun _ _ _ => commaRule.isPad_of_mem_change (by decide) (by decide)
  closes := by
    intro prev gap next hne hnil item hitem following hfits
    rw [commaChange, TokenRule.change, append_eq_nil_iff] at hnil
    have hcomma : item.isCodeComma = true := by
      obtain ⟨hfirst, -⟩ := hnil
      split at hfirst
      · split at hfirst
        · cases hfirst
        · exact absurd hfirst hne
      · split at hfirst
        next hnext => rwa [Option.mem_def.mp hitem, Option.any_some] at hnext
        next => exact absurd hfirst hne
    cases item with
    | plain cell =>
      rw [show cell = ⟨',', .code⟩ from beq_iff_eq.mp hcomma]
      rintro c ⟨⟩
      decide
    | sign cells spaced => cases hcomma
  opens := by
    intro prev next hsign _ hne
    rw [commaChange, TokenRule.change, isComma_of_isSign hsign] at hne
    exact absurd (by simp [commaRule]) hne

/-- A change that opens no gap, and closes those before some items only. -/
theorem Gentle.of_closes {change : GapChange}
    (hpads : ∀ prev gap next, (∀ cell ∈ gap, isPad cell.char = true) →
      ∀ cell ∈ change prev gap next, isPad cell.char = true)
    (hcloses : ∀ prev gap next, gap ≠ [] → change prev gap next = [] →
      ∀ item ∈ next, (chars item.cells).head? ∈ [some '\n', some ':'])
    (hnil : ∀ prev next, change prev [] next = []) : Gentle change where
  pads := hpads
  closes := by
    intro prev gap next hne hempty item hitem _ _ c hc
    have hmem := hcloses prev gap next hne hempty item hitem
    rw [Option.mem_def.mp hc] at hmem
    simp only [mem_cons, Option.some.injEq, not_mem_nil, or_false] at hmem
    rcases hmem with rfl | rfl <;> decide
  opens := fun prev next _ _ hne => absurd (hnil prev next) hne

theorem collapseChange_gentle : Gentle collapseChange := by
  refine .of_closes ?_ ?_ fun _ _ => rfl
  · intro prev gap next hgap cell hcell
    rw [collapseChange] at hcell
    split at hcell
    · exact (by decide : ∀ cell ∈ codeCells [' '], isPad cell.char = true) cell hcell
    · exact hgap cell hcell
  · intro prev gap next hne hnil
    rw [collapseChange] at hnil
    split at hnil
    · cases hnil
    · exact absurd hnil hne

theorem Item.head?_of_isFeed (h : item.isFeed = true) : (chars item.cells).head? = some '\n' := by
  cases item with
  | plain cell => exact congrArg some (beq_iff_eq.mp h)
  | sign cells spaced => cases h

theorem Item.head?_of_isColon (h : item.isColon = true) : (chars item.cells).head? = some ':' := by
  cases item with
  | plain cell => cases h
  | sign cells spaced =>
    rw [show cells = [⟨':', .code⟩] from beq_iff_eq.mp h]
    rfl

theorem trimChange_gentle : Gentle trimChange := by
  refine .of_closes ?_ ?_ fun _ _ => by simp [trimChange]
  · intro prev gap next hgap cell hcell
    rw [trimChange] at hcell
    split at hcell
    · cases hcell
    · exact hgap cell hcell
  · intro prev gap next hne hnil item hitem
    rw [trimChange] at hnil
    split at hnil
    next hfeed =>
      rw [Option.mem_def.mp hitem, Option.all_some, Bool.and_eq_true] at hfeed
      rw [Item.head?_of_isFeed hfeed.1]
      decide
    next => exact absurd hnil hne

theorem colonChange_gentle : Gentle colonChange := by
  refine .of_closes ?_ ?_ fun _ _ => by simp [colonChange]
  · intro prev gap next hgap cell hcell
    rw [colonChange] at hcell
    split at hcell
    · cases hcell
    · exact hgap cell hcell
  · intro prev gap next hne hnil item hitem
    rw [colonChange] at hnil
    split at hnil
    next hcolon =>
      rw [Option.mem_def.mp hitem, Option.any_some, Bool.and_eq_true] at hcolon
      rw [Item.head?_of_isColon hcolon.1]
      decide
    next => exact absurd hnil hne

/-! ## The rules on rows -/

/-- A row that is read off a text: its items are what is read, and its literals are where the text
has them. -/
structure Strip.IsRow (strip : Strip) : Prop where
  reads : strip.Reads
  marked : Marked recognizeTyped [] strip.cells

section Rows

variable {rule : Rule} {hit : List Char → List Char → List Char → Prop} {licence : Licence}
  {strip : Strip} {change : GapChange}

theorem Respacing.strict_markedTyped (h : Respacing .strict cells out)
    (hmarked : Marked recognizeTyped [] cells) : Marked recognizeTyped [] out :=
  h.markedTyped hmarked nofun

/-- The walk of a rule on blanks is a sequence of moves. -/
theorem Rewrites.respacing (h : Rewrites (.ofReader rule) id [] cells out) (spec : rule.Spec hit)
    (hmoves : Respaces licence (fun _ => True) [] hit) {mark : Recognizer Kind}
    (hmarked : Marked mark [] cells) : Respacing licence cells out := by
  have hpatched : Patched hit cells out := h.patched (fun _ _ _ _ => spec.holds) [] hmarked
  exact hpatched.respacing_all hmoves

/-- A rule that changes gaps makes a row of a row. -/
theorem Strip.IsRow.applyTyped (h : strip.IsRow) (spec : rule.Spec hit)
    (hmoves : Respaces licence (fun _ => True) [] hit)
    (hcolons : licence.closesColons = true → ColonsApart strip.cells) (hgentle : Gentle change)
    (hwalk : Rewrites (.ofReader rule) id [] strip.cells (strip.regap change none).cells) :
    rule.applyTyped (chars strip.cells) = chars (strip.regap change none).cells ∧
      (strip.regap change none).IsRow ∧
      (ColonsApart strip.cells → ColonsApart (strip.regap change none).cells) := by
  have hrespacing := hwalk.respacing spec hmoves h.marked
  exact ⟨Rule.applyTyped_eq spec h.marked hwalk,
    ⟨h.reads.regap hgentle none, hrespacing.markedTyped h.marked hcolons⟩, hrespacing.colonsApart⟩

theorem Strip.IsRow.rewrites_token (h : strip.IsRow) {tokens : TokenRule}
    {isToken hits : Item → Bool} (hfollows : tokens.Follows isToken hits) :
    Rewrites (.ofReader tokens.rule) id [] strip.cells
      (strip.regap (tokens.change isToken hits) none).cells := by
  have hwalk := TokenRule.rewrites hfollows h.reads strip.gap none [] h.reads.gap rfl
    (by rw [strip.withGap_gap]; exact h.marked.clear h.reads)
  rwa [strip.withGap_gap] at hwalk

/-- The walk over cells with typed literals is one over cells without them, if typed literals are in
nothing that is found. -/
theorem Rewrites.untype {before : List Char} (h : Rewrites (.ofReader rule) id before cells out)
    (spec : rule.Spec hit)
    (hblock : ∀ block rest written, hit block rest written → ∀ c ∈ block, isTypedChar c = false)
    (htyped : ∀ cell ∈ cells, cell.role = .opening .typed ∨ cell.role = .inside .typed →
      isTypedChar cell.char = true) :
    Rewrites (.ofReader rule) id before (StructuredText.untype cells)
      (StructuredText.untype out) := by
  induction h with
  | nil => exact .nil
  | @miss before cell rest out hfind _ ih =>
    rw [untype_cons, untype_cons]
    refine .miss ?_ (ih fun other hother => htyped other (mem_cons_of_mem _ hother))
    rw [chars_untype]
    exact hfind
  | @blocked before block rest out value hfind hrole _ ih =>
    have hnot := hblock _ _ _ (@Rule.Spec.holds _ _ spec before _ _ _ (by rwa [length_chars]))
    rw [untype_append, untype_append]
    refine @Rewrites.blocked _ _ _ _ _ _ _ value ?_ ?_ ?_
    · rw [chars_untype, chars_untype, StructuredText.untype, length_map]
      exact hfind
    · obtain ⟨cell, hcell, hcode⟩ := hrole
      refine ⟨cell.untype, mem_map_of_mem hcell, fun huntype => ?_⟩
      have htyped' := htyped cell (mem_append_left _ hcell)
      rw [hnot cell.char (mem_map_of_mem hcell)] at htyped'
      exact hcode (Role.eq_code_of_untype huntype fun hrole => by cases htyped' hrole)
    · rw [chars_untype]
      exact ih fun other hother => htyped other (mem_append_right _ hother)
  | @hit before block rest out value hfind hne hcode _ ih =>
    have hblock' : StructuredText.untype block = block := by
      rw [← codeCells_chars hcode, untype_codeCells]
    rw [untype_append, untype_append, untype_codeCells, hblock']
    refine .hit ?_ hne hcode (ih fun other hother => htyped other (mem_append_right _ hother))
    rw [chars_untype]
    exact hfind

/-- A rule on code points that are in no typed literal does not depend on typed literals. -/
theorem Rule.apply_eq_applyTyped (spec : rule.Spec hit)
    (hblock : ∀ block rest written, hit block rest written → ∀ c ∈ block, isTypedChar c = false)
    (text : List Char) : rule.apply text = rule.applyTyped text := by
  obtain ⟨cells, rfl, hmarked⟩ := exists_marked_recognizeTyped text
  obtain ⟨out, hwalk, hout⟩ := replaceOutside_rewrites spec.isProper hmarked id
  obtain ⟨out', hwalk', hout'⟩ := replaceOutside_rewrites spec.isProper hmarked.untype id
  have hscan := hmarked.untype.scan_eq
  rw [chars_untype] at hscan
  rw [hwalk'.unique (hwalk.untype spec hblock hmarked.isTypedChar), chars_untype,
    chars_untype] at hout'
  rw [Rule.apply, Rule.applyTyped, hmarked.scanTyped_eq, hout, hscan, hout']

end Rows

namespace Spacing

variable {strip : Strip}

theorem operator_strip (h : strip.IsRow) :
    operator.applyTyped (chars strip.cells) = chars (strip.regap operatorChange none).cells ∧
      (strip.regap operatorChange none).IsRow ∧
      ColonsApart (strip.regap operatorChange none).cells := by
  have hwalk := h.rewrites_token operatorRule_follows
  rw [← operator_eq] at hwalk
  obtain ⟨hout, hrow, -⟩ := h.applyTyped operator_spec
    (@operator_respaces .parting _ _ rfl rfl) nofun operatorChange_gentle hwalk
  exact ⟨hout, hrow, hwalk.colonsApart [] h.marked⟩

theorem comma_strip (h : strip.IsRow) :
    comma.applyTyped (chars strip.cells) = chars (strip.regap commaChange none).cells ∧
      (strip.regap commaChange none).IsRow ∧
      (ColonsApart strip.cells → ColonsApart (strip.regap commaChange none).cells) := by
  have hwalk := h.rewrites_token commaRule_follows
  rw [← comma_eq] at hwalk
  exact h.applyTyped comma_spec (@comma_respaces .strict _ _) nofun commaChange_gentle hwalk

theorem padRun_strip (h : strip.IsRow) :
    collapse (chars strip.cells) = chars (strip.regap collapseChange none).cells ∧
      (strip.regap collapseChange none).IsRow ∧
      (ColonsApart strip.cells → ColonsApart (strip.regap collapseChange none).cells) :=
  h.applyTyped padRun_spec (@padRun_respaces .strict _ _) nofun collapseChange_gentle
    (Strip.rewrites_of_acts (ofReader_item_none fun cursor hrun => by rw [padRun, hrun]; rfl)
      (fun _ prev => padRun_acts prev) h.reads none [])

theorem lineEnd_strip (h : strip.IsRow) :
    trimLineEnds (chars strip.cells) = chars (strip.regap trimChange none).cells ∧
      (strip.regap trimChange none).IsRow ∧
      (ColonsApart strip.cells → ColonsApart (strip.regap trimChange none).cells) := by
  have htyped : trimLineEnds (chars strip.cells) = lineEnd.applyTyped (chars strip.cells) := by
    refine Rule.apply_eq_applyTyped lineEnd_spec ?_ _
    rintro block rest written ⟨hpads, -, -⟩ c hc
    exact isTypedChar_of_isBlank (isBlank_of_isPad (hpads c hc))
  rw [htyped]
  exact h.applyTyped lineEnd_spec (@dropsPads_respaces .strict _) nofun trimChange_gentle
    (Strip.rewrites_of_acts (ofReader_item_none fun cursor hrun => by rw [lineEnd, hrun]; rfl)
      (fun _ prev => lineEnd_acts prev) h.reads none [])

theorem beforeColon_strip (h : strip.IsRow) (hcolons : ColonsApart strip.cells) :
    beforeColon.applyTyped (chars strip.cells) = chars (strip.regap colonChange none).cells ∧
      (strip.regap colonChange none).IsRow := by
  obtain ⟨hout, hrow, -⟩ := h.applyTyped beforeColon_spec
    (fun block rest written hne hhit =>
      @closesBefore_respaces .closing _ _ _ rfl block rest written hne hhit.1)
    (fun _ => hcolons) colonChange_gentle
    (Strip.rewrites_of_acts (ofReader_item_none fun cursor hrun => by rw [beforeColon, hrun]; rfl)
      (fun _ prev => beforeColon_acts prev) h.reads none [])
  exact ⟨hout, hrow⟩

/-- The rules on operators, commas, runs of blanks, line ends and colons, one after the other. -/
def settleGaps (text : List Char) : List Char :=
  beforeColon.applyTyped (trimLineEnds (spaceOperators text))

/-- All of these rules together change gaps. -/
theorem settleGaps_strip (h : strip.IsRow) :
    settleGaps (chars strip.cells) = chars (strip.regap settle none).cells ∧
      (strip.regap settle none).IsRow := by
  obtain ⟨hout₁, hrow₁, hcolons₁⟩ := operator_strip h
  obtain ⟨hout₂, hrow₂, hcolons₂⟩ := comma_strip hrow₁
  obtain ⟨hout₃, hrow₃, hcolons₃⟩ := padRun_strip hrow₂
  obtain ⟨hout₄, hrow₄, hcolons₄⟩ := lineEnd_strip hrow₃
  obtain ⟨hout₅, hrow₅⟩ := beforeColon_strip hrow₄ (hcolons₄ (hcolons₃ (hcolons₂ hcolons₁)))
  have hsettle : ((((strip.regap operatorChange none).regap commaChange none).regap collapseChange
      none).regap trimChange none).regap colonChange none = strip.regap settle none := by
    simp only [Strip.regap_regap]
    rfl
  rw [hsettle] at hout₅ hrow₅
  rw [settleGaps, spaceOperators, hout₁, hout₂, hout₃, hout₄, hout₅]
  exact ⟨rfl, hrow₅⟩

end Spacing

end StructuredText
