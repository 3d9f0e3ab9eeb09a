import StructuredText.Proofs.CommentGaps
import StructuredText.Proofs.ParenthesisRules

/-!
# Spacing a text twice

Behind all rules on blanks a text has a form in which none of them finds anything to do. Each rule
brings a part of that form about, and those that come later keep it.

Results:
1. `Spacing.normalize_spaced`: a text has that form behind the rules.
2. `Spacing.Spaced.normalize_eq`: the rules keep a text of that form.
3. `Spacing.normalize_normalize`: so a second time the rules change nothing.
-/

namespace StructuredText

open Literal Spacing

/-! ## The end of a text and what stands before it -/

theorem leadingWord_append_sign {left right : List Cell}
    (h : ∀ cell ∈ right.head?, isWordChar cell.char = false) :
    leadingWord (left ++ right) = leadingWord left := by
  induction left with
  | nil => exact leadingWord_eq_nil h
  | cons cell left ih =>
    cases hword : isWordChar cell.char with
    | true => rw [List.cons_append, leadingWord_cons hword, leadingWord_cons hword, ih]
    | false => rw [List.cons_append, leadingWord_sign hword, leadingWord_sign hword]

theorem trails_append_sign {left right : List Cell}
    (h : ∀ cell ∈ right.head?, isWordChar cell.char = false) :
    trails (left ++ right) = trails left ++ trails right := by
  induction left with
  | nil => rfl
  | cons cell left ih =>
    rw [List.cons_append, trails, trails, leadingWord_append_sign h, ih, List.append_assoc]

/-- Blanks behind the last semicolon have no part in the words at parentheses. -/
theorem words_semicolon {gap : List Char} (hblank : ∀ c ∈ gap, isBlank c = true)
    (left : List Cell) : leads .start (left ++ codeCells (';' :: gap)) = leads .start left ∧
      trails (left ++ codeCells (';' :: gap)) = trails left := by
  have hnot : ∀ {c : Char}, c ≠ ';' → isBlank c = false → ⟨c, .code⟩ ∉ codeCells (';' :: gap) := by
    intro c hne hc hmem
    obtain ⟨d, hd, heq⟩ := List.mem_map.mp hmem
    cases heq
    rcases List.mem_cons.mp hd with rfl | hd
    · exact hne rfl
    · rw [hblank c hd] at hc
      cases hc
  refine ⟨?_, ?_⟩
  · rw [leads_append, leads_eq_nil (hnot (by decide) (by decide)), List.append_nil]
  · have htrails := trails_append_of_not_mem (hnot (c := ')') (by decide) (by decide)) []
    rw [List.append_nil] at htrails
    rw [trails_append_sign (by rintro _ ⟨⟩; decide), htrails, trails, List.append_nil]

/-! ## Rules at parentheses, in cells -/

theorem Rule.applyTyped_cells {rule : Rule} {hit : List Char → List Char → List Char → Prop}
    (spec : rule.Spec hit) (hmoves : Respaces .strict (fun _ => True) [] hit) {cells : List Cell}
    (hmarked : Marked recognizeTyped [] cells) :
    ∃ out, rule.applyTyped (chars cells) = chars out ∧ Marked recognizeTyped [] out ∧
      Rewrites (.ofReader rule) id [] cells out := by
  obtain ⟨out, hwalk, hout⟩ := replaceOutside_rewrites spec.isProper hmarked id
  refine ⟨out, ?_, (hwalk.respacing spec hmoves hmarked).strict_markedTyped hmarked, hwalk⟩
  rw [Rule.applyTyped, hmarked.scanTyped_eq, hout]

namespace Spacing

variable {names : Pattern} {cells out : List Cell}

/-- What closing calls makes of a text. -/
theorem closeCalls_cells (h : names.IsNames) (hmarked : Marked recognizeTyped [] cells) :
    ∃ out, closeCallsBy names.call (chars cells) = chars out ∧ Marked recognizeTyped [] out ∧
      (callRule h).Treats .start cells out := by
  have hproper : (names.call.recognize (chars cells).length).IsProper :=
    Pattern.recognize_isProper (by simp [Pattern.call, Pattern.sequence, Pattern.consumes,
    h.consumes])
  have hfollows := callRule_follows h (chars cells).length
  obtain ⟨out, hwalk, hout⟩ := replaceOutside_rewrites hproper hmarked fun found =>
    found.group 1 ++ ['(']
  have hhit : ∀ before block rest found,
      names.call.recognize (chars cells).length false ⟨before.length, before, block ++ rest⟩ =
        some (block.length, found) → ClosesCall block rest (found.group 1 ++ ['(']) := by
    intro before block rest found hfound
    obtain ⟨name, gap, behind, htext, hlength, hwritten, hreads⟩ := hfollows.sound _ _ _ _ hfound
    have happend : block ++ rest = (name ++ gap ++ ['(']) ++ behind := by
      rw [htext]
      simp
    refine ⟨name, gap, (List.append_inj happend (by simpa using hlength)).1, hwritten,
      (callRule h).ne_nil _ hreads.accepts, fun c hc => ?_, hreads.blank⟩
    by_contra hblank
    rw [Bool.not_eq_false] at hblank
    have hword := (callRule h).word _ hreads.accepts c hc
    rw [isWordChar_of_isBlank hblank] at hword
    cases hword
  have hmoves := (hwalk.patched hhit [] hmarked).respacing_all (@closesCall_respaces .strict _ _)
  refine ⟨out, ?_, hmoves.strict_markedTyped hmarked,
    hwalk.treats hfollows .start (.start rfl) (by simp)⟩
  rw [closeCallsBy, Pattern.replaceOutside, hmarked.scanTyped_eq, hout]

/-- What the rule on keywords before parentheses makes of a text. -/
theorem opening_cells (hmarked : Marked recognizeTyped [] cells) :
    ∃ out, openingParenthesis.applyTyped (chars cells) = chars out ∧ Marked recognizeTyped [] out ∧
      openingRule.Treats .start cells out := by
  obtain ⟨out, hout, hmarked', hwalk⟩ :=
    Rule.applyTyped_cells openingParenthesis_spec openingParenthesis_respaces hmarked
  exact ⟨out, hout, hmarked',
    hwalk.treats (openingRule_follows cells.length) .start (.start rfl) (by simp)⟩

/-- What the rule on keywords behind parentheses makes of a text. -/
theorem closing_cells (hmarked : Marked recognizeTyped [] cells) :
    ∃ out, closingParenthesis.applyTyped (chars cells) = chars out ∧ Marked recognizeTyped [] out ∧
      PartsClauses cells out := by
  obtain ⟨out, hout, hmarked', hwalk⟩ :=
    Rule.applyTyped_cells closingParenthesis_spec closingParenthesis_respaces hmarked
  exact ⟨out, hout, hmarked', hwalk.partsClauses⟩

/-- No rule at parentheses applies. -/
structure Calm (h : names.IsNames) (cells : List Cell) : Prop where
  calls : ∀ entry ∈ leads .start cells, ¬ (callRule h).Hits entry
  openings : ∀ entry ∈ leads .start cells, ¬ openingRule.Hits entry
  clauses : ∀ word ∈ trails cells, ¬ IsClause word

/-- The words at parentheses decide which rules apply. -/
theorem Calm.congr {h : names.IsNames} (hcalm : Calm h cells)
    (hleads : leads .start out = leads .start cells) (htrails : trails out = trails cells) :
    Calm h out where
  calls := by rw [hleads]; exact hcalm.calls
  openings := by rw [hleads]; exact hcalm.openings
  clauses := by rw [htrails]; exact hcalm.clauses

/-- A rule does not apply to what it made. -/
theorem not_hits_of_fixes {rule : ParenRule} {entry entry' : Lead} (h : rule.Fixes entry entry') :
    ¬ rule.Hits entry' := by
  cases h with
  | kept hnot => exact hnot
  | fixed _ => exact fun hhits => absurd hhits.touching (by simp)

theorem forall_of_fixes {rule : ParenRule} {entries entries' : List Lead} {p : Lead → Prop}
    (h : List.Forall₂ rule.Fixes entries entries')
    (hp : ∀ entry ∈ entries, ∀ entry', rule.Fixes entry entry' → p entry') :
    ∀ entry' ∈ entries', p entry' := by
  induction h with
  | nil => simp
  | @cons entry entry' entries entries' hfixes _ ih =>
    intro other hother
    rcases List.mem_cons.mp hother with rfl | hother
    · exact hp entry List.mem_cons_self _ hfixes
    · exact ih (fun entry hentry => hp entry (List.mem_cons_of_mem _ hentry)) other hother

/-- Behind the rules at parentheses none of them applies. Names are no keywords, so that no rule
opens a gap that another one closes. -/
theorem exists_calm (h : names.IsNames) (hmarked : Marked recognizeTyped [] cells) :
    ∃ out, spaceParentheses (closeCallsBy names.call (chars cells)) = chars out ∧
      Marked recognizeTyped [] out ∧ Calm h out := by
  obtain ⟨closed, hclosed, hmarked₁, hcalls⟩ := closeCalls_cells h hmarked
  obtain ⟨opened, hopened, hmarked₂, hopenings⟩ := opening_cells hmarked₁
  obtain ⟨out, hout, hmarked₃, hparts⟩ := closing_cells hmarked₂
  refine ⟨out, by rw [spaceParentheses, hclosed, hopened, hout], hmarked₃, ?_, ?_, hparts.parted⟩
  · rw [hparts.leads_eq]
    refine forall_of_fixes hopenings.fixes fun entry hentry entry' hfixes => ?_
    cases hfixes with
    | kept _ => exact forall_of_fixes hcalls.fixes (fun _ _ _ => not_hits_of_fixes) entry hentry
    | fixed hhits => exact fun hcall => h.apart _ hhits.accepts hcall.accepts
  · rw [hparts.leads_eq]
    exact forall_of_fixes hopenings.fixes fun _ _ _ => not_hits_of_fixes

/-- Where no rule at parentheses applies, nothing changes. -/
theorem Calm.eq_self {h : names.IsNames} (hcalm : Calm h cells)
    (hmarked : Marked recognizeTyped [] cells) :
    closeCallsBy names.call (chars cells) = chars cells ∧ spaceParentheses (chars cells) =
      chars cells := by
  obtain ⟨closed, hclosed, -, hcalls⟩ := closeCalls_cells h hmarked
  obtain ⟨opened, hopened, -, hopenings⟩ := opening_cells hmarked
  obtain ⟨out, hout, -, hparts⟩ := closing_cells hmarked
  rw [hclosed, hcalls.eq_self hcalm.calls, spaceParentheses, hopened,
    hopenings.eq_self hcalm.openings, hout, hparts.eq_self hcalm.clauses]
  exact ⟨rfl, rfl⟩

/-! ## All rules -/

/-- A row in which no rule on blanks finds anything to do. -/
structure Spaced (h : names.IsNames) (strip : Strip) : Prop where
  row : strip.IsRow
  settled : strip.Settled none
  calm : Calm h strip.cells
  apart : CommentsApart none strip.cells
  padded : ∀ entry ∈ literalsOf (chars strip.cells), padEntry entry = entry
  ends : finalSemicolon.apply (chars strip.cells) = chars strip.cells

variable {h : names.IsNames} {strip : Strip} {vocabulary : Vocabulary}

theorem normalize_eq [Host] (hpattern : vocabulary.callPattern = .ok names.call)
    (text : List Char) :
    normalize vocabulary text = .ok (finalSemicolon.apply (settleGaps (padComments
      (spaceParentheses (closeCallsBy names.call (collapse text)))))) := by
  rw [normalize, closeCalls, hpattern]
  rfl

/-- The rules keep a row in which they find nothing to do. -/
theorem Spaced.normalize_eq [Host] (hspaced : Spaced h strip)
    (hpattern : vocabulary.callPattern = .ok names.call) :
    normalize vocabulary (chars strip.cells) = .ok (chars strip.cells) := by
  have hcollapse : collapse (chars strip.cells) = chars strip.cells := by
    rw [(padRun_strip hspaced.row).1, hspaced.settled.collapse]
  have hsettle : settleGaps (chars strip.cells) = chars strip.cells := by
    rw [(settleGaps_strip hspaced.row).1, hspaced.settled.settle]
  obtain ⟨hclosed, hparentheses⟩ := hspaced.calm.eq_self hspaced.row.marked
  rw [Spacing.normalize_eq hpattern, hcollapse, hclosed, hparentheses,
    padComments_eq_self hspaced.row.marked hspaced.apart hspaced.padded, hsettle, hspaced.ends]

/-- The literals behind the rules are padded. -/
theorem padEntry_settled (text : List Char) :
    ∀ entry ∈ literalsOf (finalSemicolon.apply (settleGaps (padComments text))),
    padEntry entry = entry := by
  have hliterals : literalsOf (finalSemicolon.apply (settleGaps (padComments text))) =
      literalsOf (padComments text) :=
    ((tightenColons_respaced _).keeps.literals.trans
      ((trimLineEnds_respaced _).keeps.literals.trans (spaceOperators_keeps _).literals))
  rw [hliterals, literalsOf_padComments]
  intro entry hentry
  obtain ⟨first, hfirst, rfl⟩ := List.mem_map.mp hentry
  exact padEntry_padEntry hfirst

/-- The rules on comments, on gaps and on the end of a text give a row in which no rule finds
anything to do, if none of those at parentheses does. -/
theorem Calm.exists_spaced (hcalm : Calm h cells) (hmarked : Marked recognizeTyped [] cells) :
    ∃ strip, finalSemicolon.apply (settleGaps (padComments (chars cells))) = chars strip.cells ∧
      Spaced h strip := by
  have hliterals := padEntry_settled (chars cells)
  obtain ⟨padded, hpadded, hmarked', hpads⟩ := padComments_cells hmarked
  have hopen := Marked.commentsOpen hmarked
  obtain ⟨strip, rfl, hreads⟩ := Strip.exists_strip padded
  have hrow : strip.IsRow := ⟨hreads, hmarked'⟩
  have hclear := hmarked'.clear hreads
  have hprev : ∀ item ∈ (none : Option Item), ∃ following, item.Fits following := by simp
  obtain ⟨hsettle, hrow'⟩ := settleGaps_strip hrow
  rw [← hpadded, hsettle] at hliterals ⊢
  have hcalm' : Calm h (strip.regap settle none).cells := by
    refine hcalm.congr ?_ ?_
    · rw [Strip.leads_regap hreads none .start hprev hclear (fun _ => rfl), hpads.leads_eq,
        leads_spaceComments cells none .start hopen]
    · rw [Strip.trails_regap hreads none hprev hclear, hpads.trails_eq,
        trails_spaceComments cells none hopen]
  have hapart : CommentsApart none (strip.regap settle none).cells :=
    Strip.commentsApart_regap hreads none none hprev hclear (Marked.commentsOpen hrow'.marked)
      (hpads.commentsApart (commentsApart_spaceComments cells none))
  rcases finalSemicolon_cells hrow'.marked with hsame | ⟨left, gap, hcells, hcut,
    hmarked'', hgap, -⟩
  · rw [hsame] at hliterals
    exact ⟨_, hsame, hrow', hrow.settled, hcalm', hapart, hliterals, hsame⟩
  · rw [hcut] at hliterals
    obtain ⟨cut, hcutcells, hcutreads, hsettled⟩ := hrow.settled.cut hrow'.reads hcells
    rw [hcut, ← hcutcells]
    rw [← hcutcells] at hliterals hmarked''
    refine ⟨cut, rfl, ⟨hcutreads, hmarked''⟩, hsettled, ?_, ?_, hliterals, ?_⟩
    · have hbefore := words_semicolon hgap left
      have hafter := @words_semicolon ['\n'] (by decide) left
      rw [hcells] at hcalm'
      refine hcalm'.congr ?_ ?_
      · rw [hcutcells, hafter.1, hbefore.1]
      · rw [hcutcells, hafter.2, hbefore.2]
    · rw [hcells, commentsApart_append] at hapart
      rw [hcutcells, commentsApart_append]
      exact ⟨hapart.1, commentsApart_of_forall fun _ => opensComment_of_mem_codeCells⟩
    · rw [hcutcells]
      exact finalSemicolon_feed (hcutcells ▸ hmarked'')

/-- Behind the rules no rule finds anything to do. -/
theorem normalize_spaced [Host] (h : names.IsNames)
    (hpattern : vocabulary.callPattern = .ok names.call) (text : List Char) :
    ∃ strip, normalize vocabulary text = .ok (chars strip.cells) ∧ Spaced h strip := by
  obtain ⟨cells, hcells, hmarked⟩ := exists_marked_recognizeTyped (collapse text)
  obtain ⟨out, hout, hmarked', hcalm⟩ := exists_calm h hmarked
  obtain ⟨strip, hstrip, hspaced⟩ := hcalm.exists_spaced hmarked'
  refine ⟨strip, ?_, hspaced⟩
  rw [normalize_eq hpattern, ← hcells, hout, hstrip]

/-- A second time the rules on blanks change nothing. -/
theorem normalize_normalize [Host] (text : List Char) :
    ∃ spaced, normalize Vocabulary.standard text = .ok spaced ∧
      normalize Vocabulary.standard spaced = .ok spaced := by
  obtain ⟨names, hpattern, hnames⟩ := Vocabulary.exists_callNames
  obtain ⟨strip, hstrip, hspaced⟩ := normalize_spaced hnames hpattern text
  exact ⟨chars strip.cells, hstrip, hspaced.normalize_eq hpattern⟩

end Spacing

end StructuredText
