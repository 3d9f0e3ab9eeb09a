import StructuredText.Proofs.SpacingTwice

/-!
# Spaces around operators

Behind the rules on blanks an operator stands between single spaces. The operators of a text are
found from left to right, each with the gaps around it that the one before has left, so they are the
signs of the row that the rules settle, and what stands beside a sign can be read off its gaps.

Results:
1. `TokenRule.exists_has`: what a rule on tokens finds in a row are tokens of the row.
2. `Strip.Has.endsInSpace`, `Strip.Has.startsInSpace`: what stands beside a sign of a settled row.
3. `Spacing.normalize_operators`: the operators of a text behind the rules.
-/

namespace StructuredText

open Literal Spacing

/-! ## Items in their places -/

/-- An item with the gap before it. `left` is what stands before the gap, `prev` is the item there,
and `rest` is what stands behind the item. -/
structure Site where
  left : List Cell
  prev : Option Item
  gap : List Cell
  item : Item
  rest : Strip

/-- The row has the item. The item in front of the row is given. -/
inductive Strip.Has : Option Item → Strip → Site → Prop
  | here {prev : Option Item} {gap : List Cell} {item : Item} {rest : Strip} :
      Has prev (.next gap item rest) ⟨[], prev, gap, item, rest⟩
  | later {prev : Option Item} {gap : List Cell} {item : Item} {rest : Strip} {site : Site} :
      Has (some item) rest site →
      Has prev (.next gap item rest) { site with left := gap ++ (item.cells ++ site.left) }

/-- The item is what is found, with the gap behind it and what is left of the gap before it. The row
starts at offset `pos`. -/
def Site.IsFound (site : Site) (pos : Nat) (found : Occurrence (List Char)) : Prop :=
  ∃ read gap, site.gap = read ++ gap ∧ found.start = pos + site.left.length + read.length ∧
    found.stop = found.start + (gap ++ (site.item.cells ++ site.rest.gap)).length

namespace Strip

variable {prev : Option Item} {strip : Strip} {site : Site}

theorem Has.cells_eq (h : strip.Has prev site) :
    strip.cells = site.left ++ (site.gap ++ (site.item.cells ++ site.rest.cells)) := by
  induction h with
  | here => rfl
  | later _ ih => rw [cells, ih, List.append_assoc, List.append_assoc]

theorem Has.reads (h : strip.Has prev site) (hreads : strip.Reads) :
    (Strip.next site.gap site.item site.rest).Reads := by
  induction h with
  | here => exact hreads
  | later _ ih => exact ih hreads.2.2

/-- No gap goes further to the left. -/
theorem Has.isPad_getLast? (h : strip.Has prev site) (hreads : strip.Reads) :
    ∀ cell ∈ site.left.getLast?, isPad cell.char = false := by
  induction h with
  | here => rintro cell ⟨⟩
  | @later prev gap item rest site _ ih =>
    intro cell hcell
    obtain ⟨-, hfits, hrest⟩ := hreads
    by_cases hleft : site.left = []
    · rw [hleft, List.append_nil, List.getLast?_append_of_ne_nil _ hfits.ne_nil] at hcell
      exact hfits.isPad_eq_false cell (List.mem_of_getLast? hcell)
    · rw [← List.append_assoc, List.getLast?_append_of_ne_nil _ hleft] at hcell
      exact ih hrest cell hcell

/-- Where a change of gaps changes nothing, it keeps the gaps on both sides of an item. -/
theorem Has.change_eq {change : GapChange} (h : strip.Has prev site)
    (hsame : strip.regap change prev = strip) :
    change site.prev site.gap (some site.item) = site.gap ∧
      change (some site.item) site.rest.gap site.rest.first = site.rest.gap := by
  induction h with
  | here =>
    obtain ⟨hgap, -, hrest⟩ := Strip.next.inj hsame
    exact ⟨hgap, (gap_regap change _ _).symm.trans (congrArg Strip.gap hrest)⟩
  | later _ ih => exact ih (Strip.next.inj hsame).2.2

end Strip

/-! ## What is found in a row -/

/-- Where nothing is found, the search goes on behind. -/
theorem occurrencesFrom_misses {α : Type} {find : Recognizer α} {first rest : List Cell} :
    ∀ {before : List Char}, (∀ left cell right before, first = left ++ cell :: right →
      find false ⟨before.length, before, cell.char :: (chars right ++ chars rest)⟩ = none) →
    occurrencesFrom find before.length 0 before (chars (first ++ rest)) =
      occurrencesFrom find ((chars first).reverse ++ before).length
        0 ((chars first).reverse ++ before) (chars rest) := by
  induction first with
  | nil => exact fun _ => rfl
  | cons cell first ih =>
    intro before hnone
    have hfirst := hnone [] cell first before rfl
    rw [← chars_append] at hfirst
    have hlater := @ih (cell.char :: before) fun left other right before heq =>
      hnone (cell :: left) other right before (by rw [heq]; rfl)
    rw [List.cons_append, chars_cons, occurrencesFrom_miss hfirst, ← List.length_cons, hlater]
    simp

namespace TokenRule

variable {tokens : TokenRule} {isToken hits : Item → Bool}

/-- What a rule on tokens finds in a row are tokens of the row. The part `read` of the first gap has
been read with a token in front. -/
theorem exists_has (hfollows : tokens.Follows isToken hits)
    (proper : (Recognizer.ofReader tokens.rule).IsProper) {strip : Strip} (hreads : strip.Reads)
    {found : Occurrence (List Char)} :
    ∀ (prev : Option Item) (pos : Nat) (read gap : List Cell) (before : List Char),
      strip.gap = read ++ gap → before.length = pos + read.length →
      found ∈ occurrencesFrom (.ofReader tokens.rule) before.length 0 before
        (chars (strip.withGap gap).cells) →
      ∃ site, strip.Has prev site ∧ isToken site.item = true ∧ site.IsFound pos found := by
  induction strip with
  | last whole =>
    intro prev pos read gap before hgap hpos hmem
    have hpads : ∀ cell ∈ gap, isPad cell.char = true := fun cell hcell =>
      hreads cell (by rw [show whole = _ from hgap]; exact List.mem_append_right _ hcell)
    rw [Strip.withGap, Strip.cells, ← List.append_nil gap, occurrencesFrom_misses
      (ofReader_gap_none hpads (by rintro c ⟨⟩) hfollows.nothing), chars_nil,
      occurrencesFrom_nil proper] at hmem
    cases hmem
  | next whole item rest ih =>
    intro prev pos read gap before hgap hpos hmem
    obtain ⟨hwhole, hfits, hrest⟩ := hreads
    obtain rfl : whole = read ++ gap := hgap
    have hpads : ∀ cell ∈ gap, isPad cell.char = true := fun cell hcell =>
      hwhole cell (List.mem_append_right _ hcell)
    -- Behind the item, the row starts at the offset where the item ends.
    have hlater : ∀ read' gap' before', rest.gap = read' ++ gap' →
        before'.length = pos + (read ++ gap ++ item.cells).length + read'.length →
        found ∈ occurrencesFrom (.ofReader tokens.rule) before'.length 0 before'
          (chars (rest.withGap gap').cells) →
        ∃ site, (Strip.next (read ++ gap) item rest).Has prev site ∧ isToken site.item = true ∧
          site.IsFound pos found := by
      intro read' gap' before' hgap hpos hmem
      obtain ⟨site, hhas, htoken, read'', gap'', hsite, hstart, hstop⟩ :=
        ih hrest (some item) _ read' gap' before' hgap hpos hmem
      refine ⟨_, .later hhas, htoken, read'', gap'', hsite, ?_, hstop⟩
      simp only [List.length_append] at hstart ⊢
      omega
    cases htoken : isToken item with
    | false =>
      rw [Strip.withGap, Strip.cells,
        occurrencesFrom_misses (ofReader_lead_none hfollows hpads hfits htoken),
        occurrencesFrom_misses (ofReader_plain_none hfollows hfits htoken),
        ← rest.withGap_gap] at hmem
      refine hlater [] rest.gap _ rfl ?_ hmem
      simp only [List.length_append, List.length_reverse, length_chars, List.length_nil]
      omega
    | true =>
      have hfind := ofReader_item hfollows before hpads hfits hrest htoken
      have hcells : (Strip.next gap item rest).cells =
          (gap ++ (item.cells ++ rest.gap)) ++ (rest.withGap []).cells := by
        rw [Strip.cells, rest.cells_eq]
        simp
      rw [Strip.withGap, hcells, chars_append,
        occurrencesFrom_found (by simp [chars, hfits.ne_nil])
        (hfind.trans (by rw [length_chars]))] at hmem
      rcases List.mem_cons.mp hmem with rfl | hmem
      · exact ⟨_, .here, htoken, read, gap, rfl, by simpa using hpos, by rw [length_chars]⟩
      · refine hlater rest.gap [] ((chars (gap ++ (item.cells ++ rest.gap))).reverse ++ before)
          (List.append_nil _).symm ?_ ?_
        · simp only [List.length_append, List.length_reverse, length_chars]
          omega
        · rwa [List.length_append, List.length_reverse, Nat.add_comm]

end TokenRule

/-! ## Signs of settled rows -/

section Settle

variable {prev next : Option Item} {item : Item} {gap : List Cell}

theorem exists_sign_of_isSpaced (h : item.isSpaced = true) : ∃ cells, item = .sign cells true := by
  cases item with
  | plain cell => cases h
  | sign cells spaced => exact ⟨cells, congrArg (Item.sign cells) h⟩

/-- Before a spaced sign stands one space, unless the sign is a colon. -/
theorem settle_before (hspaced : item.isSpaced = true) (hcolon : item.isColon = false)
    (hcode : gap.all Cell.isCode = true) : settle prev gap (some item) = codeCells [' '] := by
  obtain ⟨cells, rfl⟩ := exists_sign_of_isSpaced hspaced
  have hcomma : commaNext prev (some (.sign cells true)) = false := rfl
  have hfilled : filled prev (some (.sign cells true)) = true := Bool.or_true _
  have hends : endsGap (some (.sign cells true)) = false := hcolon
  rw [settle_eq fun _ => hcode, hcomma, hfilled, hends]
  rfl

/-- Behind a spaced sign stands one space, unless a gap goes there. -/
theorem settle_behind (hspaced : item.isSpaced = true) (hcode : gap.all Cell.isCode = true) :
    settle (some item) gap next =
      if commaNext (some item) next || endsGap next then [] else codeCells [' '] := by
  rw [settle_eq fun _ => hcode, filled, Option.any_some, hspaced, Bool.true_or, Bool.true_or]
  cases commaNext (some item) next <;> cases endsGap next <;> rfl

/-- Where a gap goes, the line ends or a comma or colon follows. -/
theorem head?_of_closed (h : (commaNext prev next || endsGap next) = true) :
    (next.bind fun item => (chars item.cells).head?) ∈ [none, some '\n', some ',', some ':'] := by
  cases next with
  | none => exact List.mem_cons_self
  | some item =>
    rw [Option.bind_some]
    simp only [commaNext, endsGap, Option.any_some, Option.all_some, Bool.or_eq_true,
      Bool.and_eq_true] at h
    rcases h with ⟨hcomma, -⟩ | hfeed | hcolon
    · cases item with
      | plain cell =>
        rw [show cell = ⟨',', .code⟩ from beq_iff_eq.mp hcomma]
        decide
      | sign cells spaced => cases hcomma
    · rw [Item.head?_of_isFeed hfeed]
      decide
    · rw [Item.head?_of_isColon hcolon]
      decide

end Settle

/-- The text ends in one space, with no other space or tab before it. -/
def EndsInSpace (text : List Char) : Prop :=
  ∃ before, text = before ++ [' '] ∧ ∀ c ∈ before.getLast?, isPad c = false

/-- The text starts with one space and something that is no space or tab, or with the end of a line,
a comma or a colon. -/
def StartsInSpace (text : List Char) : Prop :=
  text.head? ∈ [none, some '\n', some ',', some ':'] ∨
    ∃ c behind, text = ' ' :: c :: behind ∧ isPad c = false

section Settled

variable {strip : Strip} {site : Site}

/-- In front of a spaced sign of a settled row there is one space. -/
theorem Strip.Has.endsInSpace (h : strip.Has none site) (hrow : strip.IsRow)
    (hsettled : strip.Settled none) (hspaced : site.item.isSpaced = true)
    (hcolon : site.item.isColon = false) : EndsInSpace (chars (site.left ++ site.gap)) := by
  obtain ⟨hpads, hfits, -⟩ := h.reads hrow.reads
  have hmarked := hrow.marked
  rw [h.cells_eq] at hmarked
  have hcode := all_isCode (hmarked.gap_before_code hfits hpads (hfits.isCode_of_isSpaced hspaced))
  have hgap := (h.change_eq hsettled.settle).1
  rw [settle_before hspaced hcolon hcode] at hgap
  refine ⟨chars site.left, by rw [← hgap, chars_append, chars_codeCells], fun c hc => ?_⟩
  rw [chars, List.getLast?_map] at hc
  obtain ⟨cell, hcell, rfl⟩ := Option.map_eq_some_iff.mp hc
  exact h.isPad_getLast? hrow.reads cell hcell

/-- Behind a spaced sign of a settled row there is one space, or the sign is next to what
follows. -/
theorem Strip.Has.startsInSpace (h : strip.Has none site) (hrow : strip.IsRow)
    (hsettled : strip.Settled none) (hspaced : site.item.isSpaced = true) :
    StartsInSpace (chars site.rest.cells) := by
  obtain ⟨-, hfits, hrest⟩ := h.reads hrow.reads
  have hmarked := hrow.marked
  rw [h.cells_eq, site.rest.cells_eq, ← List.append_assoc] at hmarked
  have hcode := all_isCode
    (hmarked.gap_behind_code hfits hrest.gap (hfits.isCode_of_isSpaced hspaced))
  have hgap := (h.change_eq hsettled.settle).2
  rw [settle_behind hspaced hcode] at hgap
  split at hgap
  next hclosed =>
    left
    rw [Strip.head?_of_gap_eq_nil hrest hgap.symm]
    exact head?_of_closed hclosed
  next hopen =>
    right
    -- At the end of the text there would be no gap.
    cases hstrip : site.rest with
    | last gap =>
      rw [hstrip] at hopen
      exact absurd (Bool.or_true _) hopen
    | next gap item rest =>
      rw [hstrip] at hgap hrest
      obtain ⟨-, hfits', -⟩ := hrest
      obtain ⟨cell, right, hcells⟩ := List.exists_cons_of_ne_nil hfits'.ne_nil
      refine ⟨cell.char, chars (right ++ rest.cells), ?_,
        hfits'.isPad_eq_false cell (by rw [hcells]; exact List.mem_cons_self)⟩
      rw [Strip.cells, show gap = codeCells [' '] from hgap.symm, hcells]
      rfl

end Settled

/-! ## The operators of a text -/

/-- What the rule on operators has found is `sign`, read between `left` and `right`, with spaces and
tabs before it and all of them behind it. -/
structure Spacing.OperatorAt (text : List Char) (found : Occurrence (List Char))
    (left sign right : List Char) : Prop where
  text_eq : text = left ++ (sign ++ right)
  sign_eq : signAt (sign ++ right) = some sign
  start_le : found.start ≤ left.length
  lead : ∀ c ∈ left.drop found.start, isPad c = true
  stop_eq : found.stop = left.length + (sign ++ right.takeWhile isPad).length

section Found

variable {strip : Strip} {site : Site} {found : Occurrence (List Char)}

theorem Strip.Has.operatorAt (h : strip.Has none site) (hreads : strip.Reads)
    (hsign : site.item.isSign = true) (hfound : site.IsFound 0 found) :
    OperatorAt (chars strip.cells) found (chars (site.left ++ site.gap)) (chars site.item.cells)
      (chars site.rest.cells) := by
  obtain ⟨read, gap, hgap, hstart, hstop⟩ := hfound
  obtain ⟨hpads, hfits, hrest⟩ := h.reads hreads
  have htrail : (chars site.rest.cells).takeWhile isPad = chars site.rest.gap := by
    rw [site.rest.cells_eq, chars_append,
      takeWhile_isPad (isPad_of_mem_chars hrest.gap) hrest.head?_bare]
  refine ⟨by rw [h.cells_eq]; simp, operatorRule_follows.token _ _ hfits hsign, ?_, ?_, ?_⟩
  · rw [length_chars, hgap]
    simp only [List.length_append]
    omega
  · have hdrop : (chars (site.left ++ site.gap)).drop found.start = chars gap := by
      rw [hgap, ← List.append_assoc, chars_append]
      refine List.drop_left' ?_
      rw [length_chars, List.length_append, hstart]
      omega
    rw [hdrop]
    exact isPad_of_mem_chars fun cell hcell => hpads cell (hgap ▸ List.mem_append_right _ hcell)
  · rw [htrail, hstop, hstart, hgap]
    simp only [List.length_append, length_chars]
    omega

/-- What meets no literal is code. -/
theorem Strip.Has.isCode (h : strip.Has none site) (hrow : strip.IsRow)
    (hfound : site.IsFound 0 found)
    (hfree : overlaps (spansFrom 0 strip.cells).toArray found.start found.stop = false) :
    site.item.isCode = true := by
  obtain ⟨read, gap, hgap, hstart, hstop⟩ := hfound
  obtain ⟨-, hfits, -⟩ := h.reads hrow.reads
  have hcells : strip.cells = (site.left ++ read) ++ (gap ++ (site.item.cells ++ site.rest.gap)) ++
      (site.rest.withGap []).cells := by
    rw [h.cells_eq, hgap, site.rest.cells_eq]
    simp
  have hcovers := hrow.marked.covers _ _ _ hcells (by simp [hfits.ne_nil])
  rw [List.length_append, show site.left.length + read.length = found.start by omega,
    ← hstop, hfree] at hcovers
  refine Item.isCode_iff.mpr fun cell hcell => ?_
  by_contra hrole
  exact Bool.false_ne_true (hcovers.mpr ⟨cell, by simp [hcell], hrole⟩)

end Found

/-- A sign of the code is spaced, but for a power sign and a star before a semicolon. -/
theorem Item.Fits.isSpaced {item : Item} {following : List Char} (h : item.Fits following)
    (hsign : item.isSign = true) (hcode : item.isCode = true)
    (hpower : chars item.cells ≠ ['*', '*'])
    (hstar : ¬ (chars item.cells = ['*'] ∧ following.head? = some ';')) : item.isSpaced = true := by
  refine (operatorRule_follows.hits item following h).mpr ⟨hsign, hcode, ?_⟩
  simpa [operatorRule, hpower] using hstar

namespace Spacing

/-- The rules on blanks keep the operators of a text. -/
theorem normalize_sameTokens [Host] (text : List Char) :
    ∃ spaced, normalize Vocabulary.standard text = .ok spaced ∧ SameTokens text spaced := by
  obtain ⟨closed, hclosed, hcalls⟩ := closeCalls_standard (collapse text)
  have hmoves := ((collapse_respaced text).trans hcalls).trans (spaceParentheses_respaced closed)
  refine ⟨_, by rw [normalize, hclosed]; rfl, ((hmoves.sameTokens rfl rfl nofun).1.trans
    (padComments_sameTokens _)).trans (tightenColons_sameTokens _).1⟩

/-- Behind the rules on blanks each operator outside literals stands between single spaces, or has a
single space before it and the end of the line, a comma or a colon behind it. Power signs, colons
and a star before a semicolon are apart. The operators are those of the text. -/
theorem normalize_operators [Host] (text : List Char) :
    ∃ spaced, normalize Vocabulary.standard text = .ok spaced ∧
      operatorTokens spaced = operatorTokens text ∧
      ∀ found ∈ freeOccurrences (.ofReader operator) (scanTyped spaced) spaced,
        ∃ left sign right, OperatorAt spaced found left sign right ∧
          (sign ≠ ['*', '*'] → ¬ (sign = ['*'] ∧ right.head? = some ';') → sign ≠ [':'] →
            EndsInSpace left ∧ StartsInSpace right) := by
  obtain ⟨names, hpattern, hnames⟩ := Vocabulary.exists_callNames
  obtain ⟨strip, hstrip, hspaced⟩ := normalize_spaced hnames hpattern text
  obtain ⟨_, hsame, htokens⟩ := normalize_sameTokens text
  cases hstrip.symm.trans hsame
  have hrow := hspaced.row
  refine ⟨_, hstrip, htokens.operators, fun found hfound => ?_⟩
  obtain ⟨hmem, hfree⟩ := List.mem_filter.mp hfound
  rw [hrow.marked.scanTyped_eq, Bool.not_eq_true'] at hfree
  rw [operator_eq] at hmem
  obtain ⟨site, hhas, hsign, hsite⟩ := TokenRule.exists_has operatorRule_follows
    (operator_eq ▸ operator_spec.isProper) hrow.reads none 0 [] strip.gap [] rfl rfl
    (by rw [strip.withGap_gap]; exact hmem)
  obtain ⟨-, hfits, -⟩ := hhas.reads hrow.reads
  have hcode := hhas.isCode hrow hsite hfree
  refine ⟨_, _, _, hhas.operatorAt hrow.reads hsign hsite, fun hpower hstar hcolon => ?_⟩
  have hitem := hfits.isSpaced hsign hcode hpower hstar
  have hcolon' : site.item.isColon = false := by
    rw [Bool.eq_false_iff]
    exact fun h => hcolon ((Item.isColon_iff hfits).mp h).1
  exact ⟨hhas.endsInSpace hrow hspaced.settled hitem hcolon',
    hhas.startsInSpace hrow hspaced.settled hitem⟩

example : (@normalize Host.plain .standard "a:=-b**2,c".toList).toOption =
    some "a := - b**2, c".toList := by
  decide +kernel

end Spacing

end StructuredText
