import StructuredText.Proofs.Parentheses
import StructuredText.Proofs.Reformatting

/-!
# Blanks before comments

Padding comments keeps the words at parentheses. Behind it every comment that does not start its
line has a blank before it, and the rules on gaps keep it so.

Results:
1. `Spacing.padComments_cells`: what padding makes of the cells of a text.
2. `Spacing.Padded.leads_eq`, `Spacing.Padded.trails_eq`: it keeps the words at parentheses.
3. `Strip.commentsApart_regap`: the rules on gaps keep the blanks before comments.
4. `Spacing.padComments_eq_self`: comments that are padded are not padded again.
-/

namespace StructuredText

open List Literal Spacing

variable {c : Char}

theorem isWordChar_of_isTypedChar (h : isTypedChar c = false) :
    isWordChar c = false := by
  rw [Bool.eq_false_iff]
  intro hword
  simp [isTypedChar, hword] at h

/-! ## Words at parentheses and the padding of comments -/

theorem Lead.step_literal {lead : Lead} {cell : Cell} (hcode : cell.isCode = false)
    (hword : isWordChar cell.char = false) : lead.step cell = .start := by
  rw [step, hcode, hword]
  rfl

theorem leads_literal {lead : Lead} {cell : Cell} (hcode : cell.isCode = false) (rest : List Cell) :
    leads lead (cell :: rest) = leads (lead.step cell) rest := by
  rw [leads, if_neg, nil_append]
  rintro ⟨rfl, -⟩
  cases hcode

theorem paren_not_mem_literal {kind : Kind} {body : List Char} (d : Char) :
    ⟨d, .code⟩ ∉ literalCells kind c body :=
  fun hmem => role_of_mem_literalCells hmem rfl

namespace Spacing

/-- The word behind a comment does not change. -/
theorem PadsTo.after_eq {body body' : List Char} (h : PadsTo body body') (kind : Kind) :
    Lead.after .start (insideCells kind body') = Lead.after .start (insideCells kind body) := by
  obtain ⟨d, core, ending, lead, trail, rfl, rfl, hpads, hd, hending⟩ := h
  have hstep : ∀ (lead : Lead) (c : Char), isWordChar c = false →
      lead.step ⟨c, .inside kind⟩ = .start := fun _ _ hc => Lead.step_literal rfl hc
  have hsplit : ∀ (lead : Lead) (first second : List Char),
      lead.after (insideCells kind (first ++ second)) =
        (lead.after (insideCells kind first)).after (insideCells kind second) := by
    intro lead first second
    rw [insideCells, map_append, Lead.after_append]
    rfl
  have hfirst : ∀ text, Lead.after .start (insideCells kind (d :: text)) =
      Lead.after .start (insideCells kind text) := by
    intro text
    change Lead.after (Lead.step .start ⟨d, .inside kind⟩) (insideCells kind text) = _
    rw [hstep _ _ (by rcases hd with rfl | rfl <;> decide)]
  have hlead : Lead.after .start (insideCells kind lead) = .start := by
    rcases hpads.leads with rfl | rfl
    · rfl
    · exact hstep .start ' ' (by decide)
  rw [hfirst, hfirst, hsplit, hlead, hsplit, hsplit, hsplit]
  generalize Lead.after .start (insideCells kind core) = behind
  rcases hpads.trails with rfl | ⟨rfl, hne⟩
  · rfl
  · -- A closing delimiter starts with a sign, so that the word before it does not matter.
    obtain ⟨e, ending, rfl⟩ := exists_cons_of_ne_nil hne
    obtain rfl : e = '*' := hending e rfl
    simp only [insideCells, map_cons, map_nil, Lead.after_cons, Lead.after_nil]
    rw [hstep _ '*' (by decide), hstep behind '*' (by decide)]

variable {cells out : List Cell}

theorem Padded.leads_eq (h : Padded cells out) (lead : Lead) :
    leads lead out = leads lead cells := by
  induction h generalizing lead with
  | nil => rfl
  | keep cell _ ih => rw [leads, leads, ih]
  | @comment kind c body body' rest out hc hpads _ ih =>
    have hafter : ∀ body, lead.after (literalCells kind c body) =
        Lead.after .start (insideCells kind body) := by
      intro body
      change Lead.after (lead.step ⟨c, .opening kind⟩) _ = _
      rw [@Lead.step_literal lead ⟨c, .opening kind⟩ rfl (isWordChar_of_isTypedChar hc)]
    rw [leads_append, leads_append, leads_eq_nil (paren_not_mem_literal _),
      leads_eq_nil (paren_not_mem_literal _), hafter, hafter, hpads.after_eq, ih]

theorem Padded.leadingWord_eq (h : Padded cells out) : leadingWord out = leadingWord cells := by
  induction h with
  | nil => rfl
  | @keep cell rest out _ ih =>
    cases hword : isWordChar cell.char with
    | true => rw [leadingWord_cons hword, leadingWord_cons hword, ih]
    | false => rw [leadingWord_sign hword, leadingWord_sign hword]
  | comment hc _ _ _ =>
    have hword := isWordChar_of_isTypedChar hc
    rw [literalCells, cons_append, literalCells, cons_append,
      @leadingWord_sign ⟨_, _⟩ hword, @leadingWord_sign ⟨_, _⟩ hword]

theorem Padded.trails_eq (h : Padded cells out) : trails out = trails cells := by
  induction h with
  | nil => rfl
  | keep cell hrest ih => rw [trails, trails, ih, hrest.leadingWord_eq]
  | comment _ _ _ ih =>
    rw [trails_append_of_not_mem (paren_not_mem_literal _),
      trails_append_of_not_mem (paren_not_mem_literal _), ih]

/-! ## Words at parentheses and the blanks before comments -/

/-- The cell starts a comment. -/
def opensComment (cell : Cell) : Bool :=
  match cell.role with
  | .opening kind => kind.isComment
  | _ => false

/-- Comments start with a parenthesis or a slash. -/
def CommentsOpen (cells : List Cell) : Prop :=
  ∀ cell ∈ cells, opensComment cell = true → cell.char = '(' ∨ cell.char = '/'

theorem opening_of_opensComment {cell : Cell} (h : opensComment cell = true) :
    ∃ c kind, cell = ⟨c, .opening kind⟩ ∧ kind.isComment = true := by
  obtain ⟨c, role⟩ := cell
  cases role with
  | code | inside kind => cases h
  | opening kind => exact ⟨c, kind, rfl, h⟩

theorem Marked.commentsOpen {before : List Char} (h : Marked recognizeTyped before cells) :
    CommentsOpen cells := by
  intro cell hmem hopens
  obtain ⟨c, kind, rfl, hkind⟩ := opening_of_opensComment hopens
  refine Marked.opening_of_isComment h.untype ?_ hkind
  have huntyped := mem_map_of_mem (f := Cell.untype) hmem
  cases kind with
  | typed | string => cases hkind
  | blockComment | slashComment | lineComment => exact huntyped

theorem spaceComments_cons (last : Option Char) (cell : Cell) (rest : List Cell) :
    spaceComments last (cell :: rest) =
      codeCells (if opensComment cell then gapBefore last else []) ++
        cell :: spaceComments (some cell.char) rest := by
  obtain ⟨c, role⟩ := cell
  cases role <;> rfl

namespace CommentsOpen

variable {cell : Cell} {rest : List Cell}

theorem tail (h : CommentsOpen (cell :: rest)) : CommentsOpen rest :=
  fun other hother => h other (mem_cons_of_mem _ hother)

theorem isWordChar (h : CommentsOpen cells) (hmem : cell ∈ cells)
    (hopens : opensComment cell = true) : isWordChar cell.char = false := by
  rcases h cell hmem hopens with hc | hc <;> rw [hc] <;> decide

end CommentsOpen

theorem isLayoutBlank_of_mem_gap {last : Option Char} {opens : Bool} :
    ∀ c ∈ (if opens then gapBefore last else []), isLayoutBlank c = true := by
  cases opens with
  | false => simp
  | true => exact isLayoutBlank_of_mem_gapBefore

theorem paren_not_mem_blanks {gap : List Char} (h : ∀ c ∈ gap, isLayoutBlank c = true) {c : Char}
    (hc : isLayoutBlank c = false) : ⟨c, .code⟩ ∉ codeCells gap := by
  intro hmem
  obtain ⟨d, hd, heq⟩ := mem_map.mp hmem
  cases heq
  rw [h c hd] at hc
  cases hc

/-- A blank before a comment leaves the words before parentheses as they are. -/
theorem leads_spaceComments (cells : List Cell) : ∀ last lead, CommentsOpen cells →
    leads lead (spaceComments last cells) = leads lead cells := by
  induction cells with
  | nil => exact fun _ _ _ => rfl
  | cons cell rest ih =>
    intro last lead hopen
    rw [spaceComments_cons, leads_append,
      leads_eq_nil (paren_not_mem_blanks isLayoutBlank_of_mem_gap (by decide)), nil_append]
    split
    next hopens =>
      have hcode : cell.isCode = false := by
        obtain ⟨c, kind, rfl, -⟩ := opening_of_opensComment hopens
        rfl
      have hstep : ∀ lead : Lead, lead.step cell = .start := fun lead =>
        Lead.step_literal hcode (hopen.isWordChar mem_cons_self hopens)
      rw [leads_literal hcode, leads_literal hcode, hstep, hstep, ih _ _ hopen.tail]
    next => rw [codeCells_nil, Lead.after_nil, leads, leads, ih _ _ hopen.tail]

theorem leadingWord_spaceComments (cells : List Cell) : ∀ last, CommentsOpen cells →
    leadingWord (spaceComments last cells) = leadingWord cells := by
  induction cells with
  | nil => exact fun _ _ => rfl
  | cons cell rest ih =>
    intro last hopen
    rw [spaceComments_cons]
    cases hword : isWordChar cell.char with
    | true =>
      have hopens : ¬ opensComment cell = true := by
        intro hopens
        rw [hopen.isWordChar mem_cons_self hopens] at hword
        cases hword
      rw [if_neg hopens, codeCells_nil, nil_append, leadingWord_cons hword,
        leadingWord_cons hword, ih _ hopen.tail]
    | false =>
      rw [leadingWord_sign hword]
      cases hgap : (if opensComment cell then gapBefore last else []) with
      | nil => exact leadingWord_sign hword _
      | cons d gap =>
        have hblank := @isLayoutBlank_of_mem_gap last (opensComment cell) d (by rw [hgap]; simp)
        exact leadingWord_sign (isWordChar_of_isBlank (isBlank_of_isLayoutBlank hblank)) _

/-- A blank before a comment leaves the words behind parentheses as they are. -/
theorem trails_spaceComments (cells : List Cell) : ∀ last, CommentsOpen cells →
    trails (spaceComments last cells) = trails cells := by
  induction cells with
  | nil => exact fun _ _ => rfl
  | cons cell rest ih =>
    intro last hopen
    rw [spaceComments_cons,
      trails_append_of_not_mem (paren_not_mem_blanks isLayoutBlank_of_mem_gap (by decide)),
      trails, trails,
      ih _ hopen.tail, leadingWord_spaceComments _ _ hopen.tail]

/-! ## Padding, in cells -/

theorem untype_spaceComments (cells : List Cell) : ∀ last,
    untype (spaceComments last cells) = spaceComments last (untype cells) := by
  induction cells with
  | nil => exact fun _ => rfl
  | cons cell rest ih =>
    intro last
    have hopens : opensComment cell.untype = opensComment cell := by
      obtain ⟨c, role⟩ := cell
      cases role with
      | code => rfl
      | opening kind | inside kind => cases kind <;> rfl
    rw [spaceComments_cons, untype_append, untype_codeCells, untype_cons, untype_cons, ih,
      spaceComments_cons, hopens]
    rfl

/-- What padding makes of the cells of a text: blanks before comments, and then blanks in them. -/
theorem padComments_cells (hmarked : Marked recognizeTyped [] cells) :
    ∃ out, chars out = padComments (chars cells) ∧ Marked recognizeTyped [] out ∧
      Padded (spaceComments none cells) out := by
  have hmoves := spaceComments_respacing cells [] fun _ _ hmem hkind =>
    Marked.commentsOpen hmarked _ hmem hkind
  have hspaced := hmoves.strict_markedTyped hmarked
  obtain ⟨out, hrepadded, htext⟩ := exists_repadded hspaced.untype
  obtain ⟨cells', rfl, htwin, hpadded⟩ := hrepadded.exists_twin hspaced
  refine ⟨cells', ?_, htwin.marked hspaced (hrepadded.marked []) rfl, hpadded⟩
  rw [← chars_untype cells', ← htext, ← chars_untype cells, padComments_chars hmarked.untype,
    ← untype_spaceComments]
  rfl

/-! ## Comments with a blank before them -/

/-- Each comment starts its line or has a blank before it. `last` stands before the cells. -/
def CommentsApart (last : Option Char) : List Cell → Prop
  | [] => True
  | cell :: rest => (opensComment cell = true → gapBefore last = []) ∧
  CommentsApart (some cell.char) rest

section CommentsApart

variable {last last' : Option Char} {first second rest : List Cell}

theorem commentsApart_append : ∀ {last : Option Char}, CommentsApart last (first ++ second) ↔
    CommentsApart last first ∧ CommentsApart ((chars first).getLast?.or last) second := by
  induction first with
  | nil => simp [CommentsApart]
  | cons cell first ih =>
    intro last
    rw [cons_append, CommentsApart, CommentsApart, ih, and_assoc, chars_cons,
      getLast?_cons]
    cases (chars first).getLast? <;> rfl

/-- What stands before the cells matters only to a comment that starts there. -/
theorem CommentsApart.congr (h : CommentsApart last cells)
    (hhead : ∀ cell ∈ cells.head?, opensComment cell = true → gapBefore last' = []) :
    CommentsApart last' cells := by
  cases cells with
  | nil => trivial
  | cons cell rest => exact ⟨hhead cell rfl, h.2⟩

theorem commentsApart_of_forall (h : ∀ cell ∈ cells, opensComment cell = false) :
    CommentsApart last cells := by
  induction cells generalizing last with
  | nil => trivial
  | cons cell rest ih =>
    refine ⟨fun hopens => ?_, ih fun other hother => h other (mem_cons_of_mem _ hother)⟩
    rw [h cell mem_cons_self] at hopens
    cases hopens

variable {text : List Char} {cell : Cell}

theorem opensComment_of_mem_codeCells (h : cell ∈ codeCells text) :
    opensComment cell = false := by
  rw [opensComment, role_of_mem_codeCells h]

theorem opensComment_of_mem_insideCells {kind : Kind} (h : cell ∈ insideCells kind text) :
    opensComment cell = false := by
  obtain ⟨c, -, rfl⟩ := mem_map.mp h
  rfl

end CommentsApart

theorem commentsApart_spaceComments (cells : List Cell) :
    ∀ last, CommentsApart last (spaceComments last cells) := by
  induction cells with
  | nil => exact fun _ => trivial
  | cons cell rest ih =>
    intro last
    rw [spaceComments_cons]
    refine commentsApart_append.mpr
      ⟨commentsApart_of_forall fun _ => opensComment_of_mem_codeCells, fun hopens => ?_, ih _⟩
    rw [if_pos hopens, chars_codeCells]
    -- A blank is put in exactly if none is there.
    cases last with
    | none => rfl
    | some d =>
      rw [gapBefore]
      split
      next hpad => exact if_pos hpad
      next => rfl

theorem spaceComments_eq_self : ∀ {last : Option Char}, CommentsApart last cells →
    spaceComments last cells = cells := by
  induction cells with
  | nil => exact fun _ => rfl
  | cons cell rest ih =>
    rintro last ⟨hhead, hrest⟩
    rw [spaceComments_cons, ih hrest]
    split
    next hopens => rw [hhead hopens, codeCells_nil, nil_append]
    next => rfl

theorem Padded.commentsApart (h : Padded cells out) :
    ∀ {last : Option Char}, CommentsApart last cells → CommentsApart last out := by
  induction h with
  | nil => exact fun h => h
  | keep cell _ ih => exact fun h => ⟨h.1, ih h.2⟩
  | @comment kind c body body' rest out _ hpads _ ih =>
    intro last h
    obtain ⟨hliteral, hrest⟩ := commentsApart_append.mp h
    refine commentsApart_append.mpr
      ⟨⟨hliteral.1, commentsApart_of_forall fun _ => opensComment_of_mem_insideCells⟩, ?_⟩
    rw [chars_literalCells, getLast?_cons] at hrest ⊢
    rw [hpads.getLast?_eq]
    exact ih hrest

end Spacing

/-- A gap keeps apart what follows it. -/
theorem gapBefore_gap {gap : List Cell} (hpads : ∀ cell ∈ gap, isPad cell.char = true)
    (hne : gap ≠ []) (last : Option Char) : gapBefore ((chars gap).getLast?.or last) = [] := by
  have hchars : chars gap ≠ [] := by simpa [chars] using hne
  obtain ⟨cell, hcell, hchar⟩ := mem_map.mp (getLast_mem hchars)
  rw [getLast?_eq_some_getLast hchars, Option.some_or, gapBefore, ← hchar, hpads cell hcell]
  rfl

/-- The rules on gaps keep the blanks before comments. -/
theorem Strip.commentsApart_regap {strip : Strip} (hreads : strip.Reads) :
    ∀ prev last, (∀ item ∈ prev, ∃ following, item.Fits following) → strip.Clear prev →
      CommentsOpen (strip.regap settle prev).cells → CommentsApart last strip.cells →
      CommentsApart last (strip.regap settle prev).cells := by
  have hgaps : ∀ {gap : List Cell} {last : Option Char}, (∀ cell ∈ gap, isPad cell.char = true) →
      CommentsOpen gap → CommentsApart last gap := by
    intro gap last hpads hopen
    refine commentsApart_of_forall fun cell hcell => ?_
    by_contra hopens
    have hpad := hpads cell hcell
    rcases hopen cell hcell (Bool.not_eq_false _ ▸ hopens) with hc | hc <;> rw [hc] at hpad <;>
      exact absurd hpad (by decide)
  induction strip with
  | last gap =>
    intro prev last _ _ hopen _
    exact hgaps (isPad_of_mem_settle hreads) hopen
  | next gap item rest ih =>
    intro prev last hprev hclear hopen hapart
    obtain ⟨hpads, hfits, hrest⟩ := hreads
    have hcode : filled prev (some item) = true → gap.all Cell.isCode = true :=
      fun h => hclear.all_isCode ⟨hpads, hfits, hrest⟩ hprev (.inl h)
    rw [Strip.regap, Strip.cells] at hopen ⊢
    rw [Strip.cells, commentsApart_append, commentsApart_append] at hapart
    obtain ⟨-, hitem, hlater⟩ := hapart
    have hne : chars item.cells ≠ [] := by simpa [chars] using hfits.ne_nil
    rw [getLast?_eq_some_getLast hne, Option.some_or] at hlater
    rw [commentsApart_append, commentsApart_append, getLast?_eq_some_getLast hne,
      Option.some_or]
    refine ⟨hgaps (isPad_of_mem_settle hpads) fun cell hcell =>
      hopen cell (mem_append_left _ hcell), hitem.congr fun cell hcell hopens => ?_,
      ih hrest (some item) _ (by rintro _ ⟨⟩; exact ⟨_, hfits⟩) hclear.2
        (fun cell hcell => hopen cell (mem_append_right _ (mem_append_right _ hcell)))
        hlater⟩
    by_cases hgap' : settle prev gap (some item) = []
    · by_cases hgap : gap = []
      · rw [hgap']
        rw [hgap] at hitem
        obtain ⟨other, more, hcells⟩ := exists_cons_of_ne_nil hfits.ne_nil
        rw [hcells] at hcell hitem
        cases hcell
        exact hitem.1 hopens
      · -- No comment starts where a gap is closed.
        have hnot : ∀ c ∈ [',', '\n', ':'], c ≠ '(' ∧ c ≠ '/' := by decide
        have hchar := hnot _ (head_of_closed hcode hgap hgap' cell hcell)
        rcases hopen cell
          (mem_append_right _ (mem_append_left _ (mem_of_head? hcell))) hopens
          with hc | hc
        · exact absurd hc hchar.1
        · exact absurd hc hchar.2
    · exact gapBefore_gap (isPad_of_mem_settle hpads) hgap' last

namespace Spacing

/-! ## Comments that are padded -/

variable {cells out : List Cell}

theorem Repadded.eq_self (h : Repadded cells out)
    (hpadded : ∀ entry ∈ literals cells, padLiteral entry.1 entry.2 = entry.2) : out = cells := by
  induction h with
  | nil => rfl
  | code _ _ ih => rw [ih hpadded]
  | @literal c kind body body' rest out _ hpad hout ih =>
    rw [literals_literalCells hout.head?_not_inside'] at hpadded
    have hsame := hpadded _ mem_cons_self
    rw [hpad, List.cons.injEq] at hsame
    rw [hsame.2, ih fun entry hentry => hpadded entry (mem_cons_of_mem _ hentry)]

/-- Comments that are padded and have a blank before them stay. -/
theorem padComments_eq_self (hmarked : Marked recognizeTyped [] cells)
    (hapart : CommentsApart none cells)
    (hpadded : ∀ entry ∈ literalsOf (chars cells), padEntry entry = entry) :
    padComments (chars cells) = chars cells := by
  obtain ⟨out, hrepadded, htext⟩ := exists_repadded hmarked.untype
  rw [← chars_untype, hmarked.untype.literalsOf_eq] at hpadded
  have hsame := hrepadded.eq_self fun entry hentry => congrArg Prod.snd (hpadded entry hentry)
  rw [← chars_untype, padComments_chars hmarked.untype, ← untype_spaceComments,
    spaceComments_eq_self hapart, htext, hsame]

end Spacing

end StructuredText
