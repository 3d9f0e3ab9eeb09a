import Mathlib.Logic.Relation
import StructuredText.Proofs.TypedMarking
import StructuredText.Spacing.Token

/-!
# Changes of blanks

A move puts one run of blanks in the place of another, in the code of a text. It may neither split
nor join words, and may not take the line break from behind a line comment. All that formatting does
to the blanks of the code is a sequence of moves.

Results:
1. `Move.marked`: moves leave every string and comment where it is.
2. `Move.literals_eq`: they keep the strings and comments.
3. `Respacing.marked`, `Respacing.literals_eq`: so do sequences of moves.
-/

namespace StructuredText

open List Literal

variable {first cells second : List Cell} {gap before : List Char}

/-- Whether a line comment ends before these cells, nearest first, with nothing but blanks of its
line in between. -/
def endsInLineComment : List Cell → Bool
  | [] => false
  | ⟨_, .opening kind⟩ :: _ | ⟨_, .inside kind⟩ :: _ => kind == .lineComment
  | ⟨c, .code⟩ :: before => isBlank c && c != '\n' && endsInLineComment before

/-- What moves may do besides: take out the blanks before a colon, part two signs of an operator or
a digit and a colon, and part two code points that a typed literal can hold. -/
structure Licence where
  closesColons : Bool
  partsSigns : Bool
  partsTyped : Bool
deriving DecidableEq

/-- Moves that may do none of these. -/
def Licence.strict : Licence :=
  ⟨false, false, false⟩

/-- Moves that may part signs and what typed literals hold. -/
def Licence.parting : Licence :=
  ⟨false, true, true⟩

/-- Moves that may part what typed literals hold. -/
def Licence.breaking : Licence :=
  ⟨false, false, true⟩

/-- Moves that may take out the blanks before a colon. -/
def Licence.closing : Licence :=
  ⟨true, false, false⟩

/-- Two code points that a blank between them would part. -/
def cling (c d : Char) : Bool :=
  isDigit c && d == ':' || Spacing.operators.contains [c, d]

/-- Blanks may be put in between. -/
structure Splits (licence : Licence) (left right : List Cell) : Prop where
  code : right = [] → ∀ cell ∈ left.getLast?, cell.role.untype = .code
  words : ∀ c ∈ (chars left).getLast?, ∀ d ∈ (chars right).head?,
    isWordChar c = false ∨ isWordChar d = false
  signs : licence.partsSigns = false → ∀ c ∈ (chars left).getLast?, ∀ d ∈ (chars right).head?,
    cling c d = false
  typed : licence.partsTyped = false → ∀ c ∈ (chars left).getLast?, ∀ d ∈ (chars right).head?,
    isTypedChar c = false ∨ isTypedChar d = false

/-- The code points before which blanks may go. -/
def Licence.isSeparator (licence : Licence) (c : Char) : Bool :=
  c == ',' || c == '(' || licence.closesColons && c == ':'

/-- The blanks in between may go. -/
def Joins (licence : Licence) (left right : List Cell) : Prop :=
  (∀ c ∈ (chars left).getLast?, isBlank c = true) ∨
    ∀ d ∈ (chars right).head?, isBlank d = true ∨ licence.isSeparator d = true

/-- The blanks that formatting writes: spaces, tabs and line feeds. -/
def isLayoutBlank (c : Char) : Bool :=
  isPad c || c == '\n'

theorem isBlank_of_isLayoutBlank {c : Char} (h : isLayoutBlank c = true) :
    isBlank c = true := by
  simp only [isLayoutBlank, isPad, Bool.or_eq_true, beq_iff_eq] at h
  rcases h with (rfl | rfl) | rfl <;> decide

theorem isBlank_of_layout (h : ∀ c ∈ gap, isLayoutBlank c = true) : ∀ c ∈ gap, isBlank c = true :=
  fun c hc => isBlank_of_isLayoutBlank (h c hc)

inductive Move (licence : Licence) : List Cell → List Cell → Prop
  | mk {left right : List Cell} {gap gap' : List Char} :
      (∀ c ∈ gap, isBlank c = true) → (∀ c ∈ gap', isLayoutBlank c = true) →
      (∀ cell ∈ right.head?, cell.isInside = false) →
      (gap = [] → gap' ≠ [] → Splits licence left right) →
      (gap ≠ [] → gap' = [] → Joins licence left right) →
      ('\n' ∈ gap → '\n' ∈ gap' ∨ endsInLineComment left.reverse = false) →
      Move licence (left ++ codeCells gap ++ right) (left ++ codeCells gap' ++ right)

/-- Any number of moves. -/
def Respacing (licence : Licence) : List Cell → List Cell → Prop :=
  Relation.ReflTransGen (Move licence)

/-! ## Line ends -/

namespace Literal

theorem blankToLineEnd_append {gap rest : List Char} (hgap : ∀ c ∈ gap, isBlank c = true)
    (hrest : '\n' ∈ gap ∨ blankToLineEnd rest) : blankToLineEnd (gap ++ rest) := by
  induction gap with
  | nil => simpa using hrest
  | cons c gap ih =>
    intro d hd
    rw [cons_append, takeWhile_cons] at hd
    split at hd
    next hne =>
      rcases mem_cons.mp hd with rfl | hd
      · exact hgap d mem_cons_self
      · refine ih (fun e he => hgap e (mem_cons_of_mem _ he)) ?_ d hd
        simpa [Ne.symm (bne_iff_ne.mp hne)] using hrest
    next => cases hd

theorem blankToLineEnd_of_append {gap rest : List Char} (h : blankToLineEnd (gap ++ rest))
    (hgap : '\n' ∉ gap) : blankToLineEnd rest := by
  have hne : ∀ c ∈ gap, (c != '\n') = true := by
    intro c hc
    rw [bne_iff_ne]
    rintro rfl
    exact hgap hc
  intro c hc
  refine h c ?_
  rw [takeWhile_append_of_pos hne]
  exact mem_append_right _ hc

theorem isBlank_of_blankToLineEnd {rest : List Char} (h : blankToLineEnd (gap ++ rest))
    (hgap : '\n' ∉ gap) : ∀ c ∈ gap, isBlank c = true := by
  have hne : ∀ c ∈ gap, (c != '\n') = true := by
    intro c hc
    rw [bne_iff_ne]
    rintro rfl
    exact hgap hc
  intro c hc
  refine h c ?_
  rw [takeWhile_append_of_pos hne]
  exact mem_append_left _ hc

/-- Behind a line feed, the rest does not matter. -/
theorem blankToLineEnd_congr {gap rest rest' : List Char} (h : blankToLineEnd (gap ++ rest))
    (hgap : '\n' ∈ gap) : blankToLineEnd (gap ++ rest') := by
  have hstop : ∀ tail, (gap ++ tail).takeWhile (· != '\n') = gap.takeWhile (· != '\n') := by
    intro tail
    have hlt : (gap.takeWhile (· != '\n')).length ≠ gap.length := by
      intro heq
      have hall := takeWhile_eq_self_iff.mp
        ((takeWhile_sublist (· != '\n')).eq_of_length heq)
      exact absurd rfl (bne_iff_ne.mp (hall _ hgap))
    rw [takeWhile_append, if_neg hlt]
  rw [blankToLineEnd, hstop] at h ⊢
  exact h

end Literal

/-! ## Cells behind line comments -/

theorem endsInLineComment_append (h : endsInLineComment first = true) (second : List Cell) :
    endsInLineComment (first ++ second) = true := by
  induction first with
  | nil => cases h
  | cons cell first ih =>
    obtain ⟨c, role⟩ := cell
    cases role with
    | code =>
      simp only [endsInLineComment, cons_append, Bool.and_eq_true] at h ⊢
      exact ⟨h.1, ih h.2⟩
    | opening kind | inside kind => exact h

theorem endsInLineComment_codeCells {before : List Cell} (hgap : ∀ c ∈ gap, isBlank c = true)
    (hline : '\n' ∉ gap) :
    endsInLineComment (codeCells gap ++ before) = endsInLineComment before := by
  induction gap with
  | nil => rfl
  | cons c gap ih =>
    have hc : c ≠ '\n' := fun h => hline (h ▸ mem_cons_self)
    rw [codeCells_cons, cons_append, endsInLineComment, hgap c mem_cons_self,
      bne_iff_ne.mpr hc, ih (fun d hd => hgap d (mem_cons_of_mem _ hd))
        fun hmem => hline (mem_cons_of_mem _ hmem)]
    rfl

theorem codeCells_reverse (text : List Char) :
    (codeCells text).reverse = codeCells text.reverse := by
  rw [codeCells, codeCells, map_reverse]

theorem endsInLineComment_literalCells {c : Char} {body : List Char} (before : List Cell) :
    endsInLineComment ((literalCells .lineComment c body).reverse ++ before) = true := by
  rcases eq_nil_or_concat body with rfl | ⟨body, d, rfl⟩
  · rfl
  · simp [literalCells, insideCells, endsInLineComment]

/-- Code points that start no literal are code where no literal goes on. -/
theorem Marked.codeCells_of_not_opens (h : Marked recognize before cells) :
    ∀ {first second : List Cell}, cells = first ++ second →
      (∀ c ∈ chars first, ∀ next, opensLiteral c next = false) →
      first = codeCells (chars first) := by
  induction h with
  | nil =>
    intro first second heq _
    obtain ⟨rfl, -⟩ := append_eq_nil_iff.mp heq.symm
    rfl
  | code _ _ ih =>
    intro first second heq hopens
    cases first with
    | nil => rfl
    | cons cell first =>
      obtain ⟨rfl, hrest⟩ := cons_eq_cons.mp heq
      rw [chars_cons, codeCells_cons,
        ← ih hrest fun c hc => hopens c (mem_cons_of_mem _ hc)]
  | @literal before body c kind rest hfind _ _ =>
    intro first second heq hopens
    cases first with
    | nil => rfl
    | cons cell first =>
      obtain ⟨rfl, -⟩ := cons_eq_cons.mp heq
      have hnone := literalAt_eq_none_iff.mpr
        (hopens c mem_cons_self (body ++ chars rest).head?)
      rw [recognize, hnone] at hfind
      cases hfind

/-- Blanks are code where no literal goes on. -/
theorem Marked.codeCells_of_isBlank {before : List Char} {first second : List Cell}
    (h : Marked recognize before (first ++ second))
    (hblank : ∀ c ∈ chars first, isBlank c = true) : first = codeCells (chars first) :=
  h.codeCells_of_not_opens rfl fun c hc => opensLiteral_of_isBlank (hblank c hc)

/-- A run of blanks at the start of a text is code. -/
theorem Marked.takeWhile_code (h : Marked recognize before cells) {p : Char → Bool}
    (hp : ∀ c, p c = true → isBlank c = true) :
    ∃ rest, cells = codeCells ((chars cells).takeWhile p) ++ rest ∧
      chars rest = (chars cells).dropWhile p := by
  obtain ⟨first, rest, rfl, hlength⟩ : ∃ first rest, cells = first ++ rest ∧
      first.length = ((chars cells).takeWhile p).length := by
    refine ⟨cells.take ((chars cells).takeWhile p).length,
      cells.drop ((chars cells).takeWhile p).length, (take_append_drop _ _).symm, ?_⟩
    rw [length_take, Nat.min_eq_left]
    have := (takeWhile_sublist (l := chars cells) p).length_le
    rwa [length_chars] at this
  have hsplit := takeWhile_append_dropWhile (p := p) (l := chars (first ++ rest))
  rw [chars_append] at hsplit hlength ⊢
  obtain ⟨hrun, hrest⟩ := append_inj hsplit (by rw [← hlength, length_chars])
  have hfirst := h.codeCells_of_isBlank fun c hc => by
    rw [← hrun] at hc
    exact hp c (mem_takeWhile_imp hc)
  exact ⟨rest, by rw [hrun, ← hfirst], hrest.symm⟩

/-- Blanks before a cell that no literal goes on into are code: no literal ends in a blank. -/
theorem Marked.codeCells_of_head {before : List Char} {cells : List Cell}
    (h : Marked recognize before cells) :
    ∀ {first second third : List Cell}, cells = first ++ (second ++ third) →
      (∀ c ∈ chars second, isBlank c = true) → third ≠ [] →
      (∀ cell ∈ third.head?, cell.isInside = false) → second = codeCells (chars second) := by
  induction h with
  | nil =>
    intro first second third heq _ hne _
    obtain ⟨-, htail⟩ := append_eq_nil_iff.mp heq.symm
    exact absurd (append_eq_nil_iff.mp htail).2 hne
  | @code before c tail hfind htail ih =>
    intro first second third heq hblank hne hhead
    cases first with
    | nil =>
      have hmarked := Marked.code hfind htail
      rw [nil_append] at heq
      rw [heq] at hmarked
      exact hmarked.codeCells_of_isBlank hblank
    | cons cell first => exact ih (cons_eq_cons.mp heq).2 hblank hne hhead
  | @literal before body c kind tail hfind htail ih =>
    intro first second third heq hblank hne hhead
    rw [← append_assoc] at heq
    rcases literalCells_append_eq heq hhead with hnil | ⟨middle, hmiddle, rfl⟩
    · obtain ⟨rfl, rfl⟩ := append_eq_nil_iff.mp hnil
      rfl
    rcases append_eq_append_iff.mp hmiddle with ⟨other, hliteral, hsecond⟩ | ⟨other,
      hfirst, rfl⟩
    · cases other with
      | nil =>
        rw [nil_append] at hsecond
        subst hsecond
        exact @ih [] _ _ rfl hblank hne hhead
      | cons cell other =>
        -- The literal ends in `second`, so that it would end in a blank.
        have htext : c :: body = chars first ++ chars (cell :: other) := by
          rw [← chars_append, ← hliteral, chars_literalCells]
        obtain ⟨d, hd⟩ : ∃ d, (chars (cell :: other)).getLast? = some d :=
          ⟨_, getLast?_eq_some_getLast (by simp)⟩
        have hnot := isBlank_getLast?_of_literalAt hfind
          (by rw [chars_append]; simpa [chars] using fun _ => hne) d
          (by rw [htext, getLast?_append, hd]; rfl)
        have hmem : d ∈ chars second := by
          rw [hsecond, chars_append]
          exact mem_append_left _ (mem_of_getLast? hd)
        rw [hblank d hmem] at hnot
        cases hnot
    · exact ih (append_assoc ..) hblank hne hhead

/-- Blanks up to a cell of code are code. -/
theorem Marked.codeCells_of_last {third : List Cell}
    (h : Marked recognize before (first ++ (second ++ third)))
    (hblank : ∀ c ∈ chars second, isBlank c = true)
    (hlast : ∀ cell ∈ second.getLast?, cell.role = .code) : second = codeCells (chars second) := by
  rcases eq_nil_or_concat second with rfl | ⟨init, ⟨c, role⟩, rfl⟩
  · rfl
  rw [concat_eq_append] at h hblank hlast ⊢
  obtain rfl : role = .code := hlast ⟨c, role⟩ (by simp)
  rw [append_assoc] at h
  have hinit := h.codeCells_of_head rfl
    (fun d hd => hblank d (by rw [chars_append]; exact mem_append_left _ hd))
    (cons_ne_nil _ _) (by rintro cell ⟨⟩; rfl)
  rw [chars_append, StructuredText.codeCells_append, ← hinit]
  rfl

/-! ## Putting a text behind another -/

/-- Strings and comments do not depend on what stands before. -/
theorem Marked.rebase {before' : List Char} (h : Marked recognize before cells) :
    Marked recognize before' cells := by
  induction h generalizing before' with
  | nil => exact .nil
  | code hfind _ ih => exact .code hfind ih
  | literal hfind _ ih => exact .literal hfind ih

/-- What follows the first part of a text can be replaced, if no literal starts where the parts
meet, none that is open goes on, and no line comment takes in what follows it. -/
theorem Marked.replace {before : List Char} {cells : List Cell}
    (h : Marked recognize before cells) :
    ∀ {left rest rest' : List Cell}, cells = left ++ rest →
      (∀ cell ∈ rest.head?, cell.isInside = false) → Marked recognize [] rest' →
      (∀ c, left.getLast? = some ⟨c, .code⟩ → opensLiteral c (chars rest').head? = false) →
      (rest = [] → rest' = [] ∨ ∀ cell ∈ left.getLast?, cell.role = .code) →
      (endsInLineComment left.reverse = true → blankToLineEnd (chars rest')) →
      Marked recognize before (left ++ rest') := by
  induction h with
  | nil =>
    intro left rest rest' heq _ hrest' _ _ _
    obtain ⟨rfl, rfl⟩ := append_eq_nil_iff.mp heq.symm
    exact hrest'.rebase
  | @code before c tail hfind htail ih =>
    intro left rest rest' heq hhead hrest' hseam hopen hline
    cases left with
    | nil => exact hrest'.rebase
    | cons cell left =>
      rw [cons_append] at heq
      obtain ⟨rfl, rfl⟩ := cons_eq_cons.mp heq
      refine .code ?_ (ih rfl hhead hrest' ?_ ?_ ?_)
      · refine literalAt_eq_none_iff.mpr ?_
        cases left with
        | nil => exact hseam c rfl
        | cons other left =>
          have : opensLiteral c (chars (other :: left ++ rest)).head? = false :=
            literalAt_eq_none_iff.mp hfind
          exact this
      · intro d hd
        exact hseam d (by rw [getLast?_cons, hd]; rfl)
      · intro hnil
        refine (hopen hnil).imp_right fun hall cell hcell => hall cell ?_
        rw [getLast?_cons, Option.mem_def.mp hcell]
        rfl
      · intro hends
        refine hline ?_
        rw [reverse_cons]
        exact endsInLineComment_append hends _
  | @literal before body c kind tail hfind htail ih =>
    intro left rest rest' heq hhead hrest' hseam hopen hline
    rcases literalCells_append_eq heq hhead with rfl | ⟨middle, rfl, rfl⟩
    · exact hrest'.rebase
    rw [append_assoc]
    have hlast : ∀ {cell}, middle.getLast? = some cell →
        (literalCells kind c body ++ middle).getLast? = some cell := by
      intro cell hcell
      rw [getLast?_append, hcell]
      rfl
    refine .literal ?_ (ih rfl hhead hrest' ?_ ?_ ?_)
    · refine literalAt_append hfind ?_ ?_
      · -- The literal can be open only if it ends both texts.
        intro _ hnil
        obtain ⟨rfl, rfl⟩ := append_eq_nil_iff.mp (map_eq_nil_iff.mp hnil)
        rcases hopen rfl with rfl | hcode
        · rfl
        · obtain ⟨cell, hcell⟩ : ∃ cell, (literalCells kind c body).getLast? = some cell :=
            ⟨_, getLast?_eq_some_getLast (cons_ne_nil _ _)⟩
          rw [append_nil] at hcode
          exact absurd (hcode cell hcell)
            (role_of_mem_literalCells (mem_of_getLast? hcell))
      · rintro rfl
        have hblank := blankToLineEnd_of_literalAt hfind
        rw [chars_append] at hblank ⊢
        by_cases hfeed : '\n' ∈ chars middle
        · exact blankToLineEnd_congr hblank hfeed
        · have hmiddle := isBlank_of_blankToLineEnd hblank hfeed
          refine blankToLineEnd_append hmiddle (.inr (hline ?_))
          rw [htail.codeCells_of_isBlank hmiddle, reverse_append, codeCells_reverse,
            endsInLineComment_codeCells (by simpa using hmiddle) (by simpa using hfeed)]
          have := @endsInLineComment_literalCells c body []
          rwa [append_nil] at this
    · intro d hd
      exact hseam d (hlast hd)
    · intro hnil
      exact (hopen hnil).imp_right fun hall cell hcell => hall cell (hlast hcell)
    · intro hends
      refine hline ?_
      rw [reverse_append]
      exact endsInLineComment_append hends _

/-! ## What a marking says where it is cut -/

theorem endsInLineComment_append_cases (h : endsInLineComment (first ++ second) = true) :
    endsInLineComment first = true ∨
      (endsInLineComment second = true ∧ '\n' ∉ chars first) := by
  induction first with
  | nil => exact .inr ⟨h, by simp⟩
  | cons cell first ih =>
    obtain ⟨c, role⟩ := cell
    cases role with
    | opening kind | inside kind => exact .inl h
    | code =>
      simp only [cons_append, endsInLineComment, Bool.and_eq_true, bne_iff_ne] at h ⊢
      rcases ih h.2 with hfirst | ⟨hsecond, hline⟩
      · exact .inl ⟨h.1, hfirst⟩
      · refine .inr ⟨hsecond, ?_⟩
        rw [chars_cons, mem_cons, not_or]
        exact ⟨Ne.symm h.1.2, hline⟩

/-- Behind a line comment only blanks stand up to the end of its line. -/
theorem Marked.blankToLineEnd_of_ends (h : Marked recognize before cells) :
    ∀ {left rest : List Cell}, cells = left ++ rest →
      (∀ cell ∈ rest.head?, cell.isInside = false) →
      endsInLineComment left.reverse = true → blankToLineEnd (chars rest) := by
  induction h with
  | nil =>
    intro left rest heq _ hends
    obtain ⟨rfl, -⟩ := append_eq_nil_iff.mp heq.symm
    cases hends
  | @code before c tail _ _ ih =>
    intro left rest heq hhead hends
    cases left with
    | nil => cases hends
    | cons cell left =>
      obtain ⟨rfl, rfl⟩ := cons_eq_cons.mp heq
      rw [reverse_cons] at hends
      rcases endsInLineComment_append_cases hends with hleft | ⟨hcell, -⟩
      · exact ih rfl hhead hleft
      · simp [endsInLineComment] at hcell
  | @literal before body c kind tail hfind _ ih =>
    intro left rest heq hhead hends
    rcases literalCells_append_eq heq hhead with rfl | ⟨middle, rfl, rfl⟩
    · cases hends
    rw [reverse_append] at hends
    rcases endsInLineComment_append_cases hends with hmiddle | ⟨hliteral, hline⟩
    · exact ih rfl hhead hmiddle
    · have hkind : kind = .lineComment := by
        rcases eq_nil_or_concat body with rfl | ⟨body, d, rfl⟩
        · simpa [literalCells, insideCells, endsInLineComment] using hliteral
        · simpa [literalCells, insideCells, endsInLineComment] using hliteral
      subst hkind
      have hblank := blankToLineEnd_of_literalAt hfind
      rw [chars_append] at hblank
      exact blankToLineEnd_of_append hblank (by simpa [chars] using hline)

/-- No literal starts at a cell of code. -/
theorem Marked.opensLiteral_of_code {c : Char}
    (h : Marked recognize before (first ++ ⟨c, .code⟩ :: second)) :
    opensLiteral c (chars second).head? = false := by
  have hcode := h.of_append rfl (by simp [Cell.isInside])
  exact literalAt_eq_none_iff.mp hcode.code_inv.1

/-! ## Moves keep strings and comments -/

variable {licence : Licence} {cells cells' : List Cell}

theorem head?_codeCells_append {gap : List Char} {right : List Cell}
    (h : ∀ cell ∈ right.head?, cell.isInside = false) :
    ∀ cell ∈ (codeCells gap ++ right).head?, cell.isInside = false := by
  cases gap with
  | nil => exact h
  | cons c gap =>
    rintro cell ⟨⟩
    rfl

/-- Moves leave every string and comment where it is. -/
theorem Move.marked (h : Move licence cells cells') (hmarked : Marked recognize [] cells) :
    Marked recognize [] cells' := by
  cases h with
  | @mk left right gap gap' hgap hlayout hright hopens hcloses hline =>
    have hgap' := isBlank_of_layout hlayout
    rw [append_assoc] at hmarked ⊢
    have hhead := @head?_codeCells_append gap right hright
    have hright' := hmarked.of_append (append_assoc left (codeCells gap) right).symm hright
    have hrest' : Marked recognize [] (codeCells gap' ++ right) :=
      .codeCells_append (fun c hc => opensLiteral_of_isBlank (hgap' c hc)) hright'.rebase
    refine hmarked.replace rfl hhead hrest' ?_ ?_ ?_
    · intro c hc
      obtain ⟨init, rfl⟩ := getLast?_eq_some_iff.mp hc
      rw [append_assoc] at hmarked
      have hcode : opensLiteral c (chars (codeCells gap ++ right)).head? = false :=
        hmarked.opensLiteral_of_code
      cases gap' with
      | cons d gap' => exact opensLiteral_congr_of_isBlank hcode (hgap' d mem_cons_self)
      | nil =>
        by_cases hgapnil : gap = []
        · rw [hgapnil] at hcode
          exact hcode
        rcases hcloses hgapnil rfl with hlast | hfirst
        · exact opensLiteral_of_isBlank (hlast c (by simp)) _
        · rw [codeCells_nil, nil_append]
          cases hd : (chars right).head? with
          | none => exact opensLiteral_congr hcode (by simp) (by simp)
          | some d =>
            rcases hfirst d hd with hblank | hsep
            · exact opensLiteral_congr_of_isBlank hcode hblank
            · simp only [Licence.isSeparator, Bool.or_eq_true, Bool.and_eq_true, beq_iff_eq] at hsep
              refine opensLiteral_congr hcode ?_ ?_ <;> rintro ⟨⟩ <;> simp at hsep
    · -- A literal at the end of the text stays at its end.
      intro hnil
      obtain ⟨hgapnil, rfl⟩ := append_eq_nil_iff.mp hnil
      have hnogap : gap = [] := map_eq_nil_iff.mp hgapnil
      by_cases hgap'nil : gap' = []
      · exact .inl (by rw [hgap'nil]; rfl)
      · refine .inr fun cell hcell => ?_
        rw [← hmarked.untype_role cell (mem_append_left _ (mem_of_getLast? hcell))]
        exact (hopens hnogap hgap'nil).code rfl cell hcell
    · intro hends
      have hblank := hmarked.blankToLineEnd_of_ends rfl hhead hends
      rw [chars_append, chars_codeCells] at hblank ⊢
      refine blankToLineEnd_append hgap' ?_
      by_cases hfeed : '\n' ∈ gap
      · refine (hline hfeed).imp_right fun hnot => ?_
        rw [hnot] at hends
        cases hends
      · exact .inr (blankToLineEnd_of_append hblank hfeed)

/-- Moves keep the strings and comments. -/
theorem Move.literals_eq (h : Move licence cells cells') : literals cells' = literals cells := by
  cases h with
  | mk _ _ hright _ _ _ =>
    rw [append_assoc, append_assoc, literals_append (head?_codeCells_append hright),
      literals_append (head?_codeCells_append hright), literals_append hright,
      literals_append hright, literals_codeCells, literals_codeCells]

theorem Respacing.trans {third : List Cell} (h : Respacing licence first second)
    (h' : Respacing licence second third) : Respacing licence first third :=
  Relation.ReflTransGen.trans h h'

theorem Respacing.marked (h : Respacing licence cells cells')
    (hmarked : Marked recognize [] cells) : Marked recognize [] cells' := by
  induction h with
  | refl => exact hmarked
  | tail _ hmove ih => exact hmove.marked ih

theorem Respacing.literals_eq (h : Respacing licence cells cells') :
    literals cells' = literals cells := by
  induction h with
  | refl => rfl
  | tail _ hmove ih => rw [hmove.literals_eq, ih]

end StructuredText
