import StructuredText.Proofs.BlockDepth

/-!
# Blanks at the starts and ends of lines

Two texts that differ in the blanks at the starts and ends of their lines, none of which belong to a
literal, have the same literals.

Results:
1. `Reblank.diverges`: how two such texts go apart.
2. `Diverges.exists_literal`: a literal that starts in both is the same in both.
3. `Reblank.agree`: all other code points have the same roles.
-/

namespace StructuredText

open List Literal

variable {rest cells cells' : List Cell} {blanks before body : List Char} {c : Char} {kind : Kind}

/-! ## Texts with other blanks around their lines -/

/-- Blanks that end no line. -/
def LineBlanks (text : List Char) : Prop :=
  ∀ c ∈ text, isBlank c = true ∧ c ≠ '\n'

theorem lineBlanks_nil : LineBlanks [] :=
  fun _ hc => absurd hc not_mem_nil

theorem LineBlanks.blankToLineEnd {rest : List Char} (h : LineBlanks blanks)
    (hrest : blankToLineEnd rest) : blankToLineEnd (blanks ++ rest) :=
  blankToLineEnd_append (fun c hc => (h c hc).1) (.inr hrest)

theorem blankToLineEnd_of_feed (rest : List Char) : blankToLineEnd ('\n' :: rest) := by
  intro c hc
  rw [takeWhile_cons_of_neg (by decide)] at hc
  cases hc

/-- What follows on a line decides, unless the line has ended. -/
theorem blankToLineEnd_exchange {first second second' : List Char}
    (h : blankToLineEnd (first ++ second)) (h' : '\n' ∈ first ∨ blankToLineEnd second') :
    blankToLineEnd (first ++ second') := by
  by_cases hfeed : '\n' ∈ first
  · exact blankToLineEnd_congr h hfeed
  · exact blankToLineEnd_append (isBlank_of_blankToLineEnd h hfeed) h'

/-- Two texts from some place on, up to the blanks at the ends of their lines and at the starts of
the later ones. Blanks may differ on lines that are `free`, which start inside no literal. `same`
relates all other cells. -/
inductive Reblank (same : Cell → Cell → Prop) : Bool → List Cell → List Cell → Prop
  | finish {free : Bool} {trailing trailing' : List Char} :
      LineBlanks trailing → LineBlanks trailing' → (free = false → trailing = trailing') →
      Reblank same free (codeCells trailing) (codeCells trailing')
  | keep {free : Bool} {cell cell' : Cell} {rest rest' : List Cell} :
      same cell cell' → cell.char ≠ '\n' → Reblank same free rest rest' →
      Reblank same free (cell :: rest) (cell' :: rest')
  | next {free free' : Bool} {trailing trailing' gap gap' : List Char} {ending ending' : Cell}
      {rest rest' : List Cell} :
      LineBlanks trailing → LineBlanks trailing' → (free = false → trailing = trailing') →
      same ending ending' → ending.char = '\n' → LineBlanks gap → LineBlanks gap' →
      (free' = false → gap = gap') →
      (free' = true → ∀ cell ∈ (codeCells gap ++ rest).head?, cell.isInside = false) →
      Reblank same free' rest rest' →
      Reblank same free (codeCells trailing ++ ending :: (codeCells gap ++ rest))
        (codeCells trailing' ++ ending' :: (codeCells gap' ++ rest'))

/-- Two cells of the same code point. -/
def SameChar (cell cell' : Cell) : Prop :=
  cell.char = cell'.char

/-! ## Where two texts go apart -/

/-- Two texts start with the same code points. They end there, or blanks of the code follow in one
of them, at the start or at the end of a line. -/
def Diverges (cells cells' : List Cell) : Prop :=
  ∃ first first' rest rest', cells = first ++ rest ∧ cells' = first' ++ rest' ∧
    chars first = chars first' ∧
    (rest = [] ∧ rest' = [] ∨
      ((∃ c tail, rest = ⟨c, .code⟩ :: tail) ∨ ∃ c tail, rest' = ⟨c, .code⟩ :: tail) ∧
        ((chars first).getLast? = some '\n' ∨
          blankToLineEnd (chars rest) ∧ blankToLineEnd (chars rest')))

theorem Diverges.symm (h : Diverges cells cells') : Diverges cells' cells := by
  obtain ⟨first, first', rest, rest', hcells, hcells', hsame, hend⟩ := h
  refine ⟨first', first, rest', rest, hcells', hcells, hsame.symm, ?_⟩
  rw [← hsame]
  exact hend.imp And.symm (And.imp Or.symm (Or.imp_right And.symm))

/-- Code points that both texts have at their starts. -/
theorem Diverges.cons {cell cell' : Cell} {cells cells' : List Cell} (hcell : SameChar cell cell')
    (h : Diverges cells cells') : Diverges (cell :: cells) (cell' :: cells') := by
  obtain ⟨first, first', rest, rest', rfl, rfl, hsame, hend⟩ := h
  refine ⟨cell :: first, cell' :: first', rest, rest', rfl, rfl, ?_, ?_⟩
  · rw [chars_cons, chars_cons, hsame, hcell]
  · refine hend.imp_right fun ⟨hcode, hline⟩ => ⟨hcode, hline.imp_left fun hlast => ?_⟩
    rw [chars_cons, getLast?_cons, hlast]
    rfl

theorem exists_code_head (rest : List Cell) (h : blanks ≠ []) :
    ∃ c tail, codeCells blanks ++ rest = ⟨c, .code⟩ :: tail := by
  obtain ⟨c, blanks, rfl⟩ := exists_cons_of_ne_nil h
  exact ⟨c, codeCells blanks ++ rest, rfl⟩

/-- Blanks of the code at the start of one of two texts, which end their lines. -/
theorem diverges_blanks {blanks blanks' : List Char} {rest rest' : List Cell}
    (h : LineBlanks blanks) (h' : LineBlanks blanks') (hne : blanks ≠ [] ∨ blanks' ≠ [])
    (hrest : blankToLineEnd (chars rest)) (hrest' : blankToLineEnd (chars rest')) :
    Diverges (codeCells blanks ++ rest) (codeCells blanks' ++ rest') := by
  refine ⟨[], [], codeCells blanks ++ rest, codeCells blanks' ++ rest', rfl, rfl, rfl,
    .inr ⟨?_, .inr ⟨?_, ?_⟩⟩⟩
  · exact hne.imp (exists_code_head _) (exists_code_head _)
  · rw [chars_append, chars_codeCells]
    exact h.blankToLineEnd hrest
  · rw [chars_append, chars_codeCells]
    exact h'.blankToLineEnd hrest'

theorem Reblank.diverges {free : Bool} (h : Reblank SameChar free cells cells') :
    Diverges cells cells' := by
  induction h with
  | @finish free trailing trailing' htrailing htrailing' _ =>
    by_cases hne : trailing ≠ [] ∨ trailing' ≠ []
    · have := @diverges_blanks _ _ [] [] htrailing htrailing' hne (by rintro c ⟨⟩) (by rintro c ⟨⟩)
      rwa [append_nil, append_nil] at this
    · obtain ⟨rfl, rfl⟩ : trailing = [] ∧ trailing' = [] := by simpa using hne
      exact ⟨[], [], [], [], rfl, rfl, rfl, .inl ⟨rfl, rfl⟩⟩
  | keep hcell _ _ ih => exact ih.cons hcell
  | @next free free' trailing trailing' gap gap' ending ending' rest rest' htrailing
      htrailing' _ hending hfeed hgap hgap' _ _ _ ih =>
    by_cases hne : trailing ≠ [] ∨ trailing' ≠ []
    · refine diverges_blanks htrailing htrailing' hne ?_ ?_
      · rw [chars_cons, hfeed]
        exact blankToLineEnd_of_feed _
      · rw [chars_cons, ← hending, hfeed]
        exact blankToLineEnd_of_feed _
    · obtain ⟨rfl, rfl⟩ : trailing = [] ∧ trailing' = [] := by simpa using hne
      by_cases hgaps : gap ≠ [] ∨ gap' ≠ []
      · refine ⟨[ending], [ending'], _, _, rfl, rfl, ?_, .inr ⟨?_, .inl ?_⟩⟩
        · rw [chars_cons, chars_cons, hending, chars_nil]
        · exact hgaps.imp (exists_code_head _) (exists_code_head _)
        · rw [chars_cons, hfeed]
          rfl
      · obtain ⟨rfl, rfl⟩ : gap = [] ∧ gap' = [] := by simpa using hgaps
        exact ih.cons hending

/-! ## Literals that start in both texts -/

/-- What is found at the start of a text is marked there. -/
theorem Marked.exists_literal_of_literalAt {rest : List Char} (h : Marked recognize before cells)
    (htext : chars cells = c :: (body ++ rest))
    (hfound : literalAt (c :: (body ++ rest)) = some (body.length + 1, kind)) :
    ∃ others, cells = literalCells kind c body ++ others ∧
      ∀ cell ∈ others.head?, cell.isInside = false := by
  cases h with
  | nil => cases htext
  | @code _ d others hnone _ =>
    have hnone : literalAt (chars (⟨d, .code⟩ :: others)) = none := hnone
    rw [htext, hfound] at hnone
    cases hnone
  | @literal _ body' c' kind' others hliteral hothers =>
    have hliteral :
        literalAt (c' :: (body' ++ chars others)) = some (body'.length + 1, kind') := hliteral
    rw [chars_append, chars_literalCells] at htext
    rw [← cons_append, htext, hfound, Option.some.injEq, Prod.mk.injEq] at hliteral
    obtain ⟨hc, hbody⟩ := cons_eq_cons.mp htext
    obtain ⟨hbody, -⟩ := append_inj hbody (by omega)
    exact ⟨others, by rw [hliteral.2, hc, hbody], hothers.head?_not_inside⟩

/-- A literal of a text that goes on with code where the texts go apart is in both of them. -/
theorem exists_literal_of_code {before' : List Char} {d : Char}
    {first first' tail rest' : List Cell}
    (hmarked : Marked recognize before (first ++ ⟨d, .code⟩ :: tail))
    (hmarked' : Marked recognize before' (first' ++ rest'))
    (hcells : first ++ ⟨d, .code⟩ :: tail = literalCells kind c body ++ rest)
    (hrest : ∀ cell ∈ rest.head?, cell.isInside = false) (hsame : chars first = chars first')
    (hend : (chars first).getLast? = some '\n' ∨ blankToLineEnd (chars rest')) :
    ∃ others, first' ++ rest' = literalCells kind c body ++ others ∧
      ∀ cell ∈ others.head?, cell.isInside = false := by
  obtain rfl | ⟨middle, rfl, rfl⟩ := literalCells_append_eq hcells.symm (by rintro cell ⟨⟩; rfl)
  · cases hcells
  · rw [hcells] at hmarked
    have hfound : literalAt (c :: (body ++ chars (middle ++ ⟨d, .code⟩ :: tail))) =
        some (body.length + 1, kind) := (hmarked.literal_inv hrest).1
    refine hmarked'.exists_literal_of_literalAt ?_ (@literalAt_append _ _ _
      (chars middle ++ chars rest') _ hfound (fun _ hnil => ?_) ?_)
    · rw [chars_append, ← hsame, chars_append, chars_literalCells, cons_append,
        cons_append, append_assoc]
    · simp at hnil
    · rintro rfl
      have hblank := blankToLineEnd_of_literalAt hfound
      rw [chars_append] at hblank
      refine blankToLineEnd_exchange hblank (hend.imp_left fun hlast => ?_)
      -- The literal itself ends in no blank.
      rcases eq_nil_or_concat middle with rfl | ⟨init, ending, rfl⟩
      · rw [append_nil, chars_literalCells] at hlast
        have := isBlank_getLast?_of_literalAt hfound (by simp) '\n' hlast
        exact absurd this (by decide)
      · have hending : ending.char = '\n' := by
          rw [concat_eq_append, ← append_assoc, chars_append, chars_cons, chars_nil,
            getLast?_concat] at hlast
          exact Option.some.inj hlast
        simp [hending]

/-- A code point that opens a literal in one text does so in the other. -/
theorem Diverges.opensLiteral {role : Role} (h : Diverges (⟨c, role⟩ :: rest) cells')
    (hopens : opensLiteral c (chars rest).head? = true) :
    ∃ cell' rest', cells' = cell' :: rest' ∧ cell'.char = c ∧
      Literal.opensLiteral c (chars rest').head? = true := by
  have hblank : isBlank c = false := by
    by_contra hblank
    rw [opensLiteral_of_isBlank (by simpa using hblank)] at hopens
    cases hopens
  obtain ⟨first, first', behind, behind', hcells, rfl, hsame, hend⟩ := h
  cases first with
  | nil =>
    rw [nil_append] at hcells
    subst hcells
    rcases hend with ⟨hnil, -⟩ | ⟨-, hfeed | ⟨hline, -⟩⟩
    · cases hnil
    · cases hfeed
    · rw [isBlank_head?_of_blankToLineEnd hline c rfl] at hblank
      cases hblank
  | cons cell first =>
    rw [cons_append] at hcells
    obtain ⟨rfl, rfl⟩ := cons_eq_cons.mp hcells
    obtain ⟨cell', first', rfl⟩ : ∃ cell' others, first' = cell' :: others :=
      exists_cons_of_ne_nil (by rintro rfl; cases hsame)
    rw [chars_cons, chars_cons] at hsame
    obtain ⟨hchar, hsame⟩ := cons_eq_cons.mp hsame
    refine ⟨cell', first' ++ behind', rfl, hchar.symm, ?_⟩
    rw [chars_append, ← hsame]
    rw [chars_append] at hopens
    cases hfirst : chars first with
    | cons d text => rwa [hfirst] at hopens
    | nil =>
      rw [hfirst, nil_append] at hopens
      rw [chars_cons, hfirst] at hend
      rcases hend with ⟨rfl, rfl⟩ | ⟨-, hfeed | ⟨hline, hline'⟩⟩
      · exact hopens
      · obtain rfl : c = '\n' := Option.some.inj hfeed
        cases hblank
      · -- The text behind starts with a blank, which opens nothing.
        by_contra hnone
        rw [Bool.not_eq_true] at hnone
        have hnot : ∀ d, isBlank d = false → (chars behind).head? ≠ some d := by
          intro d hd hhead
          rw [isBlank_head?_of_blankToLineEnd hline d hhead] at hd
          cases hd
        rw [opensLiteral_congr hnone (hnot '*' (by decide)) (hnot '/' (by decide))] at hopens
        cases hopens

/-- Where a literal starts in one text, one starts in the other. -/
theorem Diverges.exists_literalCells {before' : List Char} {c : Char} {role : Role} {n : Nat}
    {kind : Kind} {rest cells' : List Cell} (h : Diverges (⟨c, role⟩ :: rest) cells')
    (hmarked' : Marked recognize before' cells')
    (hfound : literalAt (c :: chars rest) = some (n, kind)) :
    ∃ kind' c' body' others, cells' = literalCells kind' c' body' ++ others ∧
      ∀ cell ∈ others.head?, cell.isInside = false := by
  have hopens : Literal.opensLiteral c (chars rest).head? = true := by
    by_contra hnone
    rw [literalAt_eq_none_iff.mpr (by simpa using hnone)] at hfound
    cases hfound
  obtain ⟨cell', rest', rfl, rfl, hopens'⟩ := h.opensLiteral hopens
  cases hmarked' with
  | code hnone _ =>
    rw [literalAt_eq_none_iff.mp hnone] at hopens'
    cases hopens'
  | @literal _ body' c' kind' others _ hothers =>
    exact ⟨kind', c', body', others, rfl, hothers.head?_not_inside⟩

/-- A literal of one text is a literal of the other. -/
theorem Diverges.exists_literal {before' : List Char}
    (h : Diverges (literalCells kind c body ++ rest) cells')
    (hmarked : Marked recognize before (literalCells kind c body ++ rest))
    (hmarked' : Marked recognize before' cells')
    (hrest : ∀ cell ∈ rest.head?, cell.isInside = false) :
    ∃ rest', cells' = literalCells kind c body ++ rest' ∧
      ∀ cell ∈ rest'.head?, cell.isInside = false := by
  have hfound : literalAt (c :: (body ++ chars rest)) = some (body.length + 1, kind) :=
    (hmarked.literal_inv hrest).1
  have hliteral := @Diverges.exists_literalCells _ c (.opening kind) _ kind
    (insideCells kind body ++ rest) _ h hmarked' (by rw [chars_append, chars_insideCells, hfound])
  obtain ⟨first, first', behind, behind', hcells, rfl, hsame, ⟨rfl, rfl⟩ | ⟨hcode, hend⟩⟩ := h
  · rw [append_nil] at hcells
    refine hmarked'.exists_literal_of_literalAt ?_ hfound
    rw [append_nil, ← hsame, ← hcells, chars_append, chars_literalCells, cons_append]
  · rcases hcode with ⟨d, tail, rfl⟩ | ⟨d, tail, rfl⟩
    · rw [hcells] at hmarked
      exact exists_literal_of_code hmarked hmarked' hcells.symm hrest hsame
        (hend.imp_right And.right)
    · obtain ⟨kind', c', body', others, hcells', hothers⟩ := hliteral
      have hend : (chars first').getLast? = some '\n' ∨ blankToLineEnd (chars behind) := by
        rw [← hsame]
        exact hend.imp_right And.left
      rw [hcells] at hmarked
      obtain ⟨rest', hsecond, hrest'⟩ := exists_literal_of_code hmarked' hmarked hcells' hothers
        hsame.symm hend
      obtain ⟨rfl, rfl, rfl, -⟩ := literalCells_append_inj (hcells.trans hsecond) hrest hrest'
      exact ⟨others, hcells', hothers⟩

/-! ## The roles of the other code points -/

theorem eq_nil_of_codeCells {cell : Cell} (h : codeCells blanks ++ rest = cell :: cells)
    (hcell : cell.role ≠ .code) : blanks = [] := by
  cases blanks with
  | nil => rfl
  | cons c blanks =>
    obtain ⟨rfl, -⟩ := cons_eq_cons.mp h
    exact absurd rfl hcell

/-- Cells of literals in front of two texts. What is known of the texts behind them is known of the
whole texts. -/
theorem Reblank.literal {literal : List Cell} (hliteral : ∀ cell ∈ literal, cell.role ≠ .code) :
    ∀ {free : Bool} {rest rest' : List Cell},
      (rest = [] ∧ rest' = [] ∨ ∀ cell ∈ literal.getLast?, cell.char ≠ '\n') →
      Reblank SameChar free (literal ++ rest) (literal ++ rest') →
      ∃ free', Reblank SameChar free' rest rest' ∧
        (Reblank Eq free' rest rest' → Reblank Eq free (literal ++ rest) (literal ++ rest')) := by
  induction literal with
  | nil => exact fun _ h => ⟨_, h, id⟩
  | cons cell literal ih =>
    intro free rest rest' hlast h
    have hcell := hliteral cell mem_cons_self
    have hlater : rest = [] ∧ rest' = [] ∨ ∀ cell ∈ literal.getLast?, cell.char ≠ '\n' := by
      refine hlast.imp_right fun hlast other hother => hlast other ?_
      rw [getLast?_cons, Option.mem_def.mp hother]
      rfl
    replace ih := @ih fun other hother => hliteral other (mem_cons_of_mem _ hother)
    generalize hcells : (cell :: literal ++ rest : List Cell) = cells at h
    generalize hcells' : (cell :: literal ++ rest' : List Cell) = cells' at h
    cases h with
    | @finish _ trailing trailing' _ _ _ =>
      have hnil := eq_nil_of_codeCells (by rw [append_nil]; exact hcells.symm) hcell
      rw [hnil] at hcells
      cases hcells
    | @keep _ _ _ _ _ hsame hchar hrest =>
      obtain ⟨rfl, rfl⟩ := cons_eq_cons.mp hcells
      obtain ⟨rfl, rfl⟩ := cons_eq_cons.mp hcells'
      obtain ⟨free', hbehind, hwhole⟩ := ih hlater hrest
      exact ⟨free', hbehind, fun h => .keep rfl hchar (hwhole h)⟩
    | @next _ free' trailing trailing' gap gap' ending ending' behind behind' htrailing
        htrailing' hkept _ hfeed hgap hgap' hfree hhead hrest =>
      obtain rfl := eq_nil_of_codeCells hcells.symm hcell
      obtain rfl := eq_nil_of_codeCells hcells'.symm hcell
      obtain ⟨rfl, hbehind⟩ := cons_eq_cons.mp hcells
      obtain ⟨rfl, hbehind'⟩ := cons_eq_cons.mp hcells'
      -- More of the literal follows, or both texts end.
      obtain ⟨rfl, rfl⟩ : gap = [] ∧ gap' = [] := by
        cases literal with
        | nil =>
          rcases hlast with ⟨rfl, rfl⟩ | hlast
          · exact ⟨map_eq_nil_iff.mp (append_eq_nil_iff.mp hbehind.symm).1,
              map_eq_nil_iff.mp (append_eq_nil_iff.mp hbehind'.symm).1⟩
          · exact absurd hfeed (hlast cell rfl)
        | cons other literal =>
          have hother := hliteral other (mem_cons_of_mem _ mem_cons_self)
          exact ⟨eq_nil_of_codeCells hbehind.symm hother, eq_nil_of_codeCells hbehind'.symm hother⟩
      rw [codeCells_nil, nil_append] at hbehind hbehind'
      subst hbehind hbehind'
      obtain ⟨free₂, hlater, hwhole⟩ := ih hlater hrest
      exact ⟨free₂, hlater, fun h =>
        .next htrailing htrailing' hkept rfl hfeed hgap hgap' hfree hhead (hwhole h)⟩

/-- Blanks of the code in front. -/
theorem Marked.of_codeCells {text : List Char}
    (h : Marked recognize before (codeCells text ++ rest)) :
    Marked recognize (text.reverse ++ before) rest := by
  have := h.of_append rfl h.head?_of_codeCells
  rwa [chars_codeCells] at this

/-- A code point that is in both texts belongs to the code of both or of none. -/
theorem Diverges.code {before before' : List Char} {c : Char} {cell' : Cell}
    {rest rest' : List Cell} (h : Diverges (⟨c, .code⟩ :: rest) (cell' :: rest'))
    (hmarked : Marked recognize before (⟨c, .code⟩ :: rest))
    (hmarked' : Marked recognize before' (cell' :: rest')) : cell'.role = .code := by
  by_contra hrole
  generalize hcells' : cell' :: rest' = cells' at hmarked' h
  cases hmarked' with
  | nil => cases hcells'
  | code _ _ =>
    obtain ⟨rfl, -⟩ := cons_eq_cons.mp hcells'
    exact hrole rfl
  | @literal _ body d kind behind hliteral hbehind =>
    obtain ⟨others, hcells, -⟩ := h.symm.exists_literal (.literal hliteral hbehind) hmarked
      hbehind.head?_not_inside
    cases hcells

/-- A line feed behind blanks of the code. -/
theorem Marked.ending_inv {trailing : List Char} {ending : Cell}
    (h : Marked recognize before (codeCells trailing ++ ending :: rest))
    (hfeed : ending.char = '\n') :
    ending = ⟨'\n', .code⟩ ∧ Marked recognize ('\n' :: (trailing.reverse ++ before)) rest := by
  have hending := h.of_codeCells
  have hcode := @Marked.codeCells_of_isBlank _ [ending] rest hending
    (by rw [chars_cons, hfeed]; simp; decide)
  rw [chars_cons, hfeed] at hcode
  obtain rfl : ending = ⟨'\n', .code⟩ := (cons_eq_cons.mp hcode).1
  exact ⟨rfl, hending.code_inv.2⟩

/-- The last code point of a literal that something follows ends no line. -/
theorem Marked.getLast?_ne_feed (h : Marked recognize before (literalCells kind c body ++ rest))
    (hrest : ∀ cell ∈ rest.head?, cell.isInside = false) (hne : rest ≠ []) :
    ∀ cell ∈ (literalCells kind c body).getLast?, cell.char ≠ '\n' := by
  intro cell hcell hfeed
  have hlast : '\n' ∈ (c :: body).getLast? := by
    rw [← chars_literalCells kind, chars, getLast?_map, Option.mem_def.mp hcell, ← hfeed]
    rfl
  have := isBlank_getLast?_of_literalAt (h.literal_inv hrest).1 (by simpa [chars] using hne) _ hlast
  exact absurd this (by decide)

/-- The code points of two texts that differ in the blanks around their lines have the same
roles. -/
theorem Reblank.agree (n : Nat) : ∀ {free : Bool} {before before' : List Char}
    {cells cells' : List Cell}, cells.length = n → Marked recognize before cells →
    Marked recognize before' cells' → Reblank SameChar free cells cells' →
    Reblank Eq free cells cells' := by
  induction n using Nat.strongRecOn with
  | ind n ih =>
    intro free before before' cells cells' hn hmarked hmarked' h
    cases h with
    | finish htrailing htrailing' hkept => exact .finish htrailing htrailing' hkept
    | next htrailing htrailing' hkept hending hfeed hgap hgap' hfree hhead hrest =>
      obtain ⟨rfl, hlater⟩ := hmarked.ending_inv hfeed
      obtain ⟨rfl, hlater'⟩ := hmarked'.ending_inv (hending.symm.trans hfeed)
      exact .next htrailing htrailing' hkept rfl rfl hgap hgap' hfree hhead
        (ih _ (by simp [← hn]; omega) rfl hlater.of_codeCells hlater'.of_codeCells hrest)
    | @keep _ cell cell' rest rest' hsame hne hrest =>
      have hwhole : Reblank SameChar free (cell :: rest) (cell' :: rest') := .keep hsame hne hrest
      have hdiverges := hwhole.diverges
      generalize hcells : cell :: rest = cells at hmarked hwhole hdiverges hn
      cases hmarked with
      | nil => cases hcells
      | code hnone hlater =>
        obtain ⟨rfl, rfl⟩ := cons_eq_cons.mp hcells
        have hrole := hdiverges.code (.code hnone hlater) hmarked'
        obtain ⟨c', role'⟩ := cell'
        obtain rfl : role' = .code := hrole
        obtain rfl : _ = c' := hsame
        exact .keep rfl hne (ih _ (by simp [← hn]) rfl hlater hmarked'.code_inv.2 hrest)
      | @literal _ body c kind behind hliteral hlater =>
        have hbehind := hlater.head?_not_inside
        obtain ⟨behind', hcells', hbehind'⟩ :=
          hdiverges.exists_literal (.literal hliteral hlater) hmarked' hbehind
        rw [hcells'] at hmarked' hwhole
        have hlast : behind = [] ∧ behind' = [] ∨
            ∀ cell ∈ (literalCells kind c body).getLast?, cell.char ≠ '\n' := by
          by_cases hnil : behind = []
          · by_cases hnil' : behind' = []
            · exact .inl ⟨hnil, hnil'⟩
            · exact .inr (hmarked'.getLast?_ne_feed hbehind' hnil')
          · exact .inr (Marked.getLast?_ne_feed (.literal hliteral hlater) hbehind hnil)
        obtain ⟨free', hrelated, hbuild⟩ :=
          Reblank.literal (fun _ => role_of_mem_literalCells) hlast hwhole
        rw [hcells']
        exact hbuild (ih _ (by simp [← hn]) rfl hlater (hmarked'.literal_inv hbehind').2 hrelated)

end StructuredText
