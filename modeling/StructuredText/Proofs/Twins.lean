import StructuredText.Proofs.OperatorSpacing
import StructuredText.Proofs.Padding
import StructuredText.Proofs.Recasing

/-!
# Texts with other letter case and other comments

Letter case and what stands inside comments have no part in the operators and the typed literals of
a text. Typed literals are read without regard to case, and strings and comments end them whatever
they hold.

Results:
1. `Twin.marked`: the typed literals of such texts are at the same places.
2. `Twin.sameTokens`: the texts have the same operators and typed literals.
3. `Casing.apply_sameTokens`, `Spacing.padComments_sameTokens`: so letter case and the padding of
   comments keep both.
-/

namespace StructuredText

open List Literal Spacing

variable {cells cells' out : List Cell} {before text body : List Char} {c : Char} {kind : Kind}

/-! ## Texts with other letter case and other comments -/

/-- The texts have the same code and typed literals, up to case, and the same strings and comments,
up to what stands inside of them. -/
inductive Twin : List Cell → List Cell → Prop
  | nil : Twin [] []
  | code {c c' : Char} {rest rest' : List Cell} :
      Recased c c' → Twin rest rest' → Twin (⟨c, .code⟩ :: rest) (⟨c', .code⟩ :: rest')
  | typed {c c' : Char} {body body' : List Char} {rest rest' : List Cell} :
      List.Forall₂ Recased (c :: body) (c' :: body') → Twin rest rest' →
      Twin (literalCells .typed c body ++ rest) (literalCells .typed c' body' ++ rest')
  | literal {kind : Kind} {c : Char} {body body' : List Char} {rest rest' : List Cell} :
      kind ≠ .typed → isTypedChar c = false → body'.getLast? = body.getLast? → Twin rest rest' →
      Twin (literalCells kind c body ++ rest) (literalCells kind c body' ++ rest')

theorem startsWithWordChar_eq_any (text : List Char) :
    startsWithWordChar text = text.head?.any isWordChar := by
  cases text <;> rfl

theorem startsWithWordChar_recased {text text' : List Char} (h : List.Forall₂ Recased text text')
    {rest rest' : List Char} (hne : text ≠ []) :
    startsWithWordChar (text' ++ rest') = startsWithWordChar (text ++ rest) := by
  cases h with
  | nil => exact absurd rfl hne
  | cons hc _ => exact hc.isWordChar_eq.symm

namespace Twin

variable {cells cells' : List Cell}

theorem head?_not_inside (h : Twin cells cells') :
    (∀ cell ∈ cells.head?, cell.isInside = false) ∧
      ∀ cell ∈ cells'.head?, cell.isInside = false := by
  cases h with
  | nil => exact ⟨by simp, by simp⟩
  | code _ _ | typed _ _ | literal _ _ _ _ => exact ⟨by rintro cell ⟨⟩; rfl, by rintro cell ⟨⟩; rfl⟩

/-- What is measured in one text is measured in the other: a string or comment is a barrier. -/
theorem measure_eq (h : Twin cells cells') {measure : Measure} (hlexical : Lexical measure) :
    ∀ {first first' : List Char}, List.Forall₂ Recased first first' →
      measure (first' ++ chars cells') = measure (first ++ chars cells) := by
  induction h with
  | nil =>
    intro first first' hfirst
    simpa using (hlexical.recase hfirst).symm
  | @code c c' rest rest' hc _ ih =>
    intro first first' hfirst
    simpa using ih (rel_append hfirst (.cons hc .nil))
  | @typed c c' body body' rest rest' hliteral _ ih =>
    intro first first' hfirst
    simpa using ih (rel_append hfirst hliteral)
  | @literal kind c body body' rest rest' _ hc _ _ _ =>
    intro first first' hfirst
    have hbarrier : ∀ text, Barrier (c :: text) := by
      rintro text d ⟨⟩
      exact .inl hc
    simp only [chars_append, chars_literalCells, cons_append, hlexical.barrier _ (hbarrier _),
      hlexical.recase hfirst]

theorem typedLength_eq (h : Twin cells cells') {first first' before' : List Char}
    (hfirst : List.Forall₂ Recased first first') (hne : first ≠ [])
    (hbefore : startsWithWordChar before' = startsWithWordChar before) :
    typedLength before' (first' ++ chars cells') = typedLength before (first ++ chars cells) := by
  have hboundary : atWordBoundary before' (first' ++ chars cells') =
      atWordBoundary before (first ++ chars cells) := by
    rw [atWordBoundary, atWordBoundary, hbefore, startsWithWordChar_recased hfirst hne]
  rw [typedLength, typedLength, hboundary, h.measure_eq typedWord_lexical hfirst,
    h.measure_eq directAddress_lexical hfirst]

/-- Typed literals are where they were. -/
theorem marked (h : Twin cells cells') : ∀ {before before' : List Char},
    Marked recognizeTyped before cells → Marked recognize before' (untype cells') →
    startsWithWordChar before' = startsWithWordChar before →
    Marked recognizeTyped before' cells' := by
  induction h with
  | nil => exact fun _ _ _ => .nil
  | @code c c' rest rest' hc htwin ih =>
    intro before before' hmarked huntyped hbefore
    obtain ⟨hnone, hrest⟩ := hmarked.code_inv
    rw [untype_cons] at huntyped
    obtain ⟨hliteral, huntyped⟩ := huntyped.code_inv
    rw [chars_untype] at hliteral
    refine .code (recognizeTyped_eq_none.mpr ⟨hliteral, ?_⟩)
      (ih hrest huntyped hc.isWordChar_eq.symm)
    rw [← (recognizeTyped_eq_none.mp hnone).2]
    exact htwin.typedLength_eq (.cons hc .nil) (cons_ne_nil _ _) hbefore
  | @typed c c' body body' rest rest' hbody htwin ih =>
    intro before before' hmarked huntyped hbefore
    obtain ⟨hhead, hhead'⟩ := htwin.head?_not_inside
    obtain ⟨hfind, hrest⟩ := hmarked.literal_inv hhead
    rw [untype_append, untype_typedCells] at huntyped
    have hrest' := huntyped.of_append rfl (Cell.isInside_head?_untype hhead')
    rw [codeCells_cons, cons_append] at huntyped
    obtain ⟨hnone, -⟩ := huntyped.code_inv
    rw [chars_append, chars_codeCells, chars_untype] at hnone
    rcases recognizeTyped_eq_some.mp hfind with hliteral | ⟨-, htyped, -⟩
    · exact absurd hliteral literalAt_ne_typed
    have hlength : body'.length = body.length := by
      simpa using hbody.length_eq.symm
    refine .literal (recognizeTyped_eq_some.mpr (.inr ⟨hnone, ?_, rfl⟩))
      (ih hrest (by simpa using hrest') ?_)
    · rw [hlength, ← htyped]
      exact htwin.typedLength_eq hbody (cons_ne_nil _ _) hbefore
    · have hreverse := rel_reverse hbody
      have hstarts := @startsWithWordChar_recased _ _ hreverse before before' (by simp)
      simpa using hstarts
  | @literal kind c body body' rest rest' hkind _ hlast htwin ih =>
    intro before before' hmarked huntyped hbefore
    obtain ⟨hhead, hhead'⟩ := htwin.head?_not_inside
    obtain ⟨-, hrest⟩ := hmarked.literal_inv hhead
    rw [untype_append, untype_literalCells hkind] at huntyped
    obtain ⟨hfind, hrest'⟩ := huntyped.literal_inv (Cell.isInside_head?_untype hhead')
    rw [chars_untype] at hfind
    refine .literal (recognizeTyped_eq_some.mpr (.inl hfind)) (ih hrest hrest' ?_)
    rw [startsWithWordChar_eq_any, startsWithWordChar_eq_any, head?_append, head?_append,
      head?_reverse, head?_reverse, hlast]
    rfl

end Twin

/-! ## The signs of such texts -/

/-- The cells have the same role, and are the same up to case. -/
def Cell.SameButCase (cell cell' : Cell) : Prop :=
  cell'.role = cell.role ∧ StructuredText.Recased cell.char cell'.char

/-- The signs of both texts are the same, also where the first text has the second half of an
operator at its start and it is left out. -/
structure SameSigns (cells cells' : List Cell) : Prop where
  head : Option.Rel Cell.SameButCase cells.head? cells'.head?
  signs : signs cells' = signs cells
  second : (∃ cell ∈ cells.head?, cell.char ∈ ['=', '>', '*']) →
    signsFrom 1 cells' = signsFrom 1 cells

theorem signAt_recased {text' : List Char} (h : List.Forall₂ Recased text text') :
    signAt text' = signAt text := by
  refine find?_congr fun sign hsign => ?_
  have hletters : ∀ sign ∈ operators, ∀ c ∈ sign, isLetter c = false := by decide
  replace hsign := hletters sign hsign
  induction sign generalizing text text' with
  | nil => simp
  | cons c sign ih =>
    cases h with
    | nil => rfl
    | @cons d d' rest rest' hd hrest =>
      have hsame : (c == d') = (c == d) := by
        rw [Bool.beq_comm, ← hd.beq_eq (hsign c mem_cons_self), Bool.beq_comm]
      simp only [List.isPrefixOf, hsame,
        ih hrest fun e he => hsign e (mem_cons_of_mem _ he)]

theorem all_isCode_eq {block block' : List Cell} (h : List.Forall₂ Cell.SameButCase block block') :
    block'.all Cell.isCode = block.all Cell.isCode := by
  induction h with
  | nil => rfl
  | cons hcell _ ih => rw [all_cons, all_cons, ih, Cell.isCode, hcell.1, Cell.isCode]

theorem SameSigns.cons {cell cell' : Cell} {rest rest' : List Cell} (h : SameSigns rest rest')
    (hcell : cell.SameButCase cell') : SameSigns (cell :: rest) (cell' :: rest') where
  head := .some hcell
  second := fun _ => h.signs
  signs := by
    have hfirst : List.Forall₂ Cell.SameButCase ((cell :: rest).take 2)
        ((cell' :: rest').take 2) := by
      refine .cons hcell ?_
      have hhead := h.head
      match rest, rest', hhead with
      | [], [], _ => exact .nil
      | next :: _, next' :: _, .some hnext => exact .cons hnext .nil
    have hsign : signAt (chars (cell' :: rest')) = signAt (chars (cell :: rest)) := by
      rw [← signAt_take, ← signAt_take (chars (cell :: rest)), chars, chars, ← map_take,
        ← map_take]
      exact signAt_recased (forall₂_map_left_iff.mpr (forall₂_map_right_iff.mpr
        (hfirst.imp fun _ _ hsame => hsame.2)))
    cases hs : signAt (chars (cell :: rest)) with
    | none => rw [signs_cons hs, signs_cons (hsign.trans hs), h.signs]
    | some sign =>
      rw [StructuredText.signs, StructuredText.signs, signsFrom, signsFrom, hs, hsign.trans hs]
      obtain ⟨hmem, hstarts⟩ := signAt_eq_some hs
      obtain ⟨c, -, rfl | ⟨d, hd, rfl⟩⟩ := operators_forms hmem
      · have hall := @all_isCode_eq [cell] [cell'] (.cons hcell .nil)
        have hrest := h.signs
        simp only [length_singleton, take_succ_cons, take_zero, hall]
        exact congrArg _ hrest
      · have hall := all_isCode_eq hfirst
        have hrest := h.second (by
          obtain ⟨-, hrest⟩ := cons_prefix_cons.mp hstarts
          obtain ⟨tail, htail⟩ := hrest
          cases rest with
          | nil => cases htail
          | cons next rest =>
            cases htail
            exact ⟨next, rfl, hd⟩)
        simp only [length_cons, length_nil, hall]
        exact congrArg _ hrest

theorem SameSigns.append {block block' rest rest' : List Cell} (h : SameSigns rest rest')
    (hblock : List.Forall₂ Cell.SameButCase block block') :
    SameSigns (block ++ rest) (block' ++ rest') := by
  induction hblock with
  | nil => exact h
  | cons hcell _ ih => exact ih.cons hcell

theorem forall₂_literalCells {c' : Char} {body' : List Char}
    (h : List.Forall₂ Recased (c :: body) (c' :: body')) :
    List.Forall₂ Cell.SameButCase (literalCells kind c body) (literalCells kind c' body') := by
  cases h with
  | cons hc hbody =>
    refine .cons ⟨rfl, hc⟩ ?_
    exact forall₂_map_left_iff.mpr (forall₂_map_right_iff.mpr
      (hbody.imp fun _ _ hd => ⟨rfl, hd⟩))

/-- Cells of which none is code have no signs. -/
theorem signs_eq_nil (h : ∀ cell ∈ cells, cell.role ≠ .code) : signs cells = [] := by
  have hall : ∀ skip, signsFrom skip cells = [] := by
    induction cells with
    | nil => exact fun skip => by cases skip <;> rfl
    | cons cell rest ih =>
      have hrest := ih fun other hother => h other (mem_cons_of_mem _ hother)
      rintro (_ | skip)
      · rw [signsFrom]
        cases hsign : signAt (chars (cell :: rest)) with
        | none => exact hrest 0
        | some sign =>
          have hcell : cell.isCode = false := beq_eq_false_iff_ne.mpr (h cell mem_cons_self)
          obtain ⟨c, -, rfl | ⟨d, -, rfl⟩⟩ := operators_forms (signAt_eq_some hsign).1
          all_goals
            simp only [length_cons, take_succ_cons, all_cons, hcell, hrest]
            rfl
      · exact hrest skip
  exact hall 0

/-- Strings and comments start with a quote, a parenthesis or a slash. -/
theorem opener_of_literalAt {found : Nat × Kind} (h : literalAt (c :: text) = some found) :
    c ∈ ['\x27', '\x22', '(', '/'] := by
  by_contra hnot
  simp only [mem_cons, not_mem_nil, or_false, not_or] at hnot
  rw [literalAt_eq_none_iff.mpr (opensLiteral_eq_false hnot _)] at h
  cases h

/-- A string or comment that does not end with the text ends in the sign that closes it, unless it
ends with its line. -/
theorem closer_of_literalAt {rest : List Char}
    (h : literalAt (c :: (body ++ rest)) = some (body.length + 1, kind)) (hrest : rest ≠ [])
    (hline : kind ≠ .lineComment) : ∀ d ∈ body.getLast?, d ∈ ['\x27', '\x22', ')', '/'] := by
  intro d hd
  cases hcomment : kind.isComment with
  | true =>
    rcases getLast?_of_literalAt h hrest hcomment hline with hlast | hlast
    all_goals
      rw [hlast] at hd
      cases hd
      decide
  | false =>
    obtain ⟨-, hquote, hlength⟩ | ⟨rfl, -⟩ | ⟨rfl, -⟩ | ⟨rfl, -⟩ := literalAt_append_iff.mp h
    · obtain ⟨inside, rfl⟩ := (stringLength_ends hrest body hlength).1
      rw [getLast?_concat] at hd
      cases hd
      rcases hquote with rfl | rfl <;> decide
    all_goals cases hcomment

/-- No operator lies across the end of a string or comment. -/
theorem apart_of_literalAt {rest : List Char}
    (h : literalAt (c :: (body ++ rest)) = some (body.length + 1, kind)) :
    Apart (c :: body) rest := by
  by_cases hline : kind = .lineComment
  · subst hline
    refine Apart.of_isBlank_head fun d hd => ?_
    by_cases hfeed : d = '\n'
    · rw [hfeed]
      decide
    · obtain ⟨tail, rfl⟩ := head?_eq_some_iff.mp hd
      exact blankToLineEnd_of_literalAt h d (by simp [hfeed])
  · intro d hd e he hmem
    have hrest : rest ≠ [] := by
      rintro rfl
      cases he
    have hends : d ∈ ['\x27', '\x22', '(', '/', ')'] := by
      rw [getLast?_cons] at hd
      cases hlast : body.getLast? with
      | none =>
        rw [hlast] at hd
        cases hd
        have := opener_of_literalAt h
        simp only [mem_cons, not_mem_nil, or_false] at this ⊢
        tauto
      | some f =>
        rw [hlast] at hd
        cases hd
        have := closer_of_literalAt h hrest hline _ hlast
        simp only [mem_cons, not_mem_nil, or_false] at this ⊢
        tauto
    have hpairs : ∀ f ∈ ['\x27', '\x22', '(', '/', ')'], ∀ sign ∈ operators,
        sign.head? = some f → sign.length ≠ 2 := by decide
    exact hpairs d hends _ hmem rfl rfl

theorem literalAt_of_recognizeTyped {advance : Bool} {cursor : Cursor} {n : Nat}
    (h : recognizeTyped advance cursor = some (n, kind)) (hkind : kind ≠ .typed) :
    literalAt cursor.after = some (n, kind) :=
  (recognizeTyped_eq_some.mp h).resolve_right fun htyped => hkind htyped.2.2

theorem signs_literal {rest : List Cell}
    (h : literalAt (c :: (body ++ chars rest)) = some (body.length + 1, kind)) :
    signs (literalCells kind c body ++ rest) = signs rest := by
  rw [signs_append _ (by rw [chars_literalCells]; exact apart_of_literalAt h),
    signs_eq_nil fun _ => role_of_mem_literalCells, nil_append]

theorem Twin.sameSigns (h : Twin cells cells') :
    ∀ {before before' : List Char}, Marked recognizeTyped before cells →
      Marked recognizeTyped before' cells' → SameSigns cells cells' := by
  induction h with
  | nil => exact fun _ _ => ⟨.none, rfl, fun _ => rfl⟩
  | code hc htwin ih =>
    intro before before' hmarked hmarked'
    exact (ih hmarked.code_inv.2 hmarked'.code_inv.2).cons ⟨rfl, hc⟩
  | typed hbody htwin ih =>
    intro before before' hmarked hmarked'
    obtain ⟨hhead, hhead'⟩ := htwin.head?_not_inside
    exact (ih (hmarked.literal_inv hhead).2 (hmarked'.literal_inv hhead').2).append
      (forall₂_literalCells hbody)
  | @literal kind c body body' rest rest' hkind _ _ htwin ih =>
    intro before before' hmarked hmarked'
    obtain ⟨hhead, hhead'⟩ := htwin.head?_not_inside
    obtain ⟨hfind, hrest⟩ := hmarked.literal_inv hhead
    obtain ⟨hfind', hrest'⟩ := hmarked'.literal_inv hhead'
    have hliteral := literalAt_of_recognizeTyped hfind hkind
    refine ⟨.some ⟨rfl, .refl c⟩, ?_, ?_⟩
    · rw [signs_literal hliteral, signs_literal (literalAt_of_recognizeTyped hfind' hkind)]
      exact (ih hrest hrest').signs
    · rintro ⟨cell, ⟨⟩, hsecond⟩
      have hopeners : ∀ d ∈ ['\x27', '\x22', '(', '/'], d ∉ ['=', '>', '*'] := by decide
      exact absurd hsecond (hopeners c (opener_of_literalAt hliteral))

theorem typedTexts_literalCells {kind : Kind} {c : Char} {body : List Char} {rest : List Cell}
    (hrest : ∀ cell ∈ rest.head?, cell.isInside = false) :
    typedTexts (literalCells kind c body ++ rest) =
      if kind = .typed then (c :: body).map foldChar :: typedTexts rest else typedTexts rest := by
  rw [typedTexts, literals_literalCells hrest, filter_cons]
  by_cases hkind : kind = .typed
  · simp [hkind, typedTexts]
  · simp [hkind, typedTexts]

theorem Twin.typedTexts_eq (h : Twin cells cells') : typedTexts cells' = typedTexts cells := by
  induction h with
  | nil => rfl
  | code _ _ ih => exact ih
  | typed hbody htwin ih =>
    obtain ⟨hhead, hhead'⟩ := htwin.head?_not_inside
    rw [typedTexts_literalCells hhead, typedTexts_literalCells hhead', if_pos rfl, if_pos rfl,
      map_foldChar_eq (hbody.imp fun _ _ => Recased.foldChar_eq), ih]
  | literal hkind _ _ htwin ih =>
    obtain ⟨hhead, hhead'⟩ := htwin.head?_not_inside
    rw [typedTexts_literalCells hhead, typedTexts_literalCells hhead', if_neg hkind,
      if_neg hkind, ih]

/-- Texts that differ in case and in comments have the same operators and typed literals. -/
theorem Twin.sameTokens (h : Twin cells cells') (hmarked : Marked recognizeTyped [] cells)
    (huntyped : Marked recognize [] (untype cells')) :
    SameTokens (chars cells) (chars cells') := by
  have hmarked' := h.marked hmarked huntyped rfl
  exact hmarked.sameTokens hmarked' (h.sameSigns hmarked hmarked').signs h.typedTexts_eq

/-! ## Letter case -/

theorem isTypedChar_of_literalAt {found : Nat × Kind} (h : literalAt (c :: text) = some found) :
    isTypedChar c = false := by
  have hopeners : ∀ d ∈ ['\x27', '\x22', '(', '/'], isTypedChar d = false := by decide
  exact hopeners c (opener_of_literalAt h)

theorem Recast.codeCells_eq {text : List Char} {rest out : List Cell}
    (h : Recast (codeCells text ++ rest) out) :
    ∃ text' rest', out = codeCells text' ++ rest' ∧ List.Forall₂ Recased text text' ∧
      Recast rest rest' := by
  induction text generalizing out with
  | nil => exact ⟨[], out, rfl, .nil, h⟩
  | cons c text ih =>
    cases h with
    | @cons _ cell _ _ hcell hrest =>
      obtain ⟨text', rest', rfl, htext, hrest⟩ := ih hrest
      obtain ⟨d, role⟩ := cell
      obtain ⟨rfl, hcd, -⟩ := hcell
      exact ⟨d :: text', rest', rfl, .cons hcd htext, hrest⟩

/-- A change of case in the code and the typed literals of a text. -/
theorem Recast.exists_twin (hmarked : Marked recognizeTyped before cells)
    (h : Recast (untype cells) out) :
    ∃ cells', untype cells' = out ∧ Twin cells cells' := by
  induction hmarked generalizing out with
  | nil =>
    cases h
    exact ⟨[], rfl, .nil⟩
  | @code before c rest _ _ ih =>
    cases h with
    | @cons _ cell _ _ hcell hrest =>
      obtain ⟨cells', rfl, htwin⟩ := ih hrest
      obtain ⟨d, role⟩ := cell
      obtain ⟨rfl, hcd, -⟩ := hcell
      exact ⟨⟨d, .code⟩ :: cells', rfl, .code hcd htwin⟩
  | @literal before body c kind rest hfind _ ih =>
    rw [untype_append] at h
    by_cases hkind : kind = .typed
    · subst hkind
      rw [untype_typedCells] at h
      obtain ⟨text', rest', rfl, htext, hrest⟩ := h.codeCells_eq
      obtain ⟨cells', rfl, htwin⟩ := ih hrest
      cases htext with
      | @cons _ c' _ body' hc hbody =>
        refine ⟨literalCells .typed c' body' ++ cells', ?_, .typed (.cons hc hbody) htwin⟩
        rw [untype_append, untype_typedCells]
    · rw [untype_literalCells hkind] at h
      obtain ⟨rest', rfl, hrest⟩ := h.literalCells_eq
      obtain ⟨cells', rfl, htwin⟩ := ih hrest
      have hliteral := literalAt_of_recognizeTyped hfind hkind
      refine ⟨literalCells kind c body ++ cells', ?_,
        .literal hkind (isTypedChar_of_literalAt hliteral) rfl htwin⟩
      rw [untype_append, untype_literalCells hkind]

theorem Recast.sameTokens (hmarked : Marked recognize [] cells) (h : Recast cells out) :
    SameTokens (StructuredText.chars cells) (StructuredText.chars out) := by
  obtain ⟨typed, htyped, hmarked'⟩ := exists_marked_recognizeTyped (StructuredText.chars cells)
  obtain rfl := hmarked'.untype.unique hmarked (by rw [chars_untype, htyped])
  obtain ⟨typed', rfl, htwin⟩ := h.exists_twin hmarked'
  rw [chars_untype, chars_untype]
  exact htwin.sameTokens hmarked' (h.marked hmarked)

theorem Casing.apply_sameTokens [Host] {cased : List Char}
    (h : apply Vocabulary.standard text = .ok cased) :
    SameTokens text cased := by
  obtain ⟨cells, middle, out, rfl, rfl, hmarked, hfirst, hsecond⟩ := exists_recast h
  exact (hfirst.sameTokens hmarked).trans (hsecond.sameTokens (hfirst.marked hmarked))

/-! ## The padding of comments -/

namespace Spacing

theorem PadsTo.getLast?_eq {body' : List Char} (h : PadsTo body body') :
    body'.getLast? = body.getLast? := by
  obtain ⟨d, core, ending, lead, trail, rfl, rfl, hpads, -⟩ := h
  rw [getLast?_cons, getLast?_cons]
  by_cases hending : ending = []
  · subst hending
    obtain rfl : trail = [] := hpads.trails.resolve_right fun htrail => htrail.2 rfl
    by_cases hcore : core = []
    · subst hcore
      rw [hpads.bare rfl rfl]
      rfl
    · simp only [append_nil, getLast?_append_of_ne_nil _ hcore]
  · simp only [getLast?_append_of_ne_nil _ hending, ← append_assoc]

theorem Repadded.codeCells_eq {text : List Char} {rest out : List Cell}
    (h : Repadded (codeCells text ++ rest) out) :
    ∃ rest', out = codeCells text ++ rest' ∧ Repadded rest rest' := by
  induction text generalizing out with
  | nil => exact ⟨out, rfl, h⟩
  | cons c text ih =>
    rw [codeCells_cons, cons_append] at h
    generalize hcells : (⟨c, .code⟩ : Cell) :: (codeCells text ++ rest) = cells at h
    cases h with
    | nil => cases hcells
    | code _ hrest =>
      cases hcells
      obtain ⟨rest', rfl, hpadded⟩ := ih hrest
      exact ⟨rest', rfl, hpadded⟩
    | literal _ _ _ => cases hcells

theorem Repadded.literalCells_eq {rest : List Cell}
    (hrest : ∀ cell ∈ rest.head?, cell.isInside = false)
    (h : Repadded (literalCells kind c body ++ rest) out) :
    ∃ body' rest', out = literalCells kind c body' ++ rest' ∧ Repadded rest rest' ∧
      (body' = body ∨ PadsTo body body') := by
  generalize hcells : literalCells kind c body ++ rest = cells at h
  cases h with
  | nil | code _ _ => cases hcells
  | @literal _ _ body' padded rest' out hfind hpad hout =>
    obtain ⟨rfl, rfl, rfl, rfl⟩ := literalCells_append_inj hcells hrest hout.head?_not_inside'
    obtain ⟨_, hpad', hpads, -⟩ := literalAt_padLiteral hfind
    cases hpad.symm.trans hpad'
    exact ⟨padded, out, rfl, hout, hpads⟩

/-- Some comments are padded in their places, and all else stays. -/
inductive Padded : List Cell → List Cell → Prop
  | nil : Padded [] []
  | keep (cell : Cell) {rest out : List Cell} : Padded rest out →
  Padded (cell :: rest) (cell :: out)
  | comment {kind : Kind} {c : Char} {body body' : List Char} {rest out : List Cell} :
      isTypedChar c = false → PadsTo body body' → Padded rest out →
      Padded (literalCells kind c body ++ rest) (literalCells kind c body' ++ out)

theorem Padded.append {rest out : List Cell} (h : Padded rest out) (first : List Cell) :
    Padded (first ++ rest) (first ++ out) := by
  induction first with
  | nil => exact h
  | cons cell first ih => exact .keep cell ih

/-- Padding, with the typed literals of a text shown. -/
theorem Repadded.exists_twin (hmarked : Marked recognizeTyped before cells)
    (h : Repadded (untype cells) out) :
    ∃ cells', untype cells' = out ∧ Twin cells cells' ∧ Padded cells cells' := by
  induction hmarked generalizing out with
  | nil =>
    cases h
    exact ⟨[], rfl, .nil, .nil⟩
  | @code before c rest _ _ ih =>
    obtain ⟨rest', rfl, hrest⟩ := @codeCells_eq [c] _ _ h
    obtain ⟨cells', rfl, htwin, hpadded⟩ := ih hrest
    exact ⟨⟨c, .code⟩ :: cells', rfl, .code (.refl c) htwin, .keep _ hpadded⟩
  | @literal before body c kind rest hfind hrest ih =>
    rw [untype_append] at h
    by_cases hkind : kind = .typed
    · subst hkind
      rw [untype_typedCells] at h
      obtain ⟨rest', rfl, hpadded⟩ := h.codeCells_eq
      obtain ⟨cells', rfl, htwin, hpadded⟩ := ih hpadded
      refine ⟨literalCells .typed c body ++ cells', ?_,
        .typed (forall₂_same.mpr fun d _ => .refl d) htwin, hpadded.append _⟩
      rw [untype_append, untype_typedCells]
    · rw [untype_literalCells hkind] at h
      obtain ⟨body', rest', rfl, hpadded, hpads⟩ :=
        h.literalCells_eq (Cell.isInside_head?_untype hrest.head?_not_inside)
      obtain ⟨cells', rfl, htwin, hpadded⟩ := ih hpadded
      have hopener := isTypedChar_of_literalAt (literalAt_of_recognizeTyped hfind hkind)
      refine ⟨literalCells kind c body' ++ cells', ?_, .literal hkind hopener ?_ htwin, ?_⟩
      · rw [untype_append, untype_literalCells hkind]
      · rcases hpads with rfl | hpads
        · rfl
        · exact hpads.getLast?_eq
      · rcases hpads with rfl | hpads
        · exact hpadded.append _
        · exact .comment hopener hpads hpadded

theorem padComments_sameTokens (text : List Char) : SameTokens text (padComments text) := by
  obtain ⟨spaced, hspaced, hpadded⟩ := exists_padded text
  obtain ⟨cells, rfl, hmarked⟩ := exists_marked_recognizeTyped spaced
  obtain ⟨out, hout, hrepadded⟩ := hpadded (untype cells) hmarked.untype (chars_untype cells)
  obtain ⟨cells', rfl, htwin, -⟩ := hrepadded.exists_twin hmarked
  rw [chars_untype] at hout
  rw [← hout]
  exact (hspaced.sameTokens rfl rfl nofun).1.trans (htwin.sameTokens hmarked (hrepadded.marked []))

end Spacing

end StructuredText
