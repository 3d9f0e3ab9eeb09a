import StructuredText.Proofs.Pipeline
import StructuredText.Proofs.Twins

/-!
# The tokens of formatted texts

Formatting keeps the words and the operators of a text. Line breaks behind blocks are the exception:
a break goes behind the end of a declaration also where that is part of a typed literal, and parts
it.

Results:
1. `LineBreak.insertable_typed`: a break that parts a typed literal stands behind the end of a
   declaration in it.
2. `LineBreak.breakBlocks_sameTokens`, `Format.finish_sameTokens`: the later passes keep operators
   and typed literals, if no typed literal holds such an end.
3. `Format.canonical_tokens`: formatting keeps words, and under that condition operators.
4. `Format.canonical_tokens_parted`: a typed literal that is parted leaves an operator behind.
-/

namespace StructuredText

open Literal Spacing

/-! ## Literals that go on -/

variable {before text after : List Char}

/-- A typed literal that goes on at some place starts before it. -/
theorem Marked.exists_typed_of_inside {cells : List Cell} (h : Marked recognizeTyped before cells) :
    ∀ {left right : List Cell}, cells = left ++ right →
      (∃ cell ∈ right.head?, cell.role = .inside .typed) →
      ∃ first c body tail behind n, left = first ++ literalCells .typed c body ∧
        typedLength ((chars first).reverse ++ before) (c :: behind) = some n ∧
        (c :: (body ++ tail)).map foldChar ∈ typedTexts cells := by
  induction h with
  | nil =>
    rintro left right hcells ⟨cell, hcell, -⟩
    rw [(List.append_eq_nil_iff.mp hcells.symm).2] at hcell
    cases hcell
  | @code before c rest _ _ ih =>
    rintro (_ | ⟨cell, left⟩) right hcells hinside
    · obtain ⟨cell, hcell, hrole⟩ := hinside
      rw [← List.nil_append right, ← hcells] at hcell
      cases hcell
      cases hrole
    · cases hcells
      obtain ⟨first, d, body, tail, behind, n, rfl, hlength, hmem⟩ := ih rfl hinside
      exact ⟨⟨c, .code⟩ :: first, d, body, tail, behind, n, rfl, by simpa using hlength, hmem⟩
  | @literal before body c kind rest hfind hrest ih =>
    intro left right hcells hinside
    have htexts := @typedTexts_literalCells kind c body rest hrest.head?_not_inside
    rcases List.append_eq_append_iff.mp hcells with ⟨gap, rfl, rfl⟩ | ⟨tail, hliteral, rfl⟩
    · obtain ⟨first, d, body', tail, behind, n, rfl, hlength, hmem⟩ := ih rfl hinside
      refine ⟨literalCells kind c body ++ first, d, body', tail, behind, n, by simp,
        by simpa using hlength, ?_⟩
      rw [htexts]
      split
      · exact List.mem_cons_of_mem _ hmem
      · exact hmem
    · obtain ⟨cell, hcell, hrole⟩ := hinside
      cases left with
      | nil =>
        rw [← List.nil_append tail, ← hliteral] at hcell
        cases hcell
        cases hrole
      | cons opening left =>
        obtain ⟨rfl, htail⟩ := List.cons_eq_cons.mp hliteral
        obtain ⟨body, body', rfl, rfl, rfl⟩ := List.map_eq_append_iff.mp htail
        cases body' with
        | nil =>
          have hnot := hrest.head?_not_inside cell hcell
          rw [Cell.isInside, hrole] at hnot
          cases hnot
        | cons d body' =>
          cases hcell
          cases hrole
          rcases recognizeTyped_eq_some.mp hfind with hfound | ⟨-, hlength, -⟩
          · exact absurd hfound literalAt_ne_typed
          refine ⟨[], c, body, d :: body', _, _, rfl, hlength, ?_⟩
          rw [htexts, if_pos rfl]
          exact List.mem_cons_self

/-- A typed literal that starts with a word character does not start inside a word. -/
theorem startsWithWordChar_of_typedLength {c : Char} {n : Nat}
    (h : typedLength before (c :: text) = some n) (hc : isWordChar c = true) :
    startsWithWordChar before = false := by
  rcases Option.or_eq_some_iff.mp h with h | ⟨-, h⟩
  · split at h
    next hboundary =>
      have hstarts : startsWithWordChar (c :: text) = true := hc
      rw [atWordBoundary, hstarts] at hboundary
      simpa using hboundary
    · cases h
  · obtain ⟨k, m, hk, -, -⟩ := seq_eq_some.mp h
    obtain ⟨d, rest, heq, hd, -⟩ := next_eq_some hk
    cases heq
    rw [beq_iff_eq.mp hd] at hc
    exact absurd hc (by decide)

/-! ## Breaks outside typed literals -/

namespace LineBreak

/-- No typed literal of the document holds the end of a declaration. -/
def TypedApart (document : List Char) : Prop :=
  ∀ literal ∈ typedLiteralsOf document, ¬ declarationEnd <:+: literal

theorem EndsBlock.isWordChar {block rest : List Char} (h : EndsBlock block rest)
    (hend : block.map foldChar = declarationEnd) : ∀ c ∈ block, isWordChar c = true := by
  intro c hc
  rcases h.signs c hc with hsign | rfl
  · rw [isWordSign, Bool.and_eq_true] at hsign
    exact hsign.1
  · have hmem := List.mem_map_of_mem (f := foldChar) hc
    rw [hend] at hmem
    revert hmem
    decide

/-- The end of a block that a typed literal goes on behind is the end of a declaration in it. -/
theorem EndsBlock.within_typed {block rest before first body tail behind : List Char} {c : Char}
    {n : Nat} (h : EndsBlock block rest) (htext : before ++ block = first ++ c :: body)
    (hlength : typedLength first.reverse (c :: behind) = some n)
    (htyped : ∀ d ∈ c :: body, isTypedChar d = true) :
    declarationEnd <:+: (c :: (body ++ tail)).map foldChar := by
  rcases h.closes with hsemicolon | hend
  · have hlast := congrArg List.getLast? htext
    rw [List.getLast?_append, hsemicolon,
      List.getLast?_append_of_ne_nil _ (List.cons_ne_nil _ _)] at hlast
    exact absurd (htyped _ (List.mem_of_getLast? hlast.symm)) (by decide)
  · rw [← hend]
    refine List.IsInfix.map foldChar ?_
    rcases List.append_eq_append_iff.mp htext with ⟨gap, rfl, rfl⟩ | ⟨gap, rfl, hbody⟩
    · -- A literal that starts behind the first letter of a word would start inside it.
      have hword := h.isWordChar hend
      have hbefore := startsWithWordChar_of_typedLength hlength (hword c (by simp))
      rcases List.eq_nil_or_concat gap with rfl | ⟨init, d, rfl⟩
      · exact ⟨[], tail, by simp⟩
      · have hd := hword d (by simp)
        simp only [List.reverse_append, List.concat_eq_append, List.reverse_singleton,
          List.cons_append, startsWithWordChar, hd] at hbefore
        cases hbefore
    · exact ⟨gap, tail, by rw [← hbody]; rfl⟩

/-- A break behind a block is outside typed literals, unless one holds the end of a declaration. -/
theorem insertable_typed {cells : List Cell} (hmarked : Marked recognizeTyped [] cells)
    (hapart : ∀ literal ∈ typedTexts cells, ¬ declarationEnd <:+: literal) {cut : Nat}
    (hcut : cut ∈ breakPoints (chars cells)) : Insertable cells cut := by
  rw [← chars_untype] at hcut
  obtain ⟨⟨left, right, hsplit, hlength, hhead, hsplits, hbare⟩, before, block, rest, hblock, hends,
    hle, honly⟩ := insertable_of_mem_breakPoints hmarked.untype hcut
  obtain ⟨left, right, rfl, rfl, rfl⟩ := List.map_eq_append_iff.mp hsplit
  rw [List.length_map] at hlength
  refine ⟨left, right, rfl, hlength, ?_, splits_untype.mp hsplits, ?_⟩
  · intro cell hcell
    rw [Bool.eq_false_iff]
    intro hinside
    have hrole : cell.role = .inside .typed := by
      have hnot := hhead cell.untype (by rw [List.head?_map, Option.mem_def.mp hcell]; rfl)
      obtain ⟨d, role⟩ := cell
      match role with
      | .inside .typed => rfl
    obtain ⟨first, c, body, tail, behind, n, rfl, hfound, hmem⟩ :=
      hmarked.exists_typed_of_inside rfl ⟨cell, hcell, hrole⟩
    rw [← untype, untype_append, untype_typedCells] at hbare
    -- The code before the break is no space or tab, so that the break stands right behind the
    -- block.
    have hstop : before.length + block.length = cut := by
      obtain ⟨init, d, hlast⟩ : ∃ init d, c :: body = init ++ [d] :=
        (List.eq_nil_or_concat' _).resolve_left (List.cons_ne_nil _ _)
      by_contra hne
      have hcut : cut - 1 = (untype first ++ codeCells init).length := by
        have hcount := congrArg List.length hlast
        simp only [← hlength, List.length_append, List.length_cons, List.length_nil, literalCells,
          insideCells, codeCells, untype, List.length_map] at hcount ⊢
        omega
      have hpad := honly (cut - 1) ⟨d, .code⟩ (by omega) (by omega) (by
        rw [untype_append, untype_append, untype_typedCells, hlast, hcut]
        simp [codeCells]) rfl
      rw [hlast] at hbare
      rw [hbare ⟨d, .code⟩ (by simp [codeCells]) rfl] at hpad
      cases hpad
    have htext : chars before ++ block = chars first ++ c :: body := by
      have hchars := congrArg chars hblock
      rw [chars_untype, chars_append, ← List.append_assoc, chars_append (before ++ _)] at hchars
      have hfirst := List.append_inj_left hchars (by
        rw [length_chars, length_chars, hlength, ← hstop]
        simp [codeCells])
      simpa using hfirst.symm
    refine hapart _ hmem (hends.within_typed htext (by simpa using hfound) fun d hd => ?_)
    rcases List.mem_cons.mp hd with rfl | hd
    · exact hmarked.isTypedChar ⟨d, .opening .typed⟩ (by simp [literalCells]) (.inl rfl)
    · exact hmarked.isTypedChar ⟨d, .inside .typed⟩ (by simp [literalCells, insideCells, hd])
        (.inr rfl)
  · intro cell hcell hrole
    refine hbare cell.untype ?_ (by rw [Cell.untype, hrole]; rfl)
    rw [List.getLast?_map, Option.mem_def.mp hcell]
    rfl

/-- Breaks behind blocks keep operators and typed literals, if no typed literal holds the end of a
declaration. -/
theorem breakBlocks_sameTokens {text : List Char} (h : TypedApart text) :
    SameTokens text (breakBlocks text) ∧ (ColonsClear text → ColonsClear (breakBlocks text)) := by
  obtain ⟨cells, rfl, hmarked⟩ := exists_marked_recognizeTyped text
  rw [TypedApart, hmarked.typedLiteralsOf_eq] at h
  have hsorted := breakPoints_sorted hmarked.untype
  rw [chars_untype] at hsorted
  obtain ⟨out, hout, hmoves, -⟩ := insertions_respacing (breakPoints (chars cells)) [] cells rfl
    (fun cut hcut => ⟨insertable_typed hmarked h hcut, Nat.zero_le cut⟩) hsorted
  have hbroken : breakBlocks (chars cells) = chars out := hout
  have hmarked' := hmoves.markedTyped hmarked nofun
  rw [hbroken]
  exact ⟨hmarked.sameTokens hmarked' (hmoves.signs_eq rfl) hmoves.typedTexts_eq,
    fun hclear => hmarked'.colonsClear (hmoves.colonsApart (hclear cells hmarked rfl))⟩

end LineBreak

/-! ## Formatting -/

open LineBreak

theorem SameTokens.typedApart (h : SameTokens before after) (hbefore : TypedApart before) :
    TypedApart after := by
  rw [TypedApart, h.typed]
  exact hbefore

/-- Moves behind the rule on operators. -/
theorem Respaced.keepsTokens {licence : Licence} (h : Respaced licence before after)
    (hsigns : licence.partsSigns = false) (htyped : licence.partsTyped = false)
    (hbefore : SameTokens text before ∧ ColonsClear before) :
    SameTokens text after ∧ ColonsClear after := by
  obtain ⟨hsame, hclear⟩ := h.sameTokens hsigns htyped fun _ => hbefore.2
  exact ⟨hbefore.1.trans hsame, hclear hbefore.2⟩

theorem Spacing.spaceOperators_sameTokens (text : List Char) :
    SameTokens text (spaceOperators text) ∧ ColonsClear (spaceOperators text) :=
  (spaceOperators_respaced text).keepsTokens rfl rfl (operator_sameTokens text)

theorem Spacing.tightenColons_sameTokens (text : List Char) :
    SameTokens text (tightenColons (trimLineEnds (spaceOperators text))) ∧
      ColonsClear (tightenColons (trimLineEnds (spaceOperators text))) :=
  (tightenColons_respaced _).keepsTokens rfl rfl
    ((trimLineEnds_respaced _).keepsTokens rfl rfl (spaceOperators_sameTokens text))

namespace Format

theorem earlyPasses_sameTokens [Host] : ∀ pass ∈ earlyPasses Vocabulary.standard, ∀ text,
    ∃ out, pass text = .ok out ∧ SameTokens text out :=
  earlyPasses_rel Casing.apply_sameTokens fun hmoves => (hmoves.sameTokens rfl rfl nofun).1

variable {text : List Char}

/-- The later passes keep operators and typed literals, if no typed literal holds the end of a
declaration. -/
theorem finish_sameTokens (h : TypedApart text) :
    SameTokens text (finish text) := by
  have hspaced := tightenColons_sameTokens text
  obtain ⟨hbroken, hclear⟩ := breakBlocks_sameTokens (hspaced.1.typedApart h)
  have hreduced := (reduceBlankLines_respaced _).keepsTokens rfl rfl
    ⟨hspaced.1.trans hbroken, hclear hspaced.2⟩
  have hjoined := (Header.joinAll_respaced _).keepsTokens rfl rfl
    ((Indentation.apply_respaced _).keepsTokens rfl rfl hreduced)
  exact hjoined.1

theorem sameTokens_canonical [Host] {file : String} {formatted : Formatted}
    (h : canonical Vocabulary.standard file text = .ok formatted)
    (hapart : TypedApart (normalizeNewlines text)) :
    SameTokens (normalizeNewlines text) formatted.text := by
  obtain ⟨parted, hparted, hpasses⟩ := runPasses_finish (normalizeNewlines text)
  obtain ⟨_, hformatted, htext⟩ := canonical_of_runPasses hpasses file
  cases h.symm.trans hformatted
  obtain ⟨_, hparted', hearly⟩ := runPasses_rel SameTokens.refl (fun _ _ _ => SameTokens.trans)
    earlyPasses_sameTokens (normalizeNewlines text)
  cases hparted.symm.trans hparted'
  have hpadded := hearly.trans (padComments_sameTokens parted)
  rw [htext]
  exact hpadded.trans (finish_sameTokens (hpadded.typedApart hapart))

/-- Formatting neither merges nor parts tokens. Two neighbouring word characters are apart in the
formatted text if they are in the text, and if no typed literal holds the end of a declaration, both
have the same operators and typed literals. -/
theorem canonical_tokens [Host] (file : String) (text : List Char) :
    ∃ formatted, canonical Vocabulary.standard file text = .ok formatted ∧
      wordJoints formatted.text = wordJoints text ∧
      (TypedApart (normalizeNewlines text) →
        operatorTokens formatted.text = operatorTokens (normalizeNewlines text) ∧
          typedLiteralsOf formatted.text = typedLiteralsOf (normalizeNewlines text)) := by
  obtain ⟨formatted, hformatted, -, hjoints⟩ := canonical_outline file text
  refine ⟨formatted, hformatted, hjoints, fun hapart => ?_⟩
  have hsame := sameTokens_canonical hformatted hapart
  exact ⟨hsame.operators, hsame.typed⟩

/-- Operators with and without blanks between them, and a duration behind the end of a
declaration. -/
theorem canonical_tokens_kept :
    let text := "END_VAR a:=t#5s-2* *b;".toList
    TypedApart (normalizeNewlines text) ∧
      ∃ formatted, @canonical Host.plain .standard "" text = .ok formatted ∧
        operatorTokens formatted.text = operatorTokens (normalizeNewlines text) := by
  have hapart : TypedApart (normalizeNewlines "END_VAR a:=t#5s-2* *b;".toList) := by
    unfold TypedApart
    decide +kernel
  obtain ⟨formatted, hformatted, -, hkept⟩ :=
    @canonical_tokens Host.plain "" "END_VAR a:=t#5s-2* *b;".toList
  exact ⟨hapart, formatted, hformatted, (hkept hapart).1⟩

/-- The end of a declaration in a duration is taken for one: what follows it goes to a line of its
own, where the sign of an exponent is read as an operator. -/
theorem canonical_tokens_parted :
    ∃ formatted, @canonical Host.plain .standard "" "T#5.END_VAR.16#1E-3".toList = .ok formatted ∧
      operatorTokens "T#5.END_VAR.16#1E-3".toList = [] ∧ operatorTokens formatted.text =
      [['-']] := by
  have hfound : (@canonical Host.plain .standard "" "T#5.END_VAR.16#1E-3".toList).toOption.any
      (fun formatted => decide (operatorTokens formatted.text = [['-']])) = true := by
    decide +kernel
  obtain ⟨formatted, hformatted, htokens⟩ := exists_ok_of_any hfound
  exact ⟨formatted, hformatted, by decide +kernel, of_decide_eq_true htokens⟩

end Format

end StructuredText
