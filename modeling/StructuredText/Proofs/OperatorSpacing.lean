import StructuredText.Proofs.Operators

/-!
# Spacing of operators

The rule that puts spaces around operators keeps them: it reads each operator that it spaces, so
that what follows its sign is a blank or what followed it before.

Results:
1. `Respaced.sameTokens`: moves that part neither signs nor typed literals keep both.
2. `Spacing.operator_sameTokens`: so does the rule on operators, and behind it no digit stands
   directly behind a colon.
-/

namespace StructuredText

open Literal Spacing

variable {cells rest out : List Cell} {before block sign : List Char} {c : Char}

/-! ## Operators and typed literals -/

/-- The typed literals of a text from left to right, up to case. -/
def typedLiteralsOf (document : List Char) : List (List Char) :=
  ((scanTyped document).filter (·.kind == .typed)).map fun span => (span.text document).map foldChar

/-- The typed literals of cells, up to case. -/
def typedTexts (cells : List Cell) : List (List Char) :=
  ((literals cells).filter (·.1 == .typed)).map fun entry => entry.2.map foldChar

theorem Marked.typedLiteralsOf_eq (h : Marked recognizeTyped [] cells) :
    typedLiteralsOf (chars cells) = typedTexts cells := by
  have hliterals := literals_eq_map_spansFrom cells []
  rw [typedLiteralsOf, typedTexts, h.scanTyped_eq, ← hliterals, List.filter_map, List.map_map]
  rfl

/-- Both texts have the same operators and the same typed literals. -/
structure SameTokens (before after : List Char) : Prop where
  operators : operatorTokens after = operatorTokens before
  typed : typedLiteralsOf after = typedLiteralsOf before

theorem SameTokens.refl (text : List Char) : SameTokens text text :=
  ⟨rfl, rfl⟩

theorem SameTokens.trans {first second third : List Char} (h : SameTokens first second)
    (h' : SameTokens second third) : SameTokens first third :=
  ⟨h'.operators.trans h.operators, h'.typed.trans h.typed⟩

variable {first cells' : List Cell} {licence : Licence}

/-- Tokens can be compared cell by cell. -/
theorem Marked.sameTokens (h : Marked recognizeTyped [] cells)
    (h' : Marked recognizeTyped [] cells') (hsigns : signs cells' = signs cells)
    (htyped : typedTexts cells' = typedTexts cells) : SameTokens (chars cells) (chars cells') where
  operators := by rw [h'.operatorTokens_eq, h.operatorTokens_eq, hsigns]
  typed := by rw [h'.typedLiteralsOf_eq, h.typedLiteralsOf_eq, htyped]

/-! ## Moves -/

theorem Respacing.typedTexts_eq (h : Respacing licence cells cells') :
    typedTexts cells' = typedTexts cells := by
  rw [typedTexts, h.literals_eq, typedTexts]

/-- No digit stands directly behind a colon of the code of a text. -/
def ColonsClear (text : List Char) : Prop :=
  ∀ cells, Marked recognizeTyped [] cells → chars cells = text → ColonsApart cells

theorem exists_marked_recognizeTyped (text : List Char) :
    ∃ cells, chars cells = text ∧ Marked recognizeTyped [] cells :=
  exists_marked recognizeTyped_isProper text []

theorem Marked.colonsClear (h : Marked recognizeTyped [] cells) (hcolons : ColonsApart cells) :
    ColonsClear (chars cells) := by
  intro other hother heq
  rwa [hother.unique h heq]

/-- Moves that part neither signs nor typed literals keep the operators and typed literals of a
text. -/
theorem Respaced.sameTokens {after : List Char} (h : Respaced licence before after)
    (hsigns : licence.partsSigns = false) (htyped : licence.partsTyped = false)
    (hcolons : licence.closesColons = true → ColonsClear before) :
    SameTokens before after ∧ (ColonsClear before → ColonsClear after) := by
  obtain ⟨cells, rfl, hmarked⟩ := exists_marked_recognizeTyped before
  obtain ⟨out, rfl, hmoves⟩ := h (untype cells) hmarked.untype (chars_untype cells)
  have hapart : licence.closesColons = true → ColonsApart cells :=
    fun hcloses => hcolons hcloses cells hmarked rfl
  obtain ⟨cells', rfl, hlifted⟩ := hmoves.lift htyped hmarked hapart
  have hmarked' := hlifted.markedTyped hmarked hapart
  rw [chars_untype]
  exact ⟨hmarked.sameTokens hmarked' (hlifted.signs_eq hsigns) hlifted.typedTexts_eq, fun hclear =>
    hmarked'.colonsClear (hlifted.colonsApart (hclear cells hmarked rfl))⟩

/-! ## The rule on operators -/

namespace Spacing

/-- An operator is kept as it is, unless it has a colon, or put between spaces. -/
def SpacesSign (block rest written : List Char) : Prop :=
  ∃ sign, ReadsSign block rest sign ∧
    (written = block ∧ ':' ∉ sign ∨ written = ' ' :: (sign ++ [' ']))

theorem operator_spacesSign : operator.Spec SpacesSign := by
  intro cursor stop written h
  obtain ⟨sign, hsign, h⟩ := Option.bind_eq_some_iff.mp h
  obtain ⟨last, hlast, h⟩ := Option.bind_eq_some_iff.mp h
  obtain ⟨block, hreads, hne, hblock⟩ := reads_sign hsign hlast
  simp only at h
  split at h
  next hstar =>
    cases h
    refine ⟨block, hreads, hne, sign, hblock, .inl ⟨hreads.upTo_eq, ?_⟩⟩
    simp only [Bool.or_eq_true, Bool.and_eq_true, beq_iff_eq] at hstar
    rcases hstar with rfl | ⟨rfl, -⟩ <;> decide
  next =>
    cases h
    exact ⟨block, hreads, hne, sign, hblock, .inr rfl⟩

theorem operatorToken_of_operator {cursor : Cursor} (h : operator cursor = none) :
    operatorToken cursor = none := by
  refine Option.bind_eq_none_iff.mpr fun sign hsign =>
    Option.bind_eq_none_iff.mpr fun last hlast => ?_
  have := Option.bind_eq_none_iff.mp (Option.bind_eq_none_iff.mp h sign hsign) last hlast
  simp only at this
  split at this <;> cases this

end Spacing

/-- The text starts as before, or with a blank. -/
def HeadKept (cells out : List Cell) : Prop :=
  (chars out).head? = (chars cells).head? ∨ ∀ d ∈ (chars out).head?, isBlank d = true

theorem HeadKept.append {block : List Cell} (hne : block ≠ []) (rest out : List Cell) :
    HeadKept (block ++ rest) (block ++ out) := by
  cases block with
  | nil => exact absurd rfl hne
  | cons cell block => exact .inl rfl

/-- An operator is read before a text that starts in the same way. -/
theorem ReadsSign.congr (h : ReadsSign block (chars rest) sign) (hkept : HeadKept rest out) :
    ReadsSign block (chars out) sign := by
  obtain ⟨lead, trail, hblock, hlead, htrail, hsign⟩ := h
  refine ⟨lead, trail, hblock, hlead, htrail, signAt_congr hsign ?_⟩
  cases trail with
  | nil => exact hkept
  | cons c trail => exact .inl rfl

/-- A sign between spaces is read as that sign. -/
theorem ReadsSign.spaced {rest : List Char} (h : ReadsSign block rest sign) (rest' : List Char) :
    ReadsSign (' ' :: (sign ++ [' '])) rest' sign := by
  obtain ⟨_, _, -, -, -, hsign⟩ := h
  refine ⟨[' '], [' '], rfl, by decide, by decide, signAt_congr hsign (.inr ?_)⟩
  rintro d ⟨⟩
  decide

theorem not_mem_operators_of_signAt {text : List Char} (h : signAt (c :: text) = none) :
    [c] ∉ operators := by
  intro hmem
  rw [signAt, List.find?_eq_none] at h
  exact h [c] hmem (by simp [List.isPrefixOf])

theorem not_mem_operators_of_operator {rest : List Char}
    (h : Recognizer.ofReader operator false ⟨before.length, before, c :: rest⟩ = none) :
    [c] ∉ operators :=
  not_mem_operators_of_signAt
    (signAt_of_operatorToken (operatorToken_of_operator (Option.map_eq_none_iff.mp h)))

theorem spacesSign_of_operator {block : List Cell} {written : List Char}
    (h : Recognizer.ofReader operator false ⟨before.length, before, chars block ++ chars rest⟩ =
      some (block.length, written)) : SpacesSign (chars block) (chars rest) written :=
  @Rule.Spec.holds _ _ operator_spacesSign before _ _ _ (by rwa [length_chars])

/-- The rule on operators keeps the signs. -/
theorem Rewrites.signs_eq (h : Rewrites (.ofReader operator) id before cells out) :
    ∀ first, Marked recognizeTyped [] (first ++ cells) →
      signs out = signs cells ∧ HeadKept cells out := by
  induction h with
  | nil => exact fun _ _ => ⟨rfl, .inl rfl⟩
  | @miss before cell rest out hfind _ ih =>
    intro first hmarked
    have hnot := not_mem_operators_of_operator hfind
    obtain ⟨hsigns, -⟩ := ih (first ++ [cell]) (by rwa [List.append_assoc])
    rw [signs_cons (signAt_cons hnot _), signs_cons (signAt_cons hnot _), hsigns]
    exact ⟨rfl, .inl rfl⟩
  | @blocked before block rest out written hfind hblock _ ih =>
    intro first hmarked
    obtain ⟨hsigns, hkept⟩ := ih (first ++ block) (by rwa [List.append_assoc])
    obtain ⟨sign, hreads, -⟩ := spacesSign_of_operator hfind
    rw [hmarked.signs_of_literal (hreads.congr hkept) hblock,
      hmarked.signs_of_literal hreads hblock, hsigns]
    obtain ⟨cell, hcell, -⟩ := hblock
    exact ⟨rfl, .append (List.ne_nil_of_mem hcell) rest out⟩
  | @hit before block rest out written hfind hne hcode _ ih =>
    intro first hmarked
    obtain ⟨hsigns, hkept⟩ := ih (first ++ block) (by rwa [List.append_assoc])
    obtain ⟨sign, hreads, ⟨rfl, -⟩ | rfl⟩ := spacesSign_of_operator hfind
    · rw [id, codeCells_chars hcode, signs_of_code (hreads.congr hkept) hcode,
        signs_of_code hreads hcode, hsigns]
      exact ⟨rfl, .append hne rest out⟩
    · have hspaced := hreads.spaced (chars out)
      rw [← chars_codeCells (' ' :: (sign ++ [' ']))] at hspaced
      rw [id, signs_of_code hspaced fun cell => role_of_mem_codeCells, signs_of_code hreads hcode,
        hsigns]
      refine ⟨rfl, .inr ?_⟩
      rintro d ⟨⟩
      decide

/-! ## Colons behind the rule -/

theorem ColonsApart.cons {cell : Cell} {rest : List Cell}
    (h : cell = ⟨':', .code⟩ → ∀ d ∈ (chars rest).head?, isDigit d = false)
    (hrest : ColonsApart rest) : ColonsApart (cell :: rest) := by
  intro left right heq
  cases left with
  | nil =>
    obtain ⟨hcell, rfl⟩ := List.cons_eq_cons.mp heq
    exact h hcell
  | cons other left => exact hrest left right (List.cons_eq_cons.mp heq).2

theorem ColonsApart.append {block rest : List Cell} (h : ⟨':', .code⟩ ∉ block)
    (hrest : ColonsApart rest) : ColonsApart (block ++ rest) := by
  induction block with
  | nil => exact hrest
  | cons cell block ih =>
    rw [List.mem_cons, not_or] at h
    exact .cons (fun heq => absurd heq.symm h.1) (ih h.2)

theorem ReadsSign.mem_operators {rest : List Char} (h : ReadsSign block rest sign) :
    sign ∈ operators := by
  obtain ⟨_, _, -, -, -, hsign⟩ := h
  exact (signAt_eq_some hsign).1

/-- Behind a colon between spaces stands a space or the rest of its operator. -/
theorem ColonsApart.spaced (hsign : sign ∈ operators) (hrest : ColonsApart rest) :
    ColonsApart (codeCells (' ' :: (sign ++ [' '])) ++ rest) := by
  have hspace : ∀ {rest : List Cell}, ColonsApart rest → ColonsApart (⟨' ', .code⟩ :: rest) :=
    fun hrest => .cons (fun heq => absurd heq (by decide)) hrest
  obtain ⟨c, -, rfl | ⟨d, hd, rfl⟩⟩ := operators_forms hsign
  · refine hspace (.cons ?_ (hspace hrest))
    rintro - e ⟨⟩
    decide
  · refine hspace (.cons ?_ (.cons ?_ (hspace hrest)))
    · have hsecond : ∀ d ∈ ['=', '>', '*'], isDigit d = false := by decide
      rintro - e ⟨⟩
      exact hsecond d hd
    · rintro - e ⟨⟩
      decide

/-- No literal starts inside an operator. -/
theorem Marked.code_of_operator {d : Char} {role : Role}
    (h : Marked recognizeTyped [] (first ++ ⟨c, .code⟩ :: ⟨d, role⟩ :: rest))
    (hd : d ∈ ['=', '>', '*']) : role = .code := by
  have hbehind : Marked recognizeTyped [] ((first ++ [⟨c, .code⟩]) ++ ⟨d, role⟩ :: rest) := by
    simpa using h
  have hmarked := hbehind.of_append rfl (hbehind.head?_of_getLast? (c := c) (by simp))
  simp only [List.mem_cons, List.not_mem_nil, or_false] at hd
  rcases hd with rfl | rfl | rfl
  all_goals exact hmarked.role_eq_code (opensLiteral_eq_false (by decide)) (by decide) (by decide)

/-- A colon of the code is in no operator that meets a literal. -/
theorem Marked.colon_not_mem {block tail : List Cell} {rest : List Char}
    (h : Marked recognizeTyped [] (first ++ (block ++ tail)))
    (hreads : ReadsSign (chars block) rest sign) (hblock : ∃ cell ∈ block, cell.role ≠ .code) :
    ⟨':', .code⟩ ∉ block := by
  obtain ⟨lead, middle, trail, rfl, rfl, hne, hlead, htrail, hsign⟩ := hreads.cells
  have hblank : ∀ {cells : List Cell}, (∀ c ∈ chars cells, isBlank c = true) →
      ⟨':', .code⟩ ∉ cells := by
    intro cells hcells hmem
    exact absurd (hcells _ (List.mem_map_of_mem hmem)) (by decide)
  rw [List.append_assoc, List.append_assoc] at h
  intro hmem
  have hmiddle : (⟨':', .code⟩ : Cell) ∈ middle := by
    rcases List.mem_append.mp hmem with hmem | hmem
    · exact absurd hmem (hblank hlead)
    · exact (List.mem_append.mp hmem).resolve_right (hblank htrail)
  obtain ⟨cell, hcell, hrole⟩ := hblock
  refine hrole (h.code_of_sign hlead htrail hne ?_ cell hcell)
  have hforms : ∀ sign ∈ operators, ':' ∈ sign → sign = [':'] ∨ sign = [':', '='] := by decide
  rcases hforms _ (signAt_eq_some hsign).1 (List.mem_map_of_mem hmiddle) with hchars | hchars
  · obtain ⟨⟨c, role⟩, behind, rfl, rfl, hnil⟩ := List.map_eq_cons_iff.mp hchars
    rw [List.map_eq_nil_iff.mp hnil] at hmiddle ⊢
    obtain rfl : .code = role := by simpa using hmiddle
    simp
  · obtain ⟨⟨c, role⟩, behind, rfl, hc, hbehind⟩ := List.map_eq_cons_iff.mp hchars
    obtain ⟨⟨d, role'⟩, behind', rfl, hd, hnil⟩ := List.map_eq_cons_iff.mp hbehind
    obtain rfl : c = ':' := hc
    obtain rfl : d = '=' := hd
    obtain rfl := List.map_eq_nil_iff.mp hnil
    obtain rfl : .code = role := by simpa using hmiddle
    rw [← List.append_assoc] at h
    obtain rfl := h.code_of_operator (by decide)
    simp

/-- Behind the rule no digit stands directly behind a colon of the code. -/
theorem Rewrites.colonsApart (h : Rewrites (.ofReader operator) id before cells out) :
    ∀ first, Marked recognizeTyped [] (first ++ cells) → ColonsApart out := by
  induction h with
  | nil =>
    intro _ _ left right heq
    cases (List.append_eq_nil_iff.mp heq.symm).2
  | @miss before cell rest out hfind _ ih =>
    intro first hmarked
    refine .cons ?_ (ih (first ++ [cell]) (by rwa [List.append_assoc]))
    rintro rfl
    exact absurd (by decide) (not_mem_operators_of_operator hfind)
  | @blocked before block rest out written hfind hblock _ ih =>
    intro first hmarked
    obtain ⟨sign, hreads, -⟩ := spacesSign_of_operator hfind
    exact .append (hmarked.colon_not_mem hreads hblock)
      (ih (first ++ block) (by rwa [List.append_assoc]))
  | @hit before block rest out written hfind hne hcode _ ih =>
    intro first hmarked
    have hout := ih (first ++ block) (by rwa [List.append_assoc])
    obtain ⟨sign, hreads, ⟨rfl, hcolon⟩ | rfl⟩ := spacesSign_of_operator hfind
    · refine .append (fun hmem => ?_) hout
      obtain ⟨lead, trail, hblock, hlead, htrail, -⟩ := hreads
      have hcolon' : ':' ∈ chars block := by
        obtain ⟨c, hc, heq⟩ := List.mem_map.mp hmem
        cases heq
        exact hc
      rw [hblock, List.mem_append, List.mem_append] at hcolon'
      rcases hcolon' with hmem | hmem | hmem
      · exact absurd (hlead _ hmem) (by decide)
      · exact hcolon hmem
      · exact absurd (htrail _ hmem) (by decide)
    · exact .spaced hreads.mem_operators hout

namespace Spacing

/-- The rule on operators keeps them, and puts a blank or an equals sign behind every colon. -/
theorem operator_sameTokens (text : List Char) :
    SameTokens text (operator.applyTyped text) ∧ ColonsClear (operator.applyTyped text) := by
  obtain ⟨cells, rfl, hmarked⟩ := exists_marked_recognizeTyped text
  obtain ⟨out, hwalk, hout⟩ := replaceOutside_rewrites operator_spec.isProper hmarked id
  have hpatched : Patched SpacesOperator cells out :=
    hwalk.patched (fun _ _ _ _ => operator_spec.holds) [] hmarked
  have hmoves : Respacing .parting cells out := hpatched.respacing_all (operator_respaces rfl rfl)
  have hmarked' := hmoves.markedTyped hmarked nofun
  rw [Rule.applyTyped, hmarked.scanTyped_eq, hout]
  exact ⟨hmarked.sameTokens hmarked' (hwalk.signs_eq [] hmarked).1 hmoves.typedTexts_eq,
    hmarked'.colonsClear (hwalk.colonsApart [] hmarked)⟩

end Spacing

end StructuredText
