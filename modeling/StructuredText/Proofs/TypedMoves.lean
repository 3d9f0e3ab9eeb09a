import StructuredText.Proofs.Preservation

/-!
# Changes of blanks and typed literals

Typed literals do not stand behind a sign of their own, so that a blank more or less could make one
or undo one. Moves that split no literal and join nothing that a literal could go on into leave
typed literals where they are as well.

Results:
1. `Marked.replaceTyped`: what stands behind a barrier does not matter to typed literals before it.
2. `Move.markedTyped`: moves leave every typed literal where it is.
3. `Move.lift`: moves that see no typed literals are moves between texts that show them.
-/

namespace StructuredText

open Literal

variable {before text : List Char} {c : Char} {cells : List Cell}

/-! ## Where typed literals start -/

namespace Literal

open StructuredText.Literal.Measure

/-- What is measured starts with a word character. -/
def LeadsWithWord (measure : Measure) : Prop :=
  ∀ text n, measure text = some n → startsWithWordChar text = true

section LeadsWithWord

variable {a b : Measure}

theorem LeadsWithWord.seq (ha : LeadsWithWord a) : LeadsWithWord (a.seq b) := by
  intro text n h
  obtain ⟨k, m, hk, -, -⟩ := seq_eq_some.mp h
  exact ha _ _ hk

theorem LeadsWithWord.alt (ha : LeadsWithWord a) (hb : LeadsWithWord b) :
    LeadsWithWord (a.alt b) := by
  intro text n h
  rcases Option.or_eq_some_iff.mp h with h | ⟨-, h⟩
  · exact ha _ _ h
  · exact hb _ _ h

theorem next_leadsWithWord {p : Char → Bool} (hp : ∀ c, p c = true → isWordChar c = true) :
    LeadsWithWord (next p) := by
  intro text n h
  obtain ⟨c, rest, rfl, hc, -⟩ := next_eq_some h
  exact hp c hc

theorem digit_leadsWithWord : LeadsWithWord (next isDigit) :=
  next_leadsWithWord fun _ => isWordChar_of_isDigit

theorem typeName_leadsWithWord {names : List String} (hplain : ArePlainWords names)
    (hne : ∀ name ∈ names, name.toList ≠ []) : LeadsWithWord (Measure.typeName names) := by
  induction names with
  | nil => nofun
  | cons name names ih =>
    refine .alt (.seq ?_) (ih (fun other hother => hplain other (List.mem_cons_of_mem _ hother))
      fun other hother => hne other (List.mem_cons_of_mem _ hother))
    obtain ⟨c, rest, hname⟩ := List.exists_cons_of_ne_nil (hne name List.mem_cons_self)
    have hc := hplain name List.mem_cons_self c (by rw [hname]; exact List.mem_cons_self)
    rw [hname]
    refine .seq (next_leadsWithWord fun d hd => ?_)
    rw [← isWordChar_of_sameUpToCase hc.1 hd]
    exact hc.2

theorem typedWord_leadsWithWord : LeadsWithWord typedWord :=
  .alt (.seq (typeName_leadsWithWord (by decide) (by decide)))
    (.alt (.seq (typeName_leadsWithWord (by decide) (by decide)))
      (.alt (.seq (typeName_leadsWithWord (by decide) (by decide)))
        (.alt (.seq (typeName_leadsWithWord (by decide) (by decide)))
          (.alt (.seq (.seq digit_leadsWithWord)) (.seq (.seq digit_leadsWithWord))))))

end LeadsWithWord

/-- A typed literal starts with a word character or the sign of addresses. -/
theorem head_of_typedLength {n : Nat} (h : typedLength before (c :: text) = some n) :
    isWordChar c = true ∨ c = '%' := by
  rcases Option.or_eq_some_iff.mp h with h | ⟨-, h⟩
  · split at h
    · exact .inl (typedWord_leadsWithWord _ _ h)
    · cases h
  · obtain ⟨k, m, hk, -, -⟩ := seq_eq_some.mp h
    obtain ⟨d, rest, heq, hd, -⟩ := next_eq_some hk
    cases heq
    exact .inr (beq_iff_eq.mp hd)

/-! ## Typed literals in other surroundings -/

/-- What stands before a typed literal matters only if it starts with a word character. -/
theorem typedLength_rebase {before' after : List Char}
    (h : startsWithWordChar after = true →
      startsWithWordChar before' = startsWithWordChar before) :
    typedLength before' after = typedLength before after := by
  unfold typedLength
  congr 1
  cases hafter : startsWithWordChar after with
  | true => rw [atWordBoundary, atWordBoundary, h hafter]
  | false =>
    have hnone : typedWord after = none := by
      rw [Option.eq_none_iff_forall_ne_some]
      intro n hn
      rw [typedWord_leadsWithWord _ _ hn] at hafter
      cases hafter
    rw [hnone, ite_self, ite_self]

/-- No typed literal goes on from the first text into the second. -/
def Seam (first second : List Char) : Prop :=
  (∀ c ∈ first.getLast?, isTypedChar c = false) ∨ Barrier second

theorem Lexical.replace {measure : Measure} (h : Lexical measure)
    {first second second' : List Char} (hne : first ≠ []) (hseam : Seam first second') :
    (measure (first ++ second) = none → measure (first ++ second') = none) ∧
      ∀ n ≤ first.length, measure (first ++ second) = some n →
        measure (first ++ second') = some n := by
  rcases hseam with hlast | hbarrier
  · obtain ⟨init, c, rfl⟩ := (List.eq_nil_or_concat first).resolve_left hne
    have hcut : ∀ rest, measure (init ++ [c] ++ rest) = measure init := by
      intro rest
      rw [List.append_assoc]
      refine h.barrier init ?_
      rintro d ⟨⟩
      exact .inl (hlast c (by simp))
    simp only [List.concat_eq_append, hcut]
    exact ⟨id, fun _ _ => id⟩
  · rw [h.barrier first hbarrier]
    exact ⟨h.none_of_append, fun n hle hn => h.cut hn hle⟩

/-- What stands behind a seam does not matter to typed literals before it. -/
theorem typedLength_replace {first second second' : List Char} (hne : first ≠ [])
    (hseam : Seam first second') :
    (typedLength before (first ++ second) = none →
        typedLength before (first ++ second') = none) ∧
      ∀ n ≤ first.length, typedLength before (first ++ second) = some n →
        typedLength before (first ++ second') = some n := by
  have hboundary : atWordBoundary before (first ++ second') =
      atWordBoundary before (first ++ second) := by
    cases first with
    | nil => exact absurd rfl hne
    | cons c first => rfl
  obtain ⟨hword, hword'⟩ := @Lexical.replace _ typedWord_lexical _ second _ hne hseam
  obtain ⟨haddress, haddress'⟩ := @Lexical.replace _ directAddress_lexical _ second _ hne hseam
  unfold typedLength
  rw [hboundary]
  cases atWordBoundary before (first ++ second) with
  | false => exact ⟨haddress, haddress'⟩
  | true =>
    simp only [if_true, Option.or_eq_none_iff, Option.or_eq_some_iff]
    refine ⟨fun hnone => ⟨hword hnone.1, haddress hnone.2⟩, fun n hle hn => ?_⟩
    exact hn.imp (hword' n hle) fun hn => ⟨hword hn.1, haddress' n hle hn.2⟩

end Literal

theorem Literal.Seam.of_append {first second rest : List Char} (h : Seam (first ++ second) rest) :
    Seam second rest := by
  refine h.imp_left fun hlast c hc => hlast c ?_
  rw [List.getLast?_append, Option.mem_def.mp hc]
  rfl

theorem Cell.isInside_head?_untype (h : ∀ cell ∈ cells.head?, cell.isInside = false) :
    ∀ cell ∈ (StructuredText.untype cells).head?, cell.isInside = false := by
  cases cells with
  | nil => simp
  | cons cell rest =>
    rintro other ⟨⟩
    exact Cell.isInside_untype (h cell rfl)

/-- Typed literals do not depend on what stands before, but for the word that goes on. -/
theorem Marked.rebaseTyped {before' : List Char} (h : Marked recognizeTyped before cells)
    (hboundary : startsWithWordChar (chars cells) = true →
      startsWithWordChar before' = startsWithWordChar before) :
    Marked recognizeTyped before' cells := by
  induction h generalizing before' with
  | nil => exact .nil
  | code hfind _ ih =>
    obtain ⟨hliteral, htyped⟩ := recognizeTyped_eq_none.mp hfind
    refine .code (recognizeTyped_eq_none.mpr ⟨hliteral, ?_⟩) (ih fun _ => rfl)
    rw [← htyped]
    exact typedLength_rebase hboundary
  | @literal before body c kind rest hfind _ ih =>
    refine .literal (recognizeTyped_eq_some.mpr ?_) (ih fun _ => by cases body.reverse <;> rfl)
    refine (recognizeTyped_eq_some.mp hfind).imp_right fun ⟨hliteral, htyped, hkind⟩ => ?_
    refine ⟨hliteral, ?_, hkind⟩
    rw [← htyped]
    exact typedLength_rebase hboundary

/-- What follows the first part of a text can be replaced, if strings and comments are marked in
what results and no typed literal goes on where the parts meet. -/
theorem Marked.replaceTyped (h : Marked recognizeTyped before cells) :
    ∀ {left rest rest' : List Cell}, cells = left ++ rest →
      (∀ cell ∈ rest.head?, cell.isInside = false) →
      Marked recognizeTyped ((chars left).reverse ++ before) rest' →
      Marked recognize before (StructuredText.untype (left ++ rest')) →
      Seam (chars left) (chars rest') →
      Marked recognizeTyped before (left ++ rest') := by
  induction h with
  | nil =>
    intro left rest rest' heq _ hrest' _ _
    obtain ⟨rfl, rfl⟩ := List.append_eq_nil_iff.mp heq.symm
    exact hrest'
  | @code before c tail hfind htail ih =>
    intro left rest rest' heq hhead hrest' huntyped hseam
    cases left with
    | nil => exact hrest'
    | cons cell left =>
      rw [List.cons_append] at heq huntyped ⊢
      obtain ⟨rfl, rfl⟩ := List.cons_eq_cons.mp heq
      rw [untype_cons] at huntyped
      obtain ⟨hliteral, huntyped⟩ := huntyped.code_inv
      rw [chars_untype] at hliteral
      have htyped := (recognizeTyped_eq_none.mp hfind).2
      rw [chars_append] at htyped
      have hnone := (typedLength_replace (List.cons_ne_nil c (chars left)) hseam).1 htyped
      refine .code (recognizeTyped_eq_none.mpr ⟨hliteral, ?_⟩)
        (ih rfl hhead (by simpa using hrest') huntyped (@Seam.of_append [c] _ _ hseam))
      rw [chars_append]
      exact hnone
  | @literal before body c kind tail hfind htail ih =>
    intro left rest rest' heq hhead hrest' huntyped hseam
    rcases literalCells_append_eq heq hhead with rfl | ⟨middle, rfl, rfl⟩
    · exact hrest'
    rw [List.append_assoc] at huntyped ⊢
    rw [chars_append, chars_literalCells] at hseam
    have hinside : ∀ cell ∈ (middle ++ rest').head?, cell.isInside = false := by
      cases middle with
      | nil => exact hrest'.head?_not_inside
      | cons cell middle =>
        rintro other ⟨⟩
        exact htail.head_not_inside
    have hbehind := ih rfl hhead (by simpa using hrest')
    rw [untype_append] at huntyped
    rcases recognizeTyped_eq_some.mp hfind with hliteral | ⟨-, htyped, rfl⟩
    · have hkind : kind ≠ .typed := by
        rintro rfl
        exact literalAt_ne_typed hliteral
      rw [untype_literalCells hkind] at huntyped
      obtain ⟨hfind', hmiddle⟩ := huntyped.literal_inv (Cell.isInside_head?_untype hinside)
      rw [chars_untype] at hfind'
      exact .literal (recognizeTyped_eq_some.mpr (.inl hfind')) (hbehind hmiddle hseam.of_append)
    · rw [untype_typedCells] at huntyped
      have hmiddle := huntyped.of_append rfl (Cell.isInside_head?_untype hinside)
      rw [chars_codeCells, List.reverse_cons, List.append_assoc] at hmiddle
      rw [codeCells_cons, List.cons_append] at huntyped
      obtain ⟨hnone, -⟩ := huntyped.code_inv
      rw [chars_append, chars_codeCells, chars_untype] at hnone
      rw [chars_append, ← List.append_assoc, ← List.cons_append] at htyped
      have hsome := (typedLength_replace (List.cons_ne_nil c (body ++ chars middle)) hseam).2
        (body.length + 1) (by simp) htyped
      refine .literal (recognizeTyped_eq_some.mpr (.inr ⟨hnone, ?_, rfl⟩))
        (hbehind hmiddle hseam.of_append)
      rw [chars_append, ← List.append_assoc]
      exact hsome

/-! ## Moves between texts that show typed literals -/

@[simp] theorem Role.untype_untype (role : Role) : role.untype.untype = role.untype := by
  cases role with
  | code => rfl
  | opening kind | inside kind => cases kind <;> rfl

theorem endsInLineComment_untype
    (h : ∀ cell ∈ cells, cell.role = .opening .typed ∨ cell.role = .inside .typed →
      isBlank cell.char = false) :
    endsInLineComment (untype cells) = endsInLineComment cells := by
  induction cells with
  | nil => rfl
  | cons cell rest ih =>
    have hcell := h cell List.mem_cons_self
    obtain ⟨c, role⟩ := cell
    rw [untype_cons]
    cases role with
    | code =>
      change (isBlank c && c != '\n' && endsInLineComment (untype rest)) = _
      rw [ih fun other hother => h other (List.mem_cons_of_mem _ hother)]
      rfl
    | opening kind =>
      cases kind with
      | typed =>
        change (isBlank c && c != '\n' && endsInLineComment (untype rest)) = false
        rw [hcell (.inl rfl)]
        rfl
      | _ => rfl
    | inside kind =>
      cases kind with
      | typed =>
        change (isBlank c && c != '\n' && endsInLineComment (untype rest)) = false
        rw [hcell (.inr rfl)]
        rfl
      | _ => rfl

section Move

variable {licence : Licence} {cells cells' left right : List Cell}

theorem splits_untype : Splits licence (untype left) (untype right) ↔
    Splits licence left right := by
  have hcode : (untype right = [] → ∀ cell ∈ (untype left).getLast?, cell.role.untype = .code) ↔
      (right = [] → ∀ cell ∈ left.getLast?, cell.role.untype = .code) := by
    rw [untype, untype, List.map_eq_nil_iff, List.getLast?_map]
    simp [Cell.untype]
  constructor
  · rintro ⟨hcode', hwords, hsigns, htyped⟩
    rw [chars_untype, chars_untype] at hwords hsigns htyped
    exact ⟨hcode.mp hcode', hwords, hsigns, htyped⟩
  · rintro ⟨hcode', hwords, hsigns, htyped⟩
    rw [← chars_untype left, ← chars_untype right] at hwords hsigns htyped
    exact ⟨hcode.mpr hcode', hwords, hsigns, htyped⟩

theorem joins_untype : Joins licence (untype left) (untype right) ↔ Joins licence left right := by
  rw [Joins, Joins, chars_untype, chars_untype]

variable {first second out rest : List Cell} {role : Role} {gap : List Char}

theorem Marked.endsInLineComment_untype (h : Marked recognizeTyped [] (first ++ second)) :
    endsInLineComment (StructuredText.untype first).reverse = endsInLineComment first.reverse := by
  rw [StructuredText.untype, ← List.map_reverse]
  refine StructuredText.endsInLineComment_untype fun cell hcell hrole => ?_
  exact isBlank_of_isTypedChar
    (h.isTypedChar cell (List.mem_append_left _ (List.mem_reverse.mp hcell)) hrole)

/-- A move is a move between the texts without typed literals. -/
theorem Move.untype (h : Move licence cells cells') (hmarked : Marked recognizeTyped [] cells) :
    Move licence (StructuredText.untype cells) (StructuredText.untype cells') := by
  cases h with
  | mk hgap hgap' hright hopens hcloses hline =>
    rw [List.append_assoc] at hmarked
    simp only [untype_append, untype_codeCells]
    refine .mk hgap hgap' (Cell.isInside_head?_untype hright)
      (fun hnil hne => splits_untype.mpr (hopens hnil hne))
      (fun hne hnil => joins_untype.mpr (hcloses hne hnil)) fun hfeed => ?_
    rw [hmarked.endsInLineComment_untype]
    exact hline hfeed

theorem Role.eq_code_of_untype (h : role.untype = .code)
    (htyped : ¬ (role = .opening .typed ∨ role = .inside .typed)) : role = .code := by
  cases role with
  | code => rfl
  | opening kind | inside kind => cases kind <;> simp_all [Role.untype]

/-- Cells without typed literals that are blanks have none. -/
theorem Marked.codeCells_of_untype {third : List Cell}
    (h : Marked recognizeTyped [] (first ++ (second ++ third))) (hgap : ∀ c ∈ gap, isBlank c = true)
    (heq : StructuredText.untype second = codeCells gap) :
    second = codeCells gap := by
  have hchars : chars second = gap := by rw [← chars_untype, heq, chars_codeCells]
  rw [← hchars]
  refine (codeCells_chars fun cell hcell => ?_).symm
  have hrole : cell.role.untype = .code :=
    @role_of_mem_codeCells gap cell.untype (heq ▸ List.mem_map_of_mem hcell)
  have hblank : isBlank cell.char = true := hgap _ (hchars ▸ List.mem_map_of_mem hcell)
  have htyped : ¬ (cell.role = .opening .typed ∨ cell.role = .inside .typed) := by
    intro hrole
    have hmem : cell ∈ first ++ (second ++ third) := by simp [hcell]
    rw [isBlank_of_isTypedChar (h.isTypedChar cell hmem hrole)] at hblank
    cases hblank
  exact Role.eq_code_of_untype hrole htyped

/-- A move that parts no code points of typed literals is a move between the texts with typed
literals. -/
theorem Move.lift (h : Move licence (StructuredText.untype cells) out)
    (htyped : licence.partsTyped = false) (hmarked : Marked recognizeTyped [] cells) :
    ∃ cells', StructuredText.untype cells' = out ∧ Move licence cells cells' := by
  generalize hcells : StructuredText.untype cells = plain at h
  cases h with
  | @mk left right gap gap' hgap hgap' hright hopens hcloses hline =>
    rw [List.append_assoc] at hcells
    obtain ⟨first, rest, rfl, rfl, hrest⟩ := List.map_eq_append_iff.mp hcells
    obtain ⟨second, third, rfl, hsecond, rfl⟩ := List.map_eq_append_iff.mp hrest
    obtain rfl := hmarked.codeCells_of_untype hgap hsecond
    by_cases hsame : gap = [] ∧ gap' = []
    · obtain ⟨rfl, rfl⟩ := hsame
      refine ⟨first ++ (codeCells [] ++ third), by simp [StructuredText.untype], ?_⟩
      have := @Move.mk licence (first ++ (codeCells [] ++ third)) [] [] [] (by simp) (by simp)
        (by simp) (fun _ hne => absurd rfl hne) (fun hne => absurd rfl hne) (by simp)
      simpa using this
    refine ⟨first ++ codeCells gap' ++ third, by
      rw [untype_append, untype_append, untype_codeCells]; rfl, ?_⟩
    rw [← List.append_assoc]
    refine .mk hgap hgap' ?_ (fun hnil hne => splits_untype.mp (hopens hnil hne))
      (fun hne hnil => joins_untype.mp (hcloses hne hnil)) fun hfeed => ?_
    · -- Behind blanks no literal goes on, and nothing parts a typed literal.
      intro cell hcell
      obtain ⟨behind, rfl⟩ := List.head?_eq_some_iff.mp hcell
      obtain ⟨d, role⟩ := cell
      cases role with
      | code | opening kind => rfl
      | inside kind =>
        have hkind : kind = .typed := by
          by_contra hne
          have := hright _ rfl
          cases kind <;> first | exact hne rfl | cases this
        subst hkind
        rw [← List.append_assoc] at hmarked
        obtain ⟨c, role, hlast, hrole⟩ := hmarked.getLast?_of_inside rfl
        have hc := hmarked.isTypedChar ⟨c, role⟩
          (List.mem_append_left _ (List.mem_of_getLast? hlast)) hrole
        have hd := hmarked.isTypedChar ⟨d, .inside .typed⟩ (by simp) (.inr rfl)
        by_cases hnil : gap = []
        · subst hnil
          rw [codeCells_nil, List.append_nil] at hlast
          have := (splits_untype.mp (hopens rfl fun hnil => hsame ⟨rfl, hnil⟩)).typed htyped c
            (by rw [chars, List.getLast?_map, hlast]; rfl) d rfl
          simp only [hc, hd, Bool.true_eq_false, or_self] at this
        · obtain ⟨init, e, rfl⟩ := (List.eq_nil_or_concat gap).resolve_left hnil
          rw [List.concat_eq_append, codeCells_append, ← List.append_assoc] at hlast
          obtain ⟨rfl, rfl⟩ : e = c ∧ .code = role := by simpa using hlast
          simp at hrole
    · rw [← hmarked.endsInLineComment_untype]
      exact hline hfeed

/-- No digit stands directly behind a colon of the code, so that the colon may stand directly behind
anything. -/
def ColonsApart (cells : List Cell) : Prop :=
  ∀ left right, cells = left ++ ⟨':', .code⟩ :: right →
    ∀ d ∈ (chars right).head?, isDigit d = false

theorem isDigit_of_isBlank (h : isBlank c = true) : isDigit c = false := by
  by_contra hdigit
  rw [Bool.not_eq_false] at hdigit
  have := isWordChar_of_isBlank h
  rw [isWordChar_of_isDigit hdigit] at this
  cases this

theorem isTypedChar_of_isBlank (h : isBlank c = true) : isTypedChar c = false := by
  by_contra htyped
  rw [Bool.not_eq_false] at htyped
  rw [isBlank_of_isTypedChar htyped] at h
  cases h

/-- Blanks before which nothing may stand. -/
theorem Licence.isSeparator_cases (h : licence.isSeparator c = true) :
    c = ',' ∨ c = '(' ∨ licence.closesColons = true ∧ c = ':' := by
  simpa [Licence.isSeparator, or_assoc] using h

/-- Moves put no digit behind a colon. -/
theorem Move.colonsApart (h : Move licence cells cells') (hcolons : ColonsApart cells) :
    ColonsApart cells' := by
  cases h with
  | @mk left right gap gap' hgap hlayout hright hopens hcloses hline =>
    have hgap' := isBlank_of_layout hlayout
    have hnot : ∀ {role}, (⟨':', role⟩ : Cell) ∉ codeCells gap' := by
      intro role hmem
      obtain ⟨c, hc, heq⟩ := List.mem_map.mp hmem
      cases heq
      exact absurd (hgap' _ hc) (by decide)
    intro first second heq
    rw [List.append_assoc] at heq
    rcases List.append_eq_append_iff.mp heq with ⟨middle, rfl, hrest⟩ | ⟨middle, rfl, hrest⟩
    · rcases List.append_eq_append_iff.mp hrest with ⟨other, rfl, rfl⟩ | ⟨other, hblank, hrest⟩
      · exact hcolons (left ++ codeCells gap ++ other) second (by simp)
      · cases other with
        | nil =>
          rw [List.nil_append] at hrest
          exact hcolons (left ++ codeCells gap) second (by rw [hrest])
        | cons cell other =>
          obtain ⟨rfl, -⟩ := List.cons_eq_cons.mp hrest
          exact absurd (hblank ▸ by simp) (@hnot .code)
    · cases middle with
      | nil =>
        rw [List.nil_append] at hrest
        cases gap' with
        | nil => exact hcolons (first ++ codeCells gap) second (by rw [List.append_nil, hrest]; rfl)
        | cons c gap' =>
          obtain ⟨hc, -⟩ := List.cons_eq_cons.mp hrest
          exact absurd (by rw [hc]; exact List.mem_cons_self) (@hnot .code)
      | cons cell middle =>
        obtain ⟨rfl, rfl⟩ := List.cons_eq_cons.mp hrest
        have hbehind := hcolons first (middle ++ (codeCells gap ++ right)) (by simp)
        -- The colon is the last cell before the blanks, or what follows it stays.
        cases middle with
        | cons cell middle => exact hbehind
        | nil =>
          cases gap' with
          | cons c gap' =>
            rintro d ⟨⟩
            exact isDigit_of_isBlank (hgap' c List.mem_cons_self)
          | nil =>
            by_cases hnil : gap = []
            · subst hnil
              exact hbehind
            rcases hcloses hnil rfl with hlast | hfirst
            · exact absurd (hlast ':' (by simp)) (by decide)
            · intro d hd
              rcases hfirst d hd with hblank | hsep
              · exact isDigit_of_isBlank hblank
              · rcases Licence.isSeparator_cases hsep with rfl | rfl | ⟨-, rfl⟩ <;> decide

/-- Only word characters and some signs start a literal. -/
theorem Marked.role_eq_code (h : Marked recognizeTyped before (⟨c, role⟩ :: rest))
    (hopens : ∀ next, opensLiteral c next = false) (hword : isWordChar c = false) (hc : c ≠ '%') :
    role = .code := by
  generalize hcells : (⟨c, role⟩ :: rest : List Cell) = cells at h
  cases h with
  | nil => cases hcells
  | code _ _ =>
    cases hcells
    rfl
  | @literal _ body d kind tail hfind _ =>
    obtain ⟨hcell, -⟩ := List.cons_eq_cons.mp hcells
    cases hcell
    rcases recognizeTyped_eq_some.mp hfind with hliteral | ⟨-, htyped, -⟩
    · rw [literalAt_eq_none_iff.mpr (hopens _)] at hliteral
      cases hliteral
    · rcases head_of_typedLength htyped with h | h
      · rw [h] at hword
        cases hword
      · exact absurd h hc

/-- Blanks are code. -/
theorem Marked.codeCells_append_typed (htext : ∀ c ∈ text, isBlank c = true)
    (hrest : Marked recognizeTyped (text.reverse ++ before) rest) :
    Marked recognizeTyped before (codeCells text ++ rest) := by
  induction text generalizing before with
  | nil => exact hrest
  | cons c text ih =>
    have hc := htext c List.mem_cons_self
    refine .code (recognizeTyped_eq_none.mpr
      ⟨literalAt_eq_none_iff.mpr (opensLiteral_of_isBlank hc _), ?_⟩) ?_
    · rw [Option.eq_none_iff_forall_ne_some]
      intro n hn
      rcases head_of_typedLength hn with hword | rfl
      · rw [isWordChar_of_isBlank hc] at hword
        cases hword
      · revert hc
        decide
    · refine ih (fun d hd => htext d (List.mem_cons_of_mem _ hd)) ?_
      rwa [List.reverse_cons, List.append_assoc] at hrest

theorem startsWithWordChar_reverse (h : ∀ c ∈ text.getLast?, isWordChar c = false) :
    startsWithWordChar text.reverse = false := by
  rw [List.getLast?_eq_head?_reverse] at h
  cases hreverse : text.reverse with
  | nil => rfl
  | cons c rest => exact h c (by rw [hreverse]; rfl)

theorem startsWithWordChar_gap (hgap : ∀ c ∈ gap, isBlank c = true) :
    startsWithWordChar (text ++ gap).reverse =
      if gap = [] then startsWithWordChar text.reverse else false := by
  split
  next hnil => rw [hnil, List.append_nil]
  next hne =>
    refine startsWithWordChar_reverse fun c hc => isWordChar_of_isBlank (hgap c ?_)
    rw [List.getLast?_append_of_ne_nil _ hne] at hc
    exact List.mem_of_getLast? hc

theorem exists_head?_of_startsWithWordChar (h : startsWithWordChar text = true) :
    ∃ c ∈ text.head?, isWordChar c = true := by
  cases text with
  | nil => cases h
  | cons c text => exact ⟨c, rfl, h⟩

theorem isWordChar_of_joined (h : isBlank c = true ∨ licence.isSeparator c = true) :
    isWordChar c = false := by
  rcases h with h | h
  · exact isWordChar_of_isBlank h
  · rcases Licence.isSeparator_cases h with rfl | rfl | ⟨-, rfl⟩ <;> decide

/-- Moves leave every typed literal where it is. Where a colon may lose the blanks before it, no
digit may stand behind colons. -/
theorem Move.markedTyped (h : Move licence cells cells') (hmarked : Marked recognizeTyped [] cells)
    (hcolons : licence.closesColons = true → ColonsApart cells) :
    Marked recognizeTyped [] cells' := by
  have huntyped := (h.untype hmarked).marked hmarked.untype
  cases h with
  | @mk left right gap gap' hgap hlayout hright hopens hcloses hline =>
    have hgap' := isBlank_of_layout hlayout
    by_cases hsame : gap = [] ∧ gap' = []
    · obtain ⟨rfl, rfl⟩ := hsame
      exact hmarked
    have hright' := hmarked.of_append rfl hright
    rw [List.append_assoc] at hmarked huntyped ⊢
    refine hmarked.replaceTyped rfl (head?_codeCells_append hright) ?_ huntyped ?_
    · refine .codeCells_append_typed hgap' (hright'.rebaseTyped fun hword => ?_)
      obtain ⟨d, hd, hword⟩ := exists_head?_of_startsWithWordChar hword
      have hparted : gap = [] ∨ gap' = [] → startsWithWordChar (chars left).reverse = false := by
        intro hnil
        refine startsWithWordChar_reverse fun c hc => ?_
        by_cases hgapnil : gap = []
        · have hsplits := hopens hgapnil fun hnil' => hsame ⟨hgapnil, hnil'⟩
          exact (hsplits.words c hc d hd).resolve_right (by rw [hword]; decide)
        · rcases hcloses hgapnil (hnil.resolve_left hgapnil) with hlast | hfirst
          · exact isWordChar_of_isBlank (hlast c hc)
          · have hnot := isWordChar_of_joined (hfirst d hd)
            rw [hword] at hnot
            cases hnot
      rw [List.append_nil, List.append_nil, chars_append, chars_codeCells, ← List.reverse_append,
        startsWithWordChar_gap hgap, startsWithWordChar_gap hgap']
      split <;> split <;> simp_all
    · -- Blanks are barriers, and so is what blanks may go before.
      cases gap' with
      | cons c gap' =>
        refine .inr ?_
        rintro d ⟨⟩
        exact .inl (isTypedChar_of_isBlank (hgap' c List.mem_cons_self))
      | nil =>
        rcases hcloses (fun hnil => hsame ⟨hnil, rfl⟩) rfl with hlast | hfirst
        · exact .inl fun c hc => isTypedChar_of_isBlank (hlast c hc)
        refine .inr fun d hd => ?_
        rcases hfirst d hd with hblank | hsep
        · exact .inl (isTypedChar_of_isBlank hblank)
        rcases Licence.isSeparator_cases hsep with rfl | rfl | ⟨hlicence, rfl⟩
        · exact .inl (by decide)
        · exact .inl (by decide)
        · obtain ⟨cell, hcell, hchar⟩ : ∃ cell, right.head? = some cell ∧ cell.char = ':' := by
            rwa [codeCells_nil, List.nil_append, chars, List.head?_map, Option.mem_def,
              Option.map_eq_some_iff] at hd
          obtain ⟨behind, rfl⟩ := List.head?_eq_some_iff.mp hcell
          obtain ⟨c, role⟩ := cell
          obtain rfl : c = ':' := hchar
          obtain rfl := hright'.role_eq_code (opensLiteral_of_isTypedChar (by decide)) (by decide)
            (by decide)
          exact .inr ⟨rfl, hcolons hlicence (left ++ codeCells gap) behind (by simp)⟩

theorem Respacing.colonsApart (h : Respacing licence cells cells') (hcolons : ColonsApart cells) :
    ColonsApart cells' := by
  induction h with
  | refl => exact hcolons
  | tail _ hmove ih => exact hmove.colonsApart ih

theorem Respacing.markedTyped (h : Respacing licence cells cells')
    (hmarked : Marked recognizeTyped [] cells)
    (hcolons : licence.closesColons = true → ColonsApart cells) :
    Marked recognizeTyped [] cells' := by
  induction h with
  | refl => exact hmarked
  | tail hmoves hmove ih =>
    exact hmove.markedTyped ih fun hcloses => Respacing.colonsApart hmoves (hcolons hcloses)

theorem Respacing.lift (h : Respacing licence (StructuredText.untype cells) out)
    (htyped : licence.partsTyped = false) (hmarked : Marked recognizeTyped [] cells)
    (hcolons : licence.closesColons = true → ColonsApart cells) :
    ∃ cells', StructuredText.untype cells' = out ∧ Respacing licence cells cells' := by
  induction h with
  | refl => exact ⟨cells, rfl, .refl⟩
  | tail _ hmove ih =>
    obtain ⟨middle, rfl, hmiddle⟩ := ih
    obtain ⟨cells', hcells', hlifted⟩ := hmove.lift htyped (hmiddle.markedTyped hmarked hcolons)
    exact ⟨cells', hcells', hmiddle.tail hlifted⟩

end Move

end StructuredText
