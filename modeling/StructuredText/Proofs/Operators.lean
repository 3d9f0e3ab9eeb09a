import Mathlib.Data.List.Find
import StructuredText.Proofs.TypedMoves

/-!
# The operators of a text

The operators of a text are read from left to right, longest first, with the blanks around them.
Those that meet a literal do not count. On cells that show typed literals they can be read off code
point by code point, without the blanks.

Results:
1. `signs_append`: the signs of two texts put together, if no sign goes on from one to the other.
2. `Move.signs_eq`: moves keep the signs.
3. `Marked.operatorTokens_eq`: the operators of a text are the signs of its cells.
-/

namespace StructuredText

open List Literal

variable {sign first second : List Char} {rest block : List Cell}

namespace Spacing

/-- Reads an operator with the blanks around it. -/
def operatorToken (cursor : Cursor) : Option (Cursor × List Char) := do
  let first := cursor.pads
  let sign ← operators.find? fun sign => (first.token sign).isSome
  let last ← first.token sign
  return (last.pads, sign)

/-- The operators outside literals, from left to right. -/
def operatorTokens (text : List Char) : List (List Char) :=
  (freeOccurrences (.ofReader operatorToken) (scanTyped text) text).map Occurrence.value

/-- The operator that a text starts with, the longest one. -/
def signAt (text : List Char) : Option (List Char) :=
  operators.find? fun sign => sign.isPrefixOf text

end Spacing

open Spacing

theorem Cursor.isSome_token (text : List Char) : ∀ cursor : Cursor,
    (cursor.token text).isSome = text.isPrefixOf cursor.after := by
  induction text with
  | nil => exact fun _ => by simp [token]
  | cons c text ih =>
    rintro ⟨pos, before, after⟩
    cases after with
    | nil => rfl
    | cons d after =>
      rw [token, char, next, List.isPrefixOf]
      by_cases hc : d = c
      · subst hc
        simp only [beq_self_eq_true, if_true, Option.bind_some, Bool.true_and]
        exact ih _
      · simp only [beq_eq_false_iff_ne.mpr hc, beq_eq_false_iff_ne.mpr (Ne.symm hc),
          Bool.false_eq_true, if_false, Option.bind_none, Option.isSome_none, Bool.false_and]

/-! ## Signs at the start of a text -/

section Sign

variable {text : List Char}

theorem signAt_eq_some (h : signAt text = some sign) : sign ∈ operators ∧ sign <+: text := by
  unfold signAt at h
  have hstarts := find?_some h
  exact ⟨mem_of_find?_eq_some h, isPrefixOf_iff_prefix.mp hstarts⟩

/-- Operators have one sign or two, and the first one is an operator itself. -/
theorem operators_forms (h : sign ∈ operators) :
    ∃ c, [c] ∈ operators ∧ (sign = [c] ∨ ∃ d, d ∈ ['=', '>', '*'] ∧ sign = [c, d]) := by
  have checked : ∀ sign ∈ operators, [sign.headD ' '] ∈ operators ∧
      (sign = [sign.headD ' '] ∨
        sign.getD 1 ' ' ∈ ['=', '>', '*'] ∧ sign = [sign.headD ' ', sign.getD 1 ' ']) := by
    decide
  obtain ⟨hfirst, hforms⟩ := checked sign h
  exact ⟨_, hfirst, hforms.imp_right fun hforms => ⟨_, hforms⟩⟩

theorem signAt_self (h : sign ∈ operators) : signAt sign = some sign := by
  have : ∀ sign ∈ operators, signAt sign = some sign := by decide
  exact this sign h

theorem signAt_nil : signAt [] = none := by
  decide

/-- Nothing but the signs of operators starts one. -/
theorem signAt_cons {c : Char} (h : [c] ∉ operators) (text : List Char) :
    signAt (c :: text) = none := by
  rw [signAt, find?_eq_none]
  intro sign hsign hstarts
  obtain ⟨d, hd, rfl | ⟨e, -, rfl⟩⟩ := operators_forms hsign
  all_goals
    simp only [List.isPrefixOf, Bool.and_eq_true, beq_iff_eq] at hstarts
    exact h (hstarts.1 ▸ hd)

/-- The operator that a text starts with depends on its first two code points. -/
theorem signAt_take (text : List Char) : signAt (text.take 2) = signAt text := by
  refine find?_congr fun sign hsign => ?_
  obtain ⟨c, -, rfl | ⟨d, -, rfl⟩⟩ := operators_forms hsign
  all_goals
    rcases text with _ | ⟨a, _ | ⟨b, text⟩⟩ <;> rfl

/-- No operator lies across the end of the first text. -/
def Apart (first second : List Char) : Prop :=
  ∀ c ∈ first.getLast?, ∀ d ∈ second.head?, [c, d] ∉ operators

theorem signAt_append (hne : first ≠ []) (hapart : Apart first second) :
    signAt (first ++ second) = signAt first := by
  refine find?_congr fun sign hsign => ?_
  obtain ⟨c, -, rfl | ⟨d, -, rfl⟩⟩ := operators_forms hsign
  · rcases first with _ | ⟨a, first⟩
    · exact absurd rfl hne
    · rfl
  · rcases first with _ | ⟨a, _ | ⟨b, first⟩⟩
    · exact absurd rfl hne
    · cases second with
      | nil => rfl
      | cons b second =>
        have hnot := hapart a rfl b rfl
        rw [Bool.eq_iff_iff]
        simp only [cons_append, nil_append, List.isPrefixOf, Bool.and_eq_true, beq_iff_eq,
          and_true, Bool.false_eq_true, and_false, iff_false]
        rintro ⟨rfl, rfl⟩
        exact hnot hsign
    · rfl

theorem not_mem_operators_of_isBlank {c : Char} (h : isBlank c = true) : [c] ∉ operators := by
  intro hmem
  have hnot : ∀ sign ∈ operators, ∀ d ∈ sign, isBlank d = false := by decide
  rw [hnot _ hmem c mem_cons_self] at h
  cases h

theorem Apart.of_isBlank_last (h : ∀ c ∈ first.getLast?, isBlank c = true) :
    Apart first second := by
  intro c hc d _ hmem
  obtain ⟨e, he, heq | ⟨_, -, heq⟩⟩ := operators_forms hmem
  · cases heq
  · cases heq
    exact not_mem_operators_of_isBlank (h c hc) he

/-- No operator goes on with anything but the signs of two operators. -/
theorem Apart.of_head (h : ∀ d ∈ second.head?, d ∉ ['=', '>', '*']) : Apart first second := by
  intro c _ d hd hmem
  obtain ⟨e, -, heq | ⟨_, hsecond, heq⟩⟩ := operators_forms hmem
  · cases heq
  · cases heq
    exact h d hd hsecond

theorem Apart.of_isBlank_head (h : ∀ d ∈ second.head?, isBlank d = true) : Apart first second :=
  .of_head fun d hd hmem => by
    have hblank := h d hd
    simp only [mem_cons, not_mem_nil, or_false] at hmem
    rcases hmem with rfl | rfl | rfl <;> revert hblank <;> decide

/-- A sign is read before a text that starts in the same way, and before a blank. -/
theorem signAt_congr {rest rest' : List Char} (h : signAt (sign ++ rest) = some sign)
    (hrest : rest'.head? = rest.head? ∨ ∀ d ∈ rest'.head?, isBlank d = true) :
    signAt (sign ++ rest') = some sign := by
  have hmem := (signAt_eq_some h).1
  rcases hrest with hrest | hrest
  · have htake : (sign ++ rest').take 2 = (sign ++ rest).take 2 := by
      obtain ⟨c, -, rfl | ⟨d, -, rfl⟩⟩ := operators_forms hmem
      · rcases rest with _ | ⟨a, rest⟩ <;> rcases rest' with _ | ⟨b, rest'⟩ <;> simp_all
      · rfl
    rw [← signAt_take, htake, signAt_take, h]
  · rw [signAt_append ?_ (.of_isBlank_head hrest), signAt_self hmem]
    rintro rfl
    revert hmem
    decide

end Sign

/-! ## The signs of cells -/

/-- The signs of the code behind the first `skip` cells. -/
def signsFrom : Nat → List Cell → List (List Char)
  | _, [] => []
  | skip + 1, _ :: rest => signsFrom skip rest
  | 0, cell :: rest =>
      match signAt (chars (cell :: rest)) with
      | none => signsFrom 0 rest
      | some sign =>
          (if ((cell :: rest).take sign.length).all Cell.isCode then [sign] else []) ++
            signsFrom (sign.length - 1) rest

/-- The signs of the code, from left to right and longest first. Those that meet a literal do not
count, and are read nevertheless. -/
def signs (cells : List Cell) : List (List Char) :=
  signsFrom 0 cells

theorem signsFrom_append {first second : List Cell} :
    ∀ {skip}, first.length = skip → signsFrom skip (first ++ second) = signs second := by
  induction first with
  | nil =>
    rintro skip rfl
    rfl
  | cons cell first ih =>
    rintro skip rfl
    exact ih rfl

@[simp] theorem signs_nil : signs [] = [] := rfl

theorem signs_cons {cell : Cell} (h : signAt (chars (cell :: rest)) = none) :
    signs (cell :: rest) = signs rest := by
  rw [signs, signsFrom, h]
  rfl

theorem signs_sign (h : signAt (chars (block ++ rest)) = some (chars block)) :
    signs (block ++ rest) = (if block.all Cell.isCode then [chars block] else []) ++
      signs rest := by
  cases block with
  | nil => exact absurd (signAt_eq_some h).1 (by decide)
  | cons cell block =>
    rw [cons_append] at h ⊢
    rw [signs, signsFrom, h]
    simp only [chars_cons, length_cons, length_chars, Nat.add_sub_cancel,
      signsFrom_append]
    rw [← cons_append, take_left' (length_cons ..)]

theorem Apart.of_append {first second rest : List Char} (h : Apart (first ++ second) rest) :
    Apart second rest := by
  intro c hc
  exact h c (by rw [getLast?_append, Option.mem_def.mp hc]; rfl)

/-- The signs of two texts put together, if no sign goes on from one to the other. -/
theorem signs_append (first : List Cell) : ∀ {second : List Cell},
    Apart (chars first) (chars second) → signs (first ++ second) = signs first ++ signs second := by
  induction hn : first.length using Nat.strongRecOn generalizing first with
  | ind n ih =>
    intro second hapart
    cases first with
    | nil => rfl
    | cons cell first =>
      have hsame := signAt_append (cons_ne_nil cell.char (chars first)) hapart
      cases hsign : signAt (chars (cell :: first)) with
      | none =>
        rw [signs_cons hsign, cons_append, signs_cons,
          ih _ (by rw [← hn]; simp) first rfl (@Apart.of_append [cell.char] _ _ hapart)]
        rw [← cons_append, chars_append]
        exact hsame.trans hsign
      | some sign =>
        obtain ⟨hmem, rest, hrest⟩ := signAt_eq_some hsign
        obtain ⟨block, tail, hsplit, rfl, rfl⟩ := chars_eq_append hrest.symm
        rw [← chars_cons, hsign, hsplit] at hsame
        rw [hsplit] at hsign hapart ⊢
        rw [chars_append] at hapart
        have hlt : tail.length < n := by
          rw [hsplit, length_append] at hn
          have : block.length ≠ 0 := by
            intro hzero
            rw [eq_nil_of_length_eq_zero hzero] at hmem
            revert hmem
            decide
          omega
        rw [append_assoc, signs_sign, signs_sign hsign, ih _ hlt tail rfl hapart.of_append,
          append_assoc]
        rw [← append_assoc, chars_append, hsame]

/-- Blanks have no signs. -/
theorem signs_blanks {blanks : List Cell} (h : ∀ c ∈ chars blanks, isBlank c = true) :
    signs (blanks ++ rest) = signs rest := by
  induction blanks with
  | nil => rfl
  | cons cell blanks ih =>
    rw [cons_append, signs_cons (signAt_cons (not_mem_operators_of_isBlank
      (h _ mem_cons_self)) _)]
    exact ih fun c hc => h c (mem_cons_of_mem _ hc)

/-! ## Moves keep the signs -/

section Move

variable {licence : Licence} {cells cells' left right : List Cell} {gap : List Char}

theorem signs_gap (hgap : ∀ c ∈ gap, isBlank c = true)
    (hapart : gap = [] → Apart (chars left) (chars right)) :
    signs (left ++ codeCells gap ++ right) = signs left ++ signs right := by
  by_cases hnil : gap = []
  · subst hnil
    rw [codeCells_nil, append_nil, signs_append left (hapart rfl)]
  · rw [append_assoc, signs_append left, signs_blanks (by simpa using hgap)]
    refine .of_isBlank_head fun d hd => hgap d ?_
    rw [chars_append, chars_codeCells, head?_append_of_ne_nil _ hnil] at hd
    exact mem_of_head? hd

theorem Splits.apart (h : Splits licence left right) (hsigns : licence.partsSigns = false) :
    Apart (chars left) (chars right) := by
  intro c hc d hd hmem
  have hcling := h.signs hsigns c hc d hd
  rw [cling, contains_iff_mem.mpr hmem, Bool.or_true] at hcling
  cases hcling

theorem Joins.apart (h : Joins licence left right) : Apart (chars left) (chars right) := by
  rcases h with hlast | hfirst
  · exact .of_isBlank_last hlast
  · refine .of_head fun d hd hmem => ?_
    rcases hfirst d hd with hblank | hsep
    · simp only [mem_cons, not_mem_nil, or_false] at hmem
      rcases hmem with rfl | rfl | rfl <;> revert hblank <;> decide
    · rcases Licence.isSeparator_cases hsep with rfl | rfl | ⟨-, rfl⟩ <;> revert hmem <;> decide

/-- Moves keep the signs, unless they may part them. -/
theorem Move.signs_eq (h : Move licence cells cells') (hsigns : licence.partsSigns = false) :
    signs cells' = signs cells := by
  cases h with
  | @mk left right gap gap' hgap hlayout hright hopens hcloses hline =>
    have hgap' := isBlank_of_layout hlayout
    by_cases hsame : gap = [] ∧ gap' = []
    · rw [hsame.1, hsame.2]
    have hapart : gap = [] ∨ gap' = [] → Apart (chars left) (chars right) := by
      intro hnil
      by_cases hgapnil : gap = []
      · exact (hopens hgapnil fun hnil => hsame ⟨hgapnil, hnil⟩).apart hsigns
      · exact (hcloses hgapnil (hnil.resolve_left hgapnil)).apart
    rw [signs_gap hgap fun hnil => hapart (.inl hnil), signs_gap hgap' fun hnil =>
      hapart (.inr hnil)]

theorem Respacing.signs_eq (h : Respacing licence cells cells')
    (hsigns : licence.partsSigns = false) : signs cells' = signs cells := by
  induction h with
  | refl => rfl
  | tail _ hmove ih => rw [hmove.signs_eq hsigns, ih]

end Move

/-! ## The operators of a text are its signs -/

/-- The block is an operator with blanks around it. -/
def ReadsSign (block rest sign : List Char) : Prop :=
  ∃ lead trail, block = lead ++ (sign ++ trail) ∧ (∀ c ∈ lead, isBlank c = true) ∧
    (∀ c ∈ trail, isBlank c = true) ∧ signAt (sign ++ (trail ++ rest)) = some sign

namespace Spacing

theorem find?_token (cursor : Cursor) :
    (operators.find? fun sign => (cursor.token sign).isSome) = signAt cursor.after :=
  find?_congr fun sign _ => cursor.isSome_token sign

/-- What is read of an operator: the blanks before it, its sign and the blanks behind. -/
theorem reads_sign {cursor last : Cursor}
    (hsign : (operators.find? fun sign => (cursor.pads.token sign).isSome) = some sign)
    (hlast : cursor.pads.token sign = some last) :
    ∃ block, cursor.Reads last.pads block ∧ block ≠ [] ∧ ReadsSign block last.pads.after sign := by
  rw [find?_token] at hsign
  have hpads := Cursor.reads_run isPad cursor
  have hpads' := (Cursor.reads_token hlast).trans (Cursor.reads_run isPad last)
  have hne : sign ≠ [] := by
    rintro rfl
    exact absurd (signAt_eq_some hsign).1 (by decide)
  refine ⟨_, hpads.trans hpads', by simp [hne], _, _, rfl,
    fun c hc => isBlank_of_isPad (isPad_of_mem_takeWhile c hc),
    fun c hc => isBlank_of_isPad (isPad_of_mem_takeWhile c hc), ?_⟩
  have hafter := hpads'.after
  rw [append_assoc] at hafter
  rw [← hsign, hafter]
  rfl

theorem operatorToken_spec : Rule.Spec operatorToken ReadsSign := by
  intro cursor stop sign h
  obtain ⟨other, hsign, h⟩ := Option.bind_eq_some_iff.mp h
  obtain ⟨last, hlast, h⟩ := Option.bind_eq_some_iff.mp h
  cases h
  exact reads_sign hsign hlast

/-- Where no operator is read, none starts. -/
theorem signAt_of_operatorToken {cursor : Cursor} (h : operatorToken cursor = none) :
    signAt cursor.after = none := by
  cases hcursor : cursor.after with
  | nil => exact signAt_nil
  | cons c rest =>
    by_cases hpad : isPad c = true
    · exact signAt_cons (not_mem_operators_of_isBlank (isBlank_of_isPad hpad)) rest
    · have hpads : cursor.pads = cursor := by
        obtain ⟨pos, before, after⟩ := cursor
        cases hcursor
        rw [Cursor.pads, Cursor.run, Cursor.runFrom, if_neg hpad]
      rw [operatorToken, hpads] at h
      rw [← hcursor, ← find?_token, Option.eq_none_iff_forall_ne_some]
      intro sign hsign
      have htoken := Option.bind_eq_none_iff.mp h sign hsign
      have hsome := find?_some hsign
      obtain ⟨last, hlast⟩ := Option.isSome_iff_exists.mp hsome
      simp [hlast] at htoken

end Spacing

/-- The signs of an operator with blanks around it. -/
theorem signs_block {lead sign trail : List Cell} (hlead : ∀ c ∈ chars lead, isBlank c = true)
    (htrail : ∀ c ∈ chars trail, isBlank c = true)
    (h : signAt (chars sign ++ (chars trail ++ chars rest)) = some (chars sign)) :
    signs (lead ++ (sign ++ (trail ++ rest))) =
      (if sign.all Cell.isCode then [chars sign] else []) ++ signs rest := by
  rw [signs_blanks hlead, signs_sign (by simpa using h), signs_blanks htrail]

theorem Cell.isCode_iff {cell : Cell} : cell.isCode = true ↔ cell.role = .code :=
  beq_iff_eq

/-- An operator whose sign is code has only code around it. -/
theorem Marked.code_of_sign {first lead sign trail rest : List Cell}
    (h : Marked recognizeTyped [] (first ++ (lead ++ (sign ++ (trail ++ rest)))))
    (hlead : ∀ c ∈ chars lead, isBlank c = true) (htrail : ∀ c ∈ chars trail, isBlank c = true)
    (hne : sign ≠ []) (hcode : ∀ cell ∈ sign, cell.role = .code) :
    ∀ cell ∈ lead ++ (sign ++ trail), cell.role = .code := by
  obtain ⟨init, ⟨c, role⟩, rfl⟩ := (eq_nil_or_concat sign).resolve_left hne
  rw [concat_eq_append] at h hcode ⊢
  obtain rfl : role = .code := hcode ⟨c, role⟩ (by simp)
  have hlead' : lead = codeCells (chars lead) := by
    refine h.codeCells_of_untype hlead ?_
    have huntyped := h.untype
    rw [untype_append, untype_append] at huntyped
    have hblanks := huntyped.codeCells_of_head rfl (by simpa using hlead) (by simp) ?_
    · rwa [chars_untype] at hblanks
    · refine Cell.isInside_head?_untype ?_
      cases init with
      | nil =>
        rintro cell ⟨⟩
        rfl
      | cons cell init =>
        rintro other ⟨⟩
        have := hcode cell (by simp)
        obtain ⟨d, role⟩ := cell
        cases this
        rfl
  have htrail' : trail = codeCells (chars trail) := by
    have hassoc : Marked recognizeTyped []
        ((first ++ (lead ++ (init ++ [⟨c, .code⟩]))) ++ (trail ++ rest)) := by
      simpa using h
    have hhead := hassoc.head?_of_getLast? (c := c) (by simp)
    have huntyped := (hassoc.of_append rfl hhead).untype
    rw [untype_append] at huntyped
    have hblanks := huntyped.codeCells_of_isBlank (by simpa using htrail)
    rw [chars_untype] at hblanks
    exact hassoc.codeCells_of_untype htrail hblanks
  intro cell hcell
  rcases mem_append.mp hcell with hcell | hcell
  · rw [hlead'] at hcell
    exact role_of_mem_codeCells hcell
  · rcases mem_append.mp hcell with hcell | hcell
    · exact hcode cell hcell
    · rw [htrail'] at hcell
      exact role_of_mem_codeCells hcell

/-- A block that reads as an operator, split into its parts. -/
theorem ReadsSign.cells {rest : List Char} (h : ReadsSign (chars block) rest sign) :
    ∃ lead middle trail, block = lead ++ (middle ++ trail) ∧ chars middle = sign ∧ middle ≠ [] ∧
      (∀ c ∈ chars lead, isBlank c = true) ∧ (∀ c ∈ chars trail, isBlank c = true) ∧
      signAt (chars middle ++ (chars trail ++ rest)) = some (chars middle) := by
  obtain ⟨lead, trail, hblock, hlead, htrail, hsign⟩ := h
  obtain ⟨first, behind, rfl, rfl, hbehind⟩ := chars_eq_append hblock
  obtain ⟨middle, last, rfl, rfl, rfl⟩ := chars_eq_append hbehind
  refine ⟨first, middle, last, rfl, rfl, ?_, hlead, htrail, hsign⟩
  rintro rfl
  exact absurd (signAt_eq_some hsign).1 (by decide)

theorem signs_of_code (hreads : ReadsSign (chars block) (chars rest) sign)
    (hcode : ∀ cell ∈ block, cell.role = .code) :
    signs (block ++ rest) = sign :: signs rest := by
  obtain ⟨lead, middle, trail, rfl, rfl, -, hlead, htrail, hsign⟩ := hreads.cells
  have hmiddle : middle.all Cell.isCode = true :=
    all_eq_true.mpr fun cell hcell => Cell.isCode_iff.mpr (hcode cell (by simp [hcell]))
  rw [append_assoc, append_assoc, signs_block hlead htrail hsign, if_pos hmiddle]
  rfl

/-- An operator that meets a literal does not count, whatever stands behind it. -/
theorem Marked.signs_of_literal {first tail : List Cell}
    (h : Marked recognizeTyped [] (first ++ (block ++ tail)))
    (hreads : ReadsSign (chars block) (chars rest) sign)
    (hblock : ∃ cell ∈ block, cell.role ≠ .code) :
    signs (block ++ rest) = signs rest := by
  obtain ⟨lead, middle, trail, rfl, rfl, hne, hlead, htrail, hsign⟩ := hreads.cells
  have hmiddle : ¬ middle.all Cell.isCode = true := by
    intro hall
    obtain ⟨cell, hcell, hrole⟩ := hblock
    rw [append_assoc, append_assoc] at h
    exact hrole (h.code_of_sign hlead htrail hne
      (fun other hother => Cell.isCode_iff.mp (all_eq_true.mp hall other hother)) cell hcell)
  rw [append_assoc, append_assoc, signs_block hlead htrail hsign, if_neg hmiddle]
  rfl

/-- The operators from some place on, with `first` before it. -/
theorem Marked.freeTokens_eq {cells : List Cell} (h : Marked recognizeTyped [] cells)
    {before : List Char} {rest out : List Cell}
    (hwalk : Rewrites (.ofReader operatorToken) id before rest out) :
    ∀ first, before.length = first.length → cells = first ++ rest →
      (freeEdits (spansFrom 0 cells) id (occurrencesFrom (.ofReader operatorToken)
        before.length 0 before (chars rest))).map Edit.text = signs rest := by
  have hreads : ∀ {before block rest sign}, Recognizer.ofReader operatorToken false
      ⟨before.length, before, chars block ++ chars rest⟩ = some (block.length, sign) →
      ReadsSign (chars block) (chars rest) sign := by
    intro before block rest sign hfind
    rw [← length_chars] at hfind
    exact operatorToken_spec.holds hfind
  induction hwalk with
  | nil =>
    intro first _ _
    rw [chars_nil, occurrencesFrom_nil operatorToken_spec.isProper]
    rfl
  | @miss before cell rest out hfind _ ih =>
    intro first hlength hcells
    have hrest := ih (first ++ [cell]) (by simp [hlength]) (by simpa using hcells)
    rw [chars_cons, occurrencesFrom_miss hfind,
      signs_cons (signAt_of_operatorToken (Option.map_eq_none_iff.mp hfind)), ← hrest]
    rfl
  | @blocked before block rest out sign hfind hcode _ ih =>
    intro first hlength hcells
    rw [freeEdits_blocked h.covers hlength hcells hfind id hcode,
      ih (first ++ block) (by simp [hlength, Nat.add_comm]) (by simpa using hcells)]
    rw [hcells] at h
    exact (h.signs_of_literal (hreads hfind) hcode).symm
  | @hit before block rest out sign hfind hne hcode _ ih =>
    intro first hlength hcells
    rw [freeEdits_hit h.covers hlength hcells hfind id hne hcode, map_cons,
      ih (first ++ block) (by simp [hlength, Nat.add_comm]) (by simpa using hcells),
      signs_of_code (hreads hfind) hcode]
    rfl

/-- The operators of a text are the signs of its cells. -/
theorem Marked.operatorTokens_eq {cells : List Cell} (h : Marked recognizeTyped [] cells) :
    operatorTokens (chars cells) = signs cells := by
  obtain ⟨out, hwalk⟩ := exists_rewrites operatorToken_spec.isProper id cells []
  rw [operatorTokens, freeOccurrences, h.scanTyped_eq, ← h.freeTokens_eq hwalk []
    rfl rfl, freeEdits, map_map]
  rfl

end StructuredText
