import StructuredText.Proofs.Lexical

/-!
# Markings with typed literals

The marking that also shows typed literals differs from the other in typed literals only: they hold
no code point that starts a string or comment, nor a blank.

Results:
1. `recognizeTyped_isProper`: typed literals are not empty.
2. `Marked.isTypedChar`: what typed literals hold.
3. `Marked.untype`: without typed literals, the marking is the one of strings and comments.
-/

namespace StructuredText

open Literal

variable {before after : List Char} {cells : List Cell} {n : Nat}

namespace Literal

/-- How many code points a typed literal takes between `before` and the end of the text. -/
def typedLength (before after : List Char) : Option Nat :=
  (if atWordBoundary before after then Measure.typedWord after else none).or
    (Measure.directAddress after)

theorem recognizeTyped_eq (advance : Bool) (cursor : Cursor) :
    recognizeTyped advance cursor =
      (literalAt cursor.after).or ((typedLength cursor.before cursor.after).map (·, .typed)) := by
  rw [recognizeTyped, typedLiteral_eq]
  cases literalAt cursor.after with
  | some found => rfl
  | none =>
    simp only [Option.map_map, Option.none_or, typedLength, Cursor.atBoundary]
    congr 1
    funext n
    simp [skip]

/-- A typed literal is one of the measured ones. -/
theorem typedLength_eq_some (h : typedLength before after = some n) :
    ∃ measure, Lexical measure ∧ measure [] = none ∧ measure after = some n := by
  rcases Option.or_eq_some_iff.mp h with h | ⟨-, h⟩
  · split at h
    · exact ⟨_, typedWord_lexical, rfl, h⟩
    · cases h
  · exact ⟨_, directAddress_lexical, rfl, h⟩

theorem typedLength_bounds (h : typedLength before after = some n) : 0 < n ∧ n ≤ after.length := by
  obtain ⟨measure, hlexical, hnil, hn⟩ := typedLength_eq_some h
  refine ⟨Nat.pos_of_ne_zero ?_, hlexical.bounded hn⟩
  rintro rfl
  rw [@Lexical.cut _ hlexical [] after 0 hn (Nat.le_refl 0)] at hnil
  cases hnil

theorem isTypedChar_of_typedLength (h : typedLength before after = some n) :
    ∀ c ∈ after.take n, isTypedChar c = true := by
  obtain ⟨measure, hlexical, -, hn⟩ := typedLength_eq_some h
  exact hlexical.typed hn

/-- The kinds that a literal can have where it starts. -/
theorem literalAt_ne_typed {text : List Char} : literalAt text ≠ some (n, .typed) := by
  intro h
  obtain ⟨_, _, _, _, _, hkind⟩ | ⟨_, _, _, hkind⟩ | ⟨_, _, _, hkind⟩ | ⟨_, _, _, hkind⟩ :=
    literalAt_cases h <;> cases hkind

theorem recognizeTyped_eq_none {advance : Bool} {cursor : Cursor} :
    recognizeTyped advance cursor = none ↔
      literalAt cursor.after = none ∧ typedLength cursor.before cursor.after = none := by
  rw [recognizeTyped_eq, Option.or_eq_none_iff, Option.map_eq_none_iff]

theorem recognizeTyped_eq_some {advance : Bool} {cursor : Cursor} {kind : Kind} :
    recognizeTyped advance cursor = some (n, kind) ↔
      literalAt cursor.after = some (n, kind) ∨
        (literalAt cursor.after = none ∧ typedLength cursor.before cursor.after = some n ∧
          kind = .typed) := by
  rw [recognizeTyped_eq, Option.or_eq_some_iff, Option.map_eq_some_iff]
  simp only [Prod.mk.injEq]
  grind

theorem recognizeTyped_isProper : recognizeTyped.IsProper := by
  intro advance cursor n kind h
  rcases recognizeTyped_eq_some.mp h with h | ⟨-, h, -⟩
  · exact literalAt_bounds h
  · exact typedLength_bounds h

/-- No literal starts at a code point of typed literals. -/
theorem opensLiteral_of_isTypedChar {c : Char} (h : isTypedChar c = true) (next : Option Char) :
    opensLiteral c next = false := by
  refine opensLiteral_eq_false ⟨?_, ?_, ?_, ?_⟩ next <;> rintro rfl <;> revert h <;> decide

theorem isBlank_of_isTypedChar {c : Char} (h : isTypedChar c = true) : isBlank c = false := by
  by_contra hblank
  rw [Bool.not_eq_false] at hblank
  simp only [isTypedChar, isWordChar_of_isBlank hblank, Bool.false_or, Bool.or_eq_true,
    beq_iff_eq] at h
  rcases h with (((((rfl | rfl) | rfl) | rfl) | rfl) | rfl) | rfl <;> revert hblank <;> decide

end Literal

/-! ## Markings without typed literals -/

def Role.untype : Role → Role
  | .opening .typed | .inside .typed => .code
  | role => role

def Cell.untype (cell : Cell) : Cell :=
  ⟨cell.char, cell.role.untype⟩

def untype (cells : List Cell) : List Cell :=
  cells.map Cell.untype

@[simp] theorem untype_nil : untype [] = [] := rfl

@[simp] theorem untype_cons (cell : Cell) (cells : List Cell) :
    untype (cell :: cells) = cell.untype :: untype cells := rfl

@[simp] theorem untype_append (first second : List Cell) :
    untype (first ++ second) = untype first ++ untype second :=
  List.map_append

@[simp] theorem chars_untype (cells : List Cell) : chars (untype cells) = chars cells := by
  rw [chars, chars, untype, List.map_map]
  rfl

@[simp] theorem untype_codeCells (text : List Char) : untype (codeCells text) = codeCells text := by
  rw [untype, codeCells, List.map_map]
  rfl

theorem untype_literalCells {kind : Kind} (h : kind ≠ .typed) (c : Char) (body : List Char) :
    untype (literalCells kind c body) = literalCells kind c body := by
  cases kind with
  | typed => exact absurd rfl h
  | _ => simp [untype, literalCells, insideCells, Cell.untype, Role.untype, Function.comp_def]

theorem untype_typedCells (c : Char) (body : List Char) :
    untype (literalCells .typed c body) = codeCells (c :: body) := by
  simp [untype, literalCells, insideCells, codeCells, Cell.untype, Role.untype,
    Function.comp_def]

/-- Code points that start no literal are marked as code. -/
theorem Marked.codeCells_append {text : List Char} {rest : List Cell}
    (htext : ∀ c ∈ text, ∀ next, opensLiteral c next = false)
    (hrest : Marked recognize (text.reverse ++ before) rest) :
    Marked recognize before (codeCells text ++ rest) := by
  induction text generalizing before with
  | nil => exact hrest
  | cons c text ih =>
    refine .code (literalAt_eq_none_iff.mpr (htext c List.mem_cons_self _)) ?_
    refine ih (fun d hd => htext d (List.mem_cons_of_mem _ hd)) ?_
    rwa [List.reverse_cons, List.append_assoc] at hrest

/-- Without typed literals, the marking is the one of strings and comments. -/
theorem Marked.untype (h : Marked recognizeTyped before cells) :
    Marked recognize before (untype cells) := by
  induction h with
  | nil => exact .nil
  | code hfind _ ih =>
    rw [untype_cons]
    refine .code ?_ ih
    rw [chars_untype]
    exact (recognizeTyped_eq_none.mp hfind).1
  | @literal before body c kind rest hfind _ ih =>
    rw [untype_append]
    rcases recognizeTyped_eq_some.mp hfind with hliteral | ⟨-, hlength, rfl⟩
    · have hkind : kind ≠ .typed := by
        rintro rfl
        exact literalAt_ne_typed hliteral
      rw [untype_literalCells hkind]
      refine .literal ?_ ih
      rw [chars_untype]
      exact hliteral
    · rw [untype_typedCells]
      refine Marked.codeCells_append ?_ (by simpa using ih)
      have htyped := isTypedChar_of_typedLength hlength
      simp only [List.take_succ_cons, List.take_left] at htyped
      intro d hd
      exact opensLiteral_of_isTypedChar (htyped d hd)

/-- Without typed literals there is nothing to take away. -/
theorem Marked.untype_role (h : Marked recognize before cells) :
    ∀ cell ∈ cells, cell.role.untype = cell.role := by
  induction h with
  | nil => simp
  | code _ _ ih =>
    intro cell hcell
    rcases List.mem_cons.mp hcell with rfl | hcell
    · rfl
    · exact ih cell hcell
  | @literal before body c kind rest hfind _ ih =>
    intro cell hcell
    rcases List.mem_append.mp hcell with hcell | hcell
    · have hkind : kind ≠ .typed := by
        rintro rfl
        exact literalAt_ne_typed hfind
      simp only [literalCells, insideCells, List.mem_cons, List.mem_map] at hcell
      obtain rfl | ⟨d, -, rfl⟩ := hcell <;> cases kind <;> first | rfl | exact absurd rfl hkind
    · exact ih cell hcell

/-- What typed literals hold. -/
theorem Marked.isTypedChar (h : Marked recognizeTyped before cells) :
    ∀ cell ∈ cells, cell.role = .opening .typed ∨ cell.role = .inside .typed →
      Literal.isTypedChar cell.char = true := by
  induction h with
  | nil => simp
  | code _ _ ih =>
    intro cell hcell hrole
    rcases List.mem_cons.mp hcell with rfl | hcell
    · simp at hrole
    · exact ih cell hcell hrole
  | @literal before body c kind rest hfind _ ih =>
    intro cell hcell hrole
    rcases List.mem_append.mp hcell with hcell | hcell
    · have hkind : kind = .typed ∧ cell.char ∈ c :: body := by
        simp only [literalCells, insideCells, List.mem_cons, List.mem_map] at hcell ⊢
        obtain rfl | ⟨d, hd, rfl⟩ := hcell <;> simp_all
      obtain ⟨rfl, hmem⟩ := hkind
      rcases recognizeTyped_eq_some.mp hfind with hliteral | ⟨-, hlength, -⟩
      · exact absurd hliteral literalAt_ne_typed
      · have htyped := isTypedChar_of_typedLength hlength
        simp only [List.take_succ_cons, List.take_left] at htyped
        exact htyped _ hmem
    · exact ih cell hcell hrole

end StructuredText
