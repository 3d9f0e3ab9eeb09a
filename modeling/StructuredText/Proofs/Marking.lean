import Mathlib.Data.List.TakeWhile
import StructuredText.Literal.Scan
import StructuredText.Proofs.Lookup

/-!
# Texts with their literals marked

A cell is a code point with its role: it belongs to the code, opens a literal, or stands inside one.
`Marked find before cells` says that the roles of `cells` are those that the recogniser `find` gives
them in a text that has `before` in front, nearest code point first.

Results:
1. `exists_marked`: every text can be marked.
2. `Marked.occurrences_eq`: the occurrences of the recogniser are the literals of the cells.
3. `spansFrom_ordered`: the spans of the literals are in order and apart.
4. `Marked.covered_iff`: a span holds a position exactly if the cell there is not code.
-/

namespace StructuredText

open List Literal

variable {α : Type} {before body : List Char} {c : Char} {kind : Kind} {pos : Nat}
  {find : Recognizer Kind} {span : Span}

/-- What a code point is part of. -/
inductive Role where
  | code
  | opening (kind : Kind)
  | inside (kind : Kind)
deriving Repr, DecidableEq

structure Cell where
  char : Char
  role : Role
deriving Repr, DecidableEq

def Cell.isCode (cell : Cell) : Bool :=
  cell.role == .code

def Cell.isInside (cell : Cell) : Bool :=
  match cell.role with
  | .inside _ => true
  | .code | .opening _ => false

/-- The text of cells. -/
def chars (cells : List Cell) : List Char :=
  cells.map Cell.char

def codeCells (text : List Char) : List Cell :=
  text.map fun c => ⟨c, .code⟩

def insideCells (kind : Kind) (text : List Char) : List Cell :=
  text.map fun c => ⟨c, .inside kind⟩

/-- The cells of a literal with `c` as its first code point. -/
def literalCells (kind : Kind) (c : Char) (body : List Char) : List Cell :=
  ⟨c, .opening kind⟩ :: insideCells kind body

@[simp] theorem chars_nil : chars [] = [] := rfl

@[simp] theorem chars_cons (cell : Cell) (cells : List Cell) :
    chars (cell :: cells) = cell.char :: chars cells := rfl

@[simp] theorem chars_append (first second : List Cell) :
    chars (first ++ second) = chars first ++ chars second :=
  map_append

@[simp] theorem length_chars (cells : List Cell) : (chars cells).length = cells.length :=
  length_map _

@[simp] theorem chars_codeCells (text : List Char) : chars (codeCells text) = text := by
  rw [chars, codeCells, map_map]
  exact map_id text

@[simp] theorem chars_insideCells (kind : Kind) (text : List Char) :
    chars (insideCells kind text) = text := by
  rw [chars, insideCells, map_map]
  exact map_id text

@[simp] theorem chars_literalCells (kind : Kind) (c : Char) (body : List Char) :
    chars (literalCells kind c body) = c :: body := by
  simp [literalCells]

@[simp] theorem length_insideCells (kind : Kind) (text : List Char) :
    (insideCells kind text).length = text.length :=
  length_map _

@[simp] theorem codeCells_append (first second : List Char) :
    codeCells (first ++ second) = codeCells first ++ codeCells second :=
  map_append

@[simp] theorem codeCells_cons (c : Char) (text : List Char) :
    codeCells (c :: text) = ⟨c, .code⟩ :: codeCells text := rfl

@[simp] theorem codeCells_nil : codeCells [] = [] := rfl

theorem role_of_mem_codeCells {text : List Char} {cell : Cell} (h : cell ∈ codeCells text) :
    cell.role = .code := by
  obtain ⟨c, -, rfl⟩ := mem_map.mp h
  rfl

variable {cells first second rest : List Cell} {cell : Cell} {mark : Recognizer Kind}

/-- Cells are cut where their text is. -/
theorem chars_eq_append {first second : List Char} (h : chars cells = first ++ second) :
    ∃ left right, cells = left ++ right ∧ chars left = first ∧ chars right = second := by
  obtain ⟨left, right, hcells, hleft, hright⟩ := map_eq_append_iff.mp h
  exact ⟨left, right, hcells, hleft, hright⟩

/-- Cells of code are known by their text. -/
theorem codeCells_chars (h : ∀ cell ∈ cells, cell.role = .code) :
    codeCells (chars cells) = cells := by
  induction cells with
  | nil => rfl
  | cons cell rest ih =>
    rw [chars_cons, codeCells_cons, ih fun other hother => h other (mem_cons_of_mem _ hother)]
    have hrole := h cell mem_cons_self
    cases cell
    cases hrole
    rfl

/-- What a recogniser finds is not empty and lies in the text. -/
def Recognizer.IsProper {α : Type} (find : Recognizer α) : Prop :=
  ∀ advance cursor n value, find advance cursor = some (n, value) →
    0 < n ∧ n ≤ cursor.after.length

/-- The roles of the cells are those that `find` gives them behind `before`. -/
inductive Marked (find : Recognizer Kind) : List Char → List Cell → Prop
  | nil {before : List Char} : Marked find before []
  | code {before : List Char} {c : Char} {rest : List Cell} :
      find false ⟨before.length, before, c :: chars rest⟩ = none →
      Marked find (c :: before) rest → Marked find before (⟨c, .code⟩ :: rest)
  | literal {before body : List Char} {c : Char} {kind : Kind} {rest : List Cell} :
      find false ⟨before.length, before, c :: (body ++ chars rest)⟩ =
        some (body.length + 1, kind) →
      Marked find (body.reverse ++ c :: before) rest →
      Marked find before (literalCells kind c body ++ rest)

/-- Every text can be marked. -/
theorem exists_marked (proper : find.IsProper) (text : List Char) :
    ∀ before, ∃ cells, chars cells = text ∧ Marked find before cells := by
  induction hn : text.length using Nat.strongRecOn generalizing text with
  | ind n ih =>
    intro before
    cases text with
    | nil => exact ⟨[], rfl, .nil⟩
    | cons c rest =>
      rw [length_cons] at hn
      cases hfind : find false ⟨before.length, before, c :: rest⟩ with
      | none =>
        obtain ⟨cells, hcells, hmarked⟩ := ih rest.length (by omega) rest rfl (c :: before)
        refine ⟨⟨c, .code⟩ :: cells, by rw [chars_cons, hcells], .code ?_ hmarked⟩
        rw [hcells]
        exact hfind
      | some found =>
        obtain ⟨length, kind⟩ := found
        obtain ⟨hpos, hle⟩ := proper _ _ _ _ hfind
        rw [length_cons] at hle
        -- The literal takes `c` and the first `length - 1` code points behind it.
        have hlength : (rest.take (length - 1)).length + 1 = length := by
          rw [length_take]
          omega
        obtain ⟨cells, hcells, hmarked⟩ := ih (rest.drop (length - 1)).length
          (by rw [length_drop]; omega) _ rfl ((rest.take (length - 1)).reverse ++ c :: before)
        have hsplit : rest.take (length - 1) ++ chars cells = rest := by
          rw [hcells, take_append_drop]
        refine ⟨literalCells kind c (rest.take (length - 1)) ++ cells, ?_, .literal ?_ hmarked⟩
        · rw [chars_append, chars_literalCells, cons_append, hsplit]
        · rw [hsplit, hlength]
          exact hfind

/-- No text that is marked starts inside a literal. -/
theorem Marked.head_not_inside (h : Marked find before (cell :: rest)) : cell.isInside = false := by
  generalize hcells : cell :: rest = cells at h
  cases h with
  | nil => cases hcells
  | code _ _ | literal _ _ => cases hcells; rfl

/-! ## Spans of literals -/

/-- The spans of the literals of cells that stand from `pos` on. -/
def spansFrom (pos : Nat) : List Cell → List Span
  | [] => []
  | ⟨_, .opening kind⟩ :: rest =>
      ⟨pos, pos + 1 + (rest.takeWhile Cell.isInside).length, kind⟩ :: spansFrom (pos + 1) rest
  | ⟨_, .code⟩ :: rest | ⟨_, .inside _⟩ :: rest => spansFrom (pos + 1) rest

/-- The literals of cells, each with its kind and text. -/
def literals : List Cell → List (Kind × List Char)
  | [] => []
  | ⟨c, .opening kind⟩ :: rest =>
      (kind, c :: chars (rest.takeWhile Cell.isInside)) :: literals rest
  | ⟨_, .code⟩ :: rest | ⟨_, .inside _⟩ :: rest => literals rest

theorem spansFrom_insideCells (kind : Kind) (text : List Char) (pos : Nat) (rest : List Cell) :
    spansFrom pos (insideCells kind text ++ rest) = spansFrom (pos + text.length) rest := by
  induction text generalizing pos with
  | nil => rfl
  | cons c text ih =>
    simp only [insideCells, map_cons, cons_append, spansFrom] at ih ⊢
    rw [ih, length_cons, Nat.add_right_comm, Nat.add_assoc]

theorem literals_insideCells (kind : Kind) (text : List Char) (rest : List Cell) :
    literals (insideCells kind text ++ rest) = literals rest := by
  induction text with
  | nil => rfl
  | cons c text ih => exact ih

/-- A run that does not go on in `second` ends in `first`. -/
theorem takeWhile_append_of_head {p : α → Bool} {first second : List α}
    (h : ∀ x ∈ second.head?, p x = false) :
    (first ++ second).takeWhile p = first.takeWhile p := by
  induction first with
  | nil =>
    cases second with
    | nil => rfl
    | cons x second => simp [h x rfl]
  | cons x first ih =>
    by_cases hx : p x = true
    · simp [hx, ih]
    · simp [hx]

theorem takeWhile_insideCells (kind : Kind) (text : List Char)
    (h : ∀ cell ∈ rest.head?, cell.isInside = false) :
    (insideCells kind text ++ rest).takeWhile Cell.isInside = insideCells kind text := by
  rw [takeWhile_append_of_head h, takeWhile_eq_self_iff]
  intro cell hcell
  obtain ⟨c, -, rfl⟩ := mem_map.mp hcell
  rfl

/-- The literals of two texts put together, if no literal goes on from the first to the second. -/
theorem literals_append (h : ∀ cell ∈ second.head?, cell.isInside = false) :
    literals (first ++ second) = literals first ++ literals second := by
  induction first with
  | nil => rfl
  | cons cell first ih =>
    obtain ⟨c, role⟩ := cell
    cases role with
    | code | inside kind => exact ih
    | opening kind =>
      simp only [cons_append, literals, takeWhile_append_of_head h, ih]

/-- The spans of two texts put together, if no literal goes on from the first to the second. -/
theorem spansFrom_append (h : ∀ cell ∈ second.head?, cell.isInside = false) :
    ∀ pos, spansFrom pos (first ++ second) =
      spansFrom pos first ++ spansFrom (pos + first.length) second := by
  induction first with
  | nil => exact fun _ => rfl
  | cons cell first ih =>
    intro pos
    obtain ⟨c, role⟩ := cell
    have htail := ih (pos + 1)
    rw [Nat.add_assoc, Nat.add_comm 1] at htail
    cases role with
    | code | inside kind => exact htail
    | opening kind =>
      simp only [cons_append, spansFrom, takeWhile_append_of_head h, htail, length_cons]

theorem spansFrom_codeCells (text : List Char) : ∀ pos, spansFrom pos (codeCells text) = [] := by
  induction text with
  | nil => exact fun _ => rfl
  | cons c text ih => exact fun pos => ih (pos + 1)

theorem literals_codeCells (text : List Char) : literals (codeCells text) = [] := by
  induction text with
  | nil => rfl
  | cons c text ih => exact ih

theorem spansFrom_literalCells (h : ∀ cell ∈ rest.head?, cell.isInside = false) :
    spansFrom pos (literalCells kind c body ++ rest) =
      ⟨pos, pos + body.length + 1, kind⟩ :: spansFrom (pos + body.length + 1) rest := by
  simp only [literalCells, cons_append, spansFrom, takeWhile_insideCells kind body h,
    spansFrom_insideCells, length_insideCells, Nat.add_right_comm pos 1]

theorem literals_literalCells (h : ∀ cell ∈ rest.head?, cell.isInside = false) :
    literals (literalCells kind c body ++ rest) = (kind, c :: body) :: literals rest := by
  simp only [literalCells, cons_append, literals, takeWhile_insideCells kind body h,
    literals_insideCells, chars_insideCells]

theorem Marked.head?_not_inside (h : Marked find before cells) :
    ∀ cell ∈ cells.head?, cell.isInside = false := by
  cases cells with
  | nil => simp
  | cons cell rest =>
    intro other hother
    cases hother
    exact h.head_not_inside

/-- Behind an occurrence, the search goes on as if it started there. -/
theorem occurrencesFrom_skip (find : Recognizer α) (skip : Nat) :
    ∀ pos before text, skip ≤ text.length →
      occurrencesFrom find pos skip before text =
        occurrencesFrom find (pos + skip) 0 ((text.take skip).reverse ++ before)
          (text.drop skip) := by
  induction skip with
  | zero =>
    intro pos before text _
    rfl
  | succ skip ih =>
    intro pos before text hle
    cases text with
    | nil => simp at hle
    | cons c rest =>
      rw [length_cons, Nat.add_le_add_iff_right] at hle
      rw [occurrencesFrom, ih _ _ _ hle]
      simp [Nat.add_assoc, Nat.add_comm 1 skip]

theorem occurrencesFrom_nil {find : Recognizer α} (proper : find.IsProper) (pos : Nat)
    (before : List Char) : occurrencesFrom find pos 0 before [] = [] := by
  rw [occurrencesFrom]
  split
  next found hfound =>
    obtain ⟨hpos, hle⟩ := proper _ _ found.1 found.2 hfound
    simp at hle
    omega
  next => rfl

/-- Where nothing is found, the search goes on at the next code point. -/
theorem occurrencesFrom_miss {find : Recognizer α} {rest : List Char}
    (h : find false ⟨pos, before, c :: rest⟩ = none) :
    occurrencesFrom find pos 0 before (c :: rest) =
      occurrencesFrom find (pos + 1) 0 (c :: before) rest := by
  rw [occurrencesFrom, h]

/-- Behind what is found, the search goes on. -/
theorem occurrencesFrom_found {find : Recognizer α} {block rest : List Char} {value : α}
    (hblock : block ≠ []) (h : find false ⟨pos, before, block ++ rest⟩ =
      some (block.length, value)) :
    occurrencesFrom find pos 0 before (block ++ rest) =
      ⟨pos, pos + block.length, value⟩ ::
        occurrencesFrom find (pos + block.length) 0 (block.reverse ++ before) rest := by
  cases block with
  | nil => exact absurd rfl hblock
  | cons c block =>
    simp only [cons_append, length_cons] at h ⊢
    rw [occurrencesFrom, h]
    simp only
    rw [occurrencesFrom_skip find block.length _ _ _ (by simp)]
    simp [Nat.add_assoc, Nat.add_comm 1 block.length]

/-- The occurrences of the recogniser are the literals of the cells. -/
theorem Marked.occurrences_eq (proper : find.IsProper) (h : Marked find before cells) :
    (occurrencesFrom find before.length 0 before (chars cells)).map Span.ofOccurrence =
      spansFrom before.length cells := by
  induction h with
  | nil =>
    rw [chars_nil, occurrencesFrom_nil proper]
    rfl
  | code hfind _ ih =>
    rw [chars_cons, occurrencesFrom_miss hfind]
    exact ih
  | @literal before body c kind rest hfind hrest ih =>
    rw [spansFrom_literalCells hrest.head?_not_inside, chars_append, chars_literalCells]
    rw [occurrencesFrom_found (cons_ne_nil c body) hfind, map_cons]
    simp only [length_append, length_reverse, length_cons] at ih
    rw [show body.length + (before.length + 1) = before.length + body.length + 1 by omega] at ih
    rw [length_cons, reverse_cons, append_assoc, singleton_append]
    exact congrArg _ ih

/-- Spans start behind the cells inside a literal that started before. -/
theorem start_of_mem_spansFrom :
    ∀ pos, span ∈ spansFrom pos cells →
      pos + (cells.takeWhile Cell.isInside).length ≤ span.start := by
  induction cells with
  | nil => simp [spansFrom]
  | cons cell rest ih =>
    intro pos hmem
    obtain ⟨c, role⟩ := cell
    cases role with
    | code =>
      have := ih _ hmem
      rw [takeWhile_cons_of_neg (by simp [Cell.isInside])]
      simp only [length_nil]
      omega
    | inside kind =>
      have := ih _ hmem
      rw [takeWhile_cons_of_pos rfl, length_cons]
      omega
    | opening kind =>
      rw [takeWhile_cons_of_neg (by simp [Cell.isInside])]
      rcases mem_cons.mp hmem with rfl | hmem
      · exact Nat.le_refl _
      · have := ih _ hmem
        simp only [length_nil]
        omega

theorem start_lt_of_mem_spansFrom :
    ∀ pos, span ∈ spansFrom pos cells → span.start < pos + cells.length := by
  induction cells with
  | nil => simp [spansFrom]
  | cons cell rest ih =>
    intro pos hmem
    obtain ⟨c, role⟩ := cell
    rw [length_cons]
    cases role with
    | code =>
      have := ih _ hmem
      omega
    | inside kind =>
      have := ih _ hmem
      omega
    | opening kind =>
      rcases mem_cons.mp hmem with rfl | hmem
      · simp only
        omega
      · have := ih _ hmem
        omega

/-- The spans of the literals are in order and apart. -/
theorem spansFrom_ordered (cells : List Cell) : ∀ pos, Ordered (spansFrom pos cells) := by
  induction cells with
  | nil => exact fun pos => ⟨by simp [spansFrom], .nil⟩
  | cons cell rest ih =>
    intro pos
    obtain ⟨c, role⟩ := cell
    cases role with
    | code | inside kind => exact ih (pos + 1)
    | opening kind =>
      refine ⟨?_, pairwise_cons.mpr ⟨?_, (ih (pos + 1)).apart⟩⟩
      · intro span hspan
        rcases mem_cons.mp hspan with rfl | hspan
        · simp only
          omega
        · exact (ih (pos + 1)).nonempty span hspan
      · intro span hspan
        exact start_of_mem_spansFrom _ hspan

theorem role_of_mem_literalCells (h : cell ∈ literalCells kind c body) :
    cell.role ≠ .code := by
  simp only [literalCells, insideCells, mem_cons, mem_map] at h
  obtain rfl | ⟨d, _, rfl⟩ := h <;> simp

@[simp] theorem length_literalCells (kind : Kind) (c : Char) (body : List Char) :
    (literalCells kind c body).length = body.length + 1 := by
  simp [literalCells]

/-- A span holds a position exactly if the cell there is not code. -/
theorem Marked.covered_iff (h : Marked find before cells) :
    ∀ i, (∃ span ∈ spansFrom before.length cells,
        span.start ≤ before.length + i ∧ before.length + i < span.stop) ↔
      ∃ cell, cells[i]? = some cell ∧ cell.role ≠ .code := by
  induction h with
  | nil => simp [spansFrom]
  | @code before c rest hfind hrest ih =>
    intro i
    cases i with
    | zero =>
      constructor
      · rintro ⟨span, hmem, hstart, _⟩
        have := start_of_mem_spansFrom (before.length + 1) hmem
        omega
      · rintro ⟨cell, hcell, hrole⟩
        cases hcell
        exact absurd rfl hrole
    | succ i =>
      rw [getElem?_cons_succ, ← ih i]
      simp only [spansFrom, length_cons, Nat.add_right_comm _ 1 i, Nat.add_assoc]
  | @literal before body c kind rest hfind hrest ih =>
    intro i
    rw [spansFrom_literalCells hrest.head?_not_inside]
    simp only [length_append, length_reverse, length_cons] at ih
    rw [show body.length + (before.length + 1) = before.length + body.length + 1 by omega] at ih
    by_cases hi : i < body.length + 1
    · have hlen : i < (literalCells kind c body).length := by simpa using hi
      rw [getElem?_append_left hlen, getElem?_eq_getElem hlen]
      refine iff_of_true ⟨_, mem_cons_self, ?_, ?_⟩
        ⟨_, rfl, role_of_mem_literalCells (getElem_mem hlen)⟩
      · simp
      · simp only
        omega
    · obtain ⟨j, rfl⟩ := Nat.exists_eq_add_of_le (Nat.le_of_not_lt hi)
      rw [getElem?_append_right (by simp), length_literalCells, Nat.add_sub_cancel_left,
        ← ih j]
      simp only [mem_cons, exists_eq_or_imp]
      rw [show before.length + (body.length + 1 + j) = before.length + body.length + 1 + j by omega]
      constructor
      · rintro (⟨_, hlt⟩ | hspan)
        · omega
        · exact hspan
      · exact .inr

/-- A span holds the place of a cell exactly if the cell is not code. -/
theorem Marked.covered_iff_role (h : Marked find [] cells) (hcell : cells[pos]? = some cell) :
    (∃ span ∈ spansFrom 0 cells, span.start ≤ pos ∧ pos < span.stop) ↔ cell.role ≠ .code := by
  have hcovered := h.covered_iff pos
  simpa only [length_nil, Nat.zero_add, hcell, Option.some.injEq,
    exists_eq_left'] using hcovered

theorem Marked.isProtected_eq_false_iff (h : Marked find [] cells)
    (hcell : cells[pos]? = some cell) :
    isProtected (spansFrom 0 cells).toArray pos = false ↔ cell.role = .code := by
  rw [Bool.eq_false_iff, ne_eq, isProtected_iff (spansFrom_ordered cells 0), ← not_iff_not, not_not,
    ← ne_eq cell.role, ← h.covered_iff_role hcell]
  refine exists_congr fun span => and_congr_right fun _ => ?_
  omega

/-- A literal opens where its span starts. -/
theorem opening_of_mem_spansFrom :
    ∀ pos, span ∈ spansFrom pos cells →
      ∃ c, cells[span.start - pos]? = some ⟨c, .opening span.kind⟩ := by
  induction cells with
  | nil => simp [spansFrom]
  | cons cell rest ih =>
    intro pos hmem
    -- Behind the first cell, the place counts from the next one on.
    have hlater : span ∈ spansFrom (pos + 1) rest →
        ∃ c, (cell :: rest)[span.start - pos]? = some ⟨c, .opening span.kind⟩ := by
      intro hmem
      obtain ⟨c, hc⟩ := ih _ hmem
      have := start_of_mem_spansFrom _ hmem
      refine ⟨c, ?_⟩
      rwa [show span.start - pos = span.start - (pos + 1) + 1 by omega, getElem?_cons_succ]
    obtain ⟨c, role⟩ := cell
    cases role with
    | code | inside kind => exact hlater hmem
    | opening kind =>
      rcases mem_cons.mp hmem with rfl | hmem
      · exact ⟨c, by simp⟩
      · exact hlater hmem

/-- A span starts before every cell inside a literal, and ends behind it. -/
theorem Marked.exists_span_of_inside {left : List Cell} (h : Marked find [] (left ++ rest))
    (hcell : cell ∈ rest.head?) (hinside : cell.isInside = true) :
    ∃ span ∈ spansFrom 0 (left ++ rest), span.start < left.length ∧ left.length < span.stop := by
  have hat : (left ++ rest)[left.length]? = some cell := by
    rw [getElem?_append_right (Nat.le_refl _), Nat.sub_self, ← head?_eq_getElem?]
    exact hcell
  have hrole : cell.role ≠ .code := by
    intro hrole
    rw [Cell.isInside, hrole] at hinside
    cases hinside
  obtain ⟨span, hspan, hle, hlt⟩ := (h.covered_iff_role hat).mpr hrole
  refine ⟨span, hspan, Nat.lt_of_le_of_ne hle fun hstart => ?_, hlt⟩
  -- The literal would open here, so that it does not go on here.
  obtain ⟨c, hc⟩ := opening_of_mem_spansFrom 0 hspan
  rw [Nat.sub_zero, hstart, hat] at hc
  cases hc
  cases hinside

/-- A span starts where a literal opens. -/
theorem mem_spansFrom_of_opening {c : Char} {kind : Kind} {rest : List Cell} (left : List Cell) :
    ∀ pos, ∃ span ∈ spansFrom pos (left ++ ⟨c, .opening kind⟩ :: rest),
      span.start = pos + left.length ∧ span.kind = kind := by
  induction left with
  | nil => exact fun pos => ⟨_, mem_cons_self, rfl, rfl⟩
  | cons cell left ih =>
    intro pos
    obtain ⟨span, hspan, hstart, hkind⟩ := ih (pos + 1)
    have hstart' : span.start = pos + (cell :: left).length := by
      rw [hstart, length_cons]
      omega
    refine ⟨span, ?_, hstart', hkind⟩
    obtain ⟨d, role⟩ := cell
    cases role with
    | code | inside kind => exact hspan
    | opening kind => exact mem_cons_of_mem _ hspan

/-- The text at the spans of the literals is the text of the literals. -/
theorem literals_eq_map_spansFrom (cells : List Cell) :
    ∀ before : List Cell,
      (spansFrom before.length cells).map
          (fun span => (span.kind, span.text (chars (before ++ cells)))) =
        literals cells := by
  induction cells with
  | nil => exact fun _ => rfl
  | cons cell rest ih =>
    intro before
    have htail := ih (before ++ [cell])
    rw [length_append, append_assoc, singleton_append] at htail
    obtain ⟨c, role⟩ := cell
    cases role with
    | code | inside kind => exact htail
    | opening kind =>
      simp only [spansFrom, literals, map_cons]
      refine congrArg₂ _ (congrArg _ ?_) htail
      rw [Span.text, slice, chars_append, drop_left' (length_chars before), chars_cons]
      rw [show before.length + 1 + (rest.takeWhile Cell.isInside).length - before.length =
        (rest.takeWhile Cell.isInside).length + 1 by omega, take_succ_cons]
      have hsplit : chars rest = chars (rest.takeWhile Cell.isInside) ++
          chars (rest.dropWhile Cell.isInside) := by
        rw [← chars_append, takeWhile_append_dropWhile]
      rw [hsplit, take_left' (length_chars _)]

/-- A literal is not cut where no literal goes on. -/
theorem literalCells_append_eq (heq : literalCells kind c body ++ rest = first ++ second)
    (hhead : ∀ cell ∈ second.head?, cell.isInside = false) :
    first = [] ∨ ∃ middle, first = literalCells kind c body ++ middle ∧
      rest = middle ++ second := by
  rcases append_eq_append_iff.mp heq with ⟨middle, hfirst, hrest⟩ | ⟨middle, hlit, hsecond⟩
  · exact .inr ⟨middle, hfirst, hrest⟩
  · cases first with
    | nil => exact .inl rfl
    | cons cell first =>
      cases middle with
      | nil => exact .inr ⟨[], by rw [hlit, append_nil, append_nil], hsecond.symm⟩
      | cons other middle =>
        -- The cut is inside the literal, so that it would go on in `second`.
        have hmem : other ∈ insideCells kind body := by
          obtain ⟨-, htail⟩ := cons_eq_cons.mp hlit
          rw [htail]
          simp
        simp only [insideCells, mem_map] at hmem
        obtain ⟨d, -, rfl⟩ := hmem
        have := hhead ⟨d, .inside kind⟩ (by rw [hsecond]; rfl)
        cases this

/-- What follows marked cells is marked, if it does not start inside a literal. -/
theorem Marked.of_append {find : Recognizer Kind} {before : List Char} {cells : List Cell}
    (h : Marked find before cells) :
    ∀ {first second : List Cell}, cells = first ++ second →
      (∀ cell ∈ second.head?, cell.isInside = false) →
      Marked find ((chars first).reverse ++ before) second := by
  induction h with
  | nil =>
    intro first second heq _
    obtain ⟨rfl, rfl⟩ := append_eq_nil_iff.mp heq.symm
    exact .nil
  | @code before c rest hfind hrest ih =>
    intro first second heq hhead
    cases first with
    | nil =>
      rw [nil_append] at heq
      subst heq
      exact .code hfind hrest
    | cons cell first =>
      obtain ⟨rfl, hrest'⟩ := cons_eq_cons.mp heq
      have := ih hrest' hhead
      simpa using this
  | @literal before body c kind rest hfind hrest ih =>
    intro first second heq hhead
    rcases literalCells_append_eq heq hhead with rfl | ⟨middle, rfl, hrest'⟩
    · rw [nil_append] at heq
      subst heq
      exact .literal hfind hrest
    · have := ih hrest' hhead
      simpa using this

/-- At a cell of code nothing is found. -/
theorem Marked.code_inv (h : Marked find before (⟨c, .code⟩ :: rest)) :
    find false ⟨before.length, before, c :: chars rest⟩ = none ∧
    Marked find (c :: before) rest := by
  generalize hcells : (⟨c, .code⟩ :: rest : List Cell) = cells at h
  cases h with
  | nil => cases hcells
  | code hfind hrest =>
    cases hcells
    exact ⟨hfind, hrest⟩
  | literal _ _ => cases hcells

/-- A literal and what follows it are known from all of it. -/
theorem literalCells_append_inj {kind' : Kind} {c' : Char} {body' : List Char} {rest' : List Cell}
    (h : literalCells kind c body ++ rest = literalCells kind' c' body' ++ rest')
    (hrest : ∀ cell ∈ rest.head?, cell.isInside = false)
    (hrest' : ∀ cell ∈ rest'.head?, cell.isInside = false) :
    kind = kind' ∧ c = c' ∧ body = body' ∧ rest = rest' := by
  rw [literalCells, literalCells, cons_append, cons_append, cons_eq_cons] at h
  obtain ⟨hopening, htail⟩ := h
  cases hopening
  have hinside := congrArg (List.takeWhile Cell.isInside) htail
  rw [takeWhile_insideCells _ _ hrest, takeWhile_insideCells _ _ hrest'] at hinside
  have hbody := congrArg chars hinside
  rw [chars_insideCells, chars_insideCells] at hbody
  subst hbody
  exact ⟨rfl, rfl, rfl, append_cancel_left htail⟩

/-- At the start of a literal all of it is found. -/
theorem Marked.literal_inv (h : Marked find before (literalCells kind c body ++ rest))
    (hrest : ∀ cell ∈ rest.head?, cell.isInside = false) :
    find false ⟨before.length, before, c :: (body ++ chars rest)⟩ = some (body.length + 1, kind) ∧
      Marked find (body.reverse ++ c :: before) rest := by
  generalize hcells : literalCells kind c body ++ rest = cells at h
  cases h with
  | nil | code _ _ => cases hcells
  | @literal _ body' c' kind' rest' hfind hmarked =>
    obtain ⟨rfl, rfl, rfl, rfl⟩ :=
      literalCells_append_inj hcells hrest hmarked.head?_not_inside
    exact ⟨hfind, hmarked⟩

/-- Before a cell inside a literal stands a cell of that literal. -/
theorem Marked.getLast?_of_inside (h : Marked find before cells) :
    ∀ {first second : List Cell} {d : Char} {kind : Kind},
      cells = first ++ ⟨d, .inside kind⟩ :: second →
      ∃ c role, first.getLast? = some ⟨c, role⟩ ∧ (role = .opening kind ∨ role = .inside kind) := by
  induction h with
  | nil =>
    intro first second d kind heq
    cases (append_eq_nil_iff.mp heq.symm).2
  | @code before c tail _ _ ih =>
    intro first second d kind heq
    cases first with
    | nil => cases heq
    | cons cell first =>
      obtain ⟨e, role, hlast, hrole⟩ := ih (cons_eq_cons.mp heq).2
      exact ⟨e, role, by rw [getLast?_cons, hlast]; rfl, hrole⟩
  | @literal before body c kind' tail _ htail ih =>
    intro first second d kind heq
    rcases append_eq_append_iff.mp heq with ⟨middle, rfl, hrest⟩ | ⟨middle, hliteral, hrest⟩
    · obtain ⟨e, role, hlast, hrole⟩ := ih hrest
      exact ⟨e, role, by rw [getLast?_append, hlast]; rfl, hrole⟩
    cases middle with
    | nil =>
      rw [nil_append] at hrest
      rw [← hrest] at htail
      cases htail.head_not_inside
    | cons cell middle =>
      obtain ⟨rfl, -⟩ := cons_eq_cons.mp hrest
      have hroles : ∀ cell ∈ literalCells kind' c body,
          cell.role = .opening kind' ∨ cell.role = .inside kind' := by
        intro cell hcell
        rcases mem_cons.mp hcell with rfl | hcell
        · exact .inl rfl
        · obtain ⟨e, -, rfl⟩ := mem_map.mp hcell
          exact .inr rfl
      have hkind : kind = kind' := by
        have := hroles ⟨d, .inside kind⟩ (by rw [hliteral]; simp)
        simpa using this
      subst hkind
      cases first with
      | nil => cases hliteral
      | cons cell first =>
        have hlast := getLast?_eq_some_getLast (cons_ne_nil cell first)
        refine ⟨_, _, hlast, hroles _ ?_⟩
        rw [hliteral]
        exact mem_append_left _ (getLast_mem _)

/-- No literal goes on behind code. -/
theorem Marked.head?_of_codeCells {mark : Recognizer Kind} {before text : List Char}
    {rest : List Cell} (h : Marked mark before (codeCells text ++ rest)) :
    ∀ cell ∈ rest.head?, cell.isInside = false := by
  induction text generalizing before with
  | nil => exact h.head?_not_inside
  | cons c text ih => exact ih h.code_inv.2

/-- No literal goes on behind a cell of code. -/
theorem Marked.head?_of_getLast? {block right : List Cell} (h : Marked mark before (block ++ right))
    (hlast : block.getLast? = some ⟨c, .code⟩) :
    ∀ cell ∈ right.head?, cell.isInside = false := by
  obtain ⟨init, rfl⟩ := getLast?_eq_some_iff.mp hlast
  rw [append_assoc] at h
  have hrest := h.of_append rfl (by simp [Cell.isInside])
  exact @Marked.head?_of_codeCells _ _ [c] _ hrest

theorem Marked.opening_of_inside (h : Marked mark before cells) (hmem : cell ∈ cells)
    (hrole : cell.role = .inside kind) : ∃ other ∈ cells, other.role = .opening kind := by
  induction h with
  | nil => cases hmem
  | code _ _ ih =>
    rcases mem_cons.mp hmem with rfl | hmem
    · cases hrole
    · obtain ⟨other, hother, hopening⟩ := ih hmem
      exact ⟨other, mem_cons_of_mem _ hother, hopening⟩
  | @literal _ body c kind' rest _ _ ih =>
    rcases mem_append.mp hmem with hmem | hmem
    · refine ⟨⟨c, .opening kind⟩, ?_, rfl⟩
      rcases mem_cons.mp hmem with rfl | hmem
      · cases hrole
      · obtain ⟨d, -, rfl⟩ := mem_map.mp hmem
        cases hrole
        simp [literalCells]
    · obtain ⟨other, hother, hopening⟩ := ih hmem
      exact ⟨other, mem_append_right _ hother, hopening⟩

/-- A text can be marked in one way only. -/
theorem Marked.unique {cells' : List Cell} (h : Marked find before cells)
    (h' : Marked find before cells') (heq : chars cells = chars cells') : cells = cells' := by
  induction h generalizing cells' with
  | nil => exact (map_eq_nil_iff.mp heq.symm).symm
  | @code before c rest hfind _ ih =>
    cases h' with
    | nil => cases heq
    | @code _ d rest' _ hrest' =>
      obtain ⟨hchar, htail⟩ := cons_eq_cons.mp heq
      cases hchar
      rw [ih hrest' htail]
    | @literal _ body d kind rest' hfind' _ =>
      rw [chars_cons, chars_append, chars_literalCells, cons_append] at heq
      rw [heq, hfind'] at hfind
      cases hfind
  | @literal before body c kind rest hfind _ ih =>
    rw [chars_append, chars_literalCells, cons_append] at heq
    cases h' with
    | nil => cases heq
    | @code _ d rest' hfind' _ =>
      rw [chars_cons] at heq
      rw [heq, hfind'] at hfind
      cases hfind
    | @literal _ body' d kind' rest' hfind' hrest' =>
      rw [chars_append, chars_literalCells, cons_append] at heq
      rw [heq, hfind', Option.some.injEq, Prod.mk.injEq, Nat.add_right_cancel_iff] at hfind
      obtain ⟨rfl, htail⟩ := cons_eq_cons.mp heq
      obtain ⟨rfl, hrest⟩ := append_inj htail hfind.1.symm
      rw [ih hrest' hrest, hfind.2]

end StructuredText
