import StructuredText.Proofs.Respacing
import StructuredText.Proofs.Rewriting

/-!
# Rules as moves

`Patched hit cells out` says that `out` is `cells` with some blocks of code replaced, each as `hit`
allows. A rule is known by what it reads and writes (`Rule.Spec`); if each of its replacements is a
sequence of moves in every context, then so is its application to a text.

Results:
1. `Rule.apply_patched`, `Rule.applyTyped_patched_untype`: rules patch the code of a text.
2. `Patched.respacing`: patches made of moves are moves.
-/

namespace StructuredText

open Literal

variable {α : Type} {cells out : List Cell} {cell : Cell}
  {hit : List Char → List Char → List Char → Prop} {find : Recognizer α} {write : α → List Char}

/-- Some blocks of code are replaced. `hit` relates a block, the text behind it and what is written
in its place. -/
inductive Patched (hit : List Char → List Char → List Char → Prop) : List Cell → List Cell → Prop
  | nil : Patched hit [] []
  | keep (cell : Cell) {rest out : List Cell} :
      Patched hit rest out → Patched hit (cell :: rest) (cell :: out)
  | change {block written : List Char} {rest out : List Cell} :
      block ≠ [] → (∀ cell ∈ rest.head?, cell.isInside = false) → hit block (chars rest) written →
      Patched hit rest out → Patched hit (codeCells block ++ rest) (codeCells written ++ out)

theorem Patched.imp {hit hit' : List Char → List Char → List Char → Prop}
    (himp : ∀ block rest written, hit block rest written → hit' block rest written)
    {cells out : List Cell} (h : Patched hit cells out) : Patched hit' cells out := by
  induction h with
  | nil => exact .nil
  | keep cell _ ih => exact .keep cell ih
  | change hne hhead hhit _ ih => exact .change hne hhead (himp _ _ _ hhit) ih

theorem Patched.append (hit : List Char → List Char → List Char → Prop) (first : List Cell)
    {rest out : List Cell} (h : Patched hit rest out) :
    Patched hit (first ++ rest) (first ++ out) := by
  induction first with
  | nil => exact h
  | cons cell first ih => exact .keep cell ih

theorem Cell.isInside_untype (h : cell.isInside = false) : cell.untype.isInside = false := by
  obtain ⟨c, role⟩ := cell
  cases role with
  | code => rfl
  | opening kind => cases kind <;> rfl
  | inside kind => cases h

theorem Patched.untype (h : Patched hit cells out) : Patched hit (untype cells) (untype out) := by
  induction h with
  | nil => exact .nil
  | keep cell _ ih => exact .keep cell.untype ih
  | @change block written rest out hne hhead hhit _ ih =>
    rw [untype_append, untype_append, untype_codeCells, untype_codeCells]
    refine .change hne ?_ (by rwa [chars_untype]) ih
    intro cell hcell
    rw [StructuredText.untype, List.head?_map, Option.mem_def, Option.map_eq_some_iff] at hcell
    obtain ⟨other, hother, rfl⟩ := hcell
    exact Cell.isInside_untype (hhead other hother)

section

variable {hit : List Char → List Char → List Char → Prop} {cells out : List Cell}

theorem Patched.eq_nil (h : Patched hit [] out) : out = [] := by
  generalize hcells : ([] : List Cell) = cells at h
  cases h with
  | nil => rfl
  | keep _ _ => cases hcells
  | change hne _ _ _ =>
    exact absurd (List.map_eq_nil_iff.mp (List.append_eq_nil_iff.mp hcells.symm).1) hne

/-- A cell is an old one or has been written. -/
theorem Patched.mem_or_written (h : Patched hit cells out) (hcell : cell ∈ out) :
    cell ∈ cells ∨ ∃ block rest written, hit block rest written ∧ cell ∈ codeCells written := by
  induction h with
  | nil => cases hcell
  | keep other _ ih =>
    rcases List.mem_cons.mp hcell with rfl | hcell
    · exact .inl List.mem_cons_self
    · exact (ih hcell).imp_left (List.mem_cons_of_mem _)
  | change _ _ hhit _ ih =>
    rcases List.mem_append.mp hcell with hcell | hcell
    · exact .inr ⟨_, _, _, hhit, hcell⟩
    · exact (ih hcell).imp_left (List.mem_append_right _)

section

variable {p : Char → Bool}
  (hblock : ∀ block rest written, hit block rest written → ∀ c ∈ block, p c = false)
  (h : Patched hit cells out)
include hblock h

/-- The first cell stays if it can be in no block. -/
theorem Patched.head?_eq (hcell : cells.head? = some cell) (hp : p cell.char = true) :
    out.head? = some cell := by
  cases h with
  | nil => cases hcell
  | keep other _ => exact hcell
  | @change block written rest _ hne _ hhit _ =>
    cases block with
    | nil => exact absurd rfl hne
    | cons c block =>
      cases hcell
      rw [hblock _ _ _ hhit c List.mem_cons_self] at hp
      cases hp

/-- The last cell stays if it can be in no block. -/
theorem Patched.getLast?_eq (hcell : cells.getLast? = some cell) (hp : p cell.char = true) :
    out.getLast? = some cell := by
  induction h with
  | nil => cases hcell
  | @keep other rest out hrest ih =>
    cases rest with
    | nil =>
      rw [hrest.eq_nil]
      exact hcell
    | cons next rest =>
      rw [List.getLast?_cons_cons] at hcell
      rw [List.getLast?_cons, ih hcell]
      rfl
  | @change block written rest out hne _ hhit hrest ih =>
    cases rest with
    | nil =>
      rw [List.append_nil] at hcell
      obtain ⟨c, hc, rfl⟩ := List.mem_map.mp (List.mem_of_getLast? hcell)
      rw [hblock _ _ _ hhit c hc] at hp
      cases hp
    | cons next rest =>
      rw [List.getLast?_append_cons] at hcell
      rw [List.getLast?_append, ih hcell]
      rfl

end

end

/-- A walk replaces blocks of code. -/
theorem Rewrites.patched (hhit : ∀ before block rest value,
      find false ⟨before.length, before, block ++ rest⟩ = some (block.length, value) →
      hit block rest (write value))
    {before : List Char} (h : Rewrites find write before cells out) {mark : Recognizer Kind} :
    ∀ first, Marked mark [] (first ++ cells) → Patched hit cells out := by
  induction h with
  | nil => exact fun _ _ => .nil
  | @miss before cell rest out _ _ ih =>
    intro first hmarked
    refine .keep cell (ih (first ++ [cell]) ?_)
    rwa [List.append_assoc]
  | @blocked before block rest out value _ _ _ ih =>
    intro first hmarked
    refine .append hit block (ih (first ++ block) ?_)
    rwa [List.append_assoc]
  | @hit before block rest out value hfind hne hcode _ ih =>
    intro first hmarked
    rw [← codeCells_chars hcode]
    refine .change (by simpa [chars] using hne) ?_
      (hhit before _ _ value (by rwa [length_chars])) (ih (first ++ block) ?_)
    · rw [← codeCells_chars hcode] at hmarked hne
      refine (hmarked.of_append rfl ?_).head?_of_codeCells
      cases hchars : chars block with
      | nil => exact absurd (by rw [hchars]; rfl) hne
      | cons c text =>
        rintro cell ⟨⟩
        rfl
    · rwa [List.append_assoc]

section

variable (proper : find.IsProper)
  (hhit : ∀ before block rest value,
    find false ⟨before.length, before, block ++ rest⟩ = some (block.length, value) →
    hit block rest (write value))
include proper hhit

/-- A replacement outside the literals of a marking patches code. -/
theorem replaceOutside_patched {mark : Recognizer Kind} (h : Marked mark [] cells) :
    ∃ out, replaceOutside find (spansFrom 0 cells) write (chars cells) = chars out ∧
      Patched hit cells out := by
  obtain ⟨out, hwalk, hout⟩ := replaceOutside_rewrites proper h write
  exact ⟨out, hout, hwalk.patched hhit [] h⟩

/-- So does one that leaves typed literals alone, too. -/
theorem replaceOutside_patched_untype (h : Marked recognize [] cells) :
    ∃ out, replaceOutside find (scanTyped (chars cells)) write (chars cells) = chars out ∧
      Patched hit cells out := by
  obtain ⟨typed, htyped, hmarked⟩ := exists_marked recognizeTyped_isProper (chars cells) []
  obtain ⟨out, hout, hpatched⟩ := replaceOutside_patched proper hhit hmarked
  have hcells : untype typed = cells := hmarked.untype.unique h (by rw [chars_untype, htyped])
  rw [← hmarked.scanTyped_eq, htyped] at hout
  refine ⟨untype out, by rw [chars_untype, hout], ?_⟩
  rw [← hcells]
  exact hpatched.untype

end

/-! ## Rules -/

/-- What a rule reads and writes: `hit` relates the block that is read, which is not empty, the text
behind it and what is written. -/
def Rule.Spec (rule : Rule) (hit : List Char → List Char → List Char → Prop) : Prop :=
  ∀ cursor stop written, rule cursor = some (stop, written) →
    ∃ block, cursor.Reads stop block ∧ block ≠ [] ∧ hit block stop.after written

variable {rule : Rule} {hit : List Char → List Char → List Char → Prop}

theorem ofReader_eq_some {read : Cursor → Option (Cursor × α)} {advance : Bool} {cursor : Cursor}
    {n : Nat} {value : α} :
    Recognizer.ofReader read advance cursor = some (n, value) ↔
      ∃ stop, read cursor = some (stop, value) ∧ n = stop.pos - cursor.pos := by
  rw [Recognizer.ofReader, Option.map_eq_some_iff]
  constructor
  · rintro ⟨⟨stop, written⟩, hread, heq⟩
    cases heq
    exact ⟨stop, hread, rfl⟩
  · rintro ⟨stop, hread, rfl⟩
    exact ⟨(stop, value), hread, rfl⟩

theorem Rule.Spec.isProper (spec : rule.Spec hit) : (Recognizer.ofReader rule).IsProper := by
  intro advance cursor n written h
  obtain ⟨stop, hread, rfl⟩ := ofReader_eq_some.mp h
  obtain ⟨block, hreads, hne, -⟩ := spec _ _ _ hread
  have := List.length_pos_iff.mpr hne
  rw [hreads.pos, hreads.after, List.length_append]
  omega

theorem Rule.Spec.holds (spec : rule.Spec hit) {before block rest written : List Char}
    (h : Recognizer.ofReader rule false ⟨before.length, before, block ++ rest⟩ =
      some (block.length, written)) : hit block rest written := by
  obtain ⟨stop, hread, hlength⟩ := ofReader_eq_some.mp h
  obtain ⟨text, hreads, -, hhit⟩ := spec _ _ _ hread
  obtain ⟨rfl, hrest⟩ := hreads.eq_of_append rfl hlength.symm
  rwa [hrest] at hhit

theorem Rule.apply_patched (spec : rule.Spec hit) (h : Marked recognize [] cells) :
    ∃ out, rule.apply (chars cells) = chars out ∧ Patched hit cells out := by
  rw [Rule.apply, h.scan_eq]
  exact replaceOutside_patched spec.isProper (fun _ _ _ _ => spec.holds) h

theorem Rule.applyTyped_patched_untype (spec : rule.Spec hit) (h : Marked recognize [] cells) :
    ∃ out, rule.applyTyped (chars cells) = chars out ∧ Patched hit cells out :=
  replaceOutside_patched_untype spec.isProper (fun _ _ _ _ => spec.holds) h

/-! ## Patches made of moves -/

/-- Each replacement is a sequence of moves, behind every text with the property `known` and with
`tail` behind the patched text. -/
def Respaces (licence : Licence) (known : List Cell → Prop) (tail : List Cell)
    (hit : List Char → List Char → List Char → Prop) : Prop :=
  ∀ block rest written, block ≠ [] → hit block rest written →
    ∀ left right : List Cell, known left →
    chars right = rest ++ chars tail → (∀ cell ∈ right.head?, cell.isInside = false) →
    Respacing licence (left ++ codeCells block ++ right) (left ++ codeCells written ++ right)

/-- Patches made of moves are moves. -/
theorem Patched.respacing {licence : Licence} {known : List Cell → Prop} {tail : List Cell}
    (hmoves : Respaces licence known tail hit)
    (hwrite : ∀ block rest written left, hit block rest written → known left →
      known (left ++ codeCells written))
    (htail : ∀ cell ∈ tail.head?, cell.isInside = false) (h : Patched hit cells out) :
    ∀ left, (∀ cell ∈ cells, ∀ first, known first → known (first ++ [cell])) → known left →
      Respacing licence (left ++ (cells ++ tail)) (left ++ (out ++ tail)) := by
  induction h with
  | nil => exact fun _ _ _ => .refl
  | @keep cell rest out _ ih =>
    intro left hkeep hknown
    have := ih (left ++ [cell]) (fun other hother => hkeep other (List.mem_cons_of_mem _ hother))
      (hkeep cell List.mem_cons_self left hknown)
    simpa using this
  | @change block written rest out hne hhead hhit _ ih =>
    intro left hkeep hknown
    have hmove := hmoves block _ written hne hhit left (rest ++ tail) hknown (chars_append _ _) (by
      cases rest with
      | nil => exact htail
      | cons cell rest => exact hhead)
    have hrest := ih (left ++ codeCells written)
      (fun cell hcell => hkeep cell (List.mem_append_right _ hcell))
      (hwrite _ _ _ _ hhit hknown)
    simp only [List.append_assoc] at hmove hrest ⊢
    exact hmove.trans hrest

/-- Patches of a whole text that are moves in every context. -/
theorem Patched.respacing_all {licence : Licence} (hmoves : Respaces licence (fun _ => True) [] hit)
    (h : Patched hit cells out) : Respacing licence cells out := by
  have := h.respacing hmoves (fun _ _ _ _ _ _ => trivial) (by simp) [] (fun _ _ _ _ => trivial)
    trivial
  simpa using this

end StructuredText
