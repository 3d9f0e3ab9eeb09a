import StructuredText.Proofs.OpenLiterals
import StructuredText.Proofs.Tokens

/-!
# Formatting a formatted text

A comment that has been padded is not padded again. Yet a text that is formatted twice may come out
otherwise than one that is formatted once: rules that look at letter case run before rules that move
what they look at.

Results:
1. `Spacing.padEntry_padEntry`: a padded comment is not padded again.
2. `Format.canonical_twice_recased`: a second run may change letter case.
-/

namespace StructuredText

open Literal

/-! ## Comments that are padded -/

namespace Spacing

theorem padInside_eq_self {closed : Bool} {inside : List Char}
    (hhead : inside.head?.any isBlank = true)
    (hlast : closed = true → inside.getLast?.any isBlank = true) :
    padInside closed inside = inside := by
  rw [padInside, if_pos hhead]
  refine if_neg fun hopen => ?_
  rw [Bool.and_eq_true] at hopen
  rw [hlast hopen.1] at hopen
  exact Bool.false_ne_true hopen.2

/-- The inside of a padded comment starts with a blank, and ends with one if the comment is
closed. -/
theorem isBlank_padInside (closed : Bool) (inside : List Char) :
    (padInside closed inside).head?.any isBlank = true ∧
      (closed = true → (padInside closed inside).getLast?.any isBlank = true) := by
  rw [padInside]
  generalize hled : (if inside.head?.any isBlank then inside else ' ' :: inside) = led
  have hhead : led.head?.any isBlank = true := by
    rw [← hled]
    split
    next h => exact h
    · rfl
  split
  next hopen =>
    refine ⟨?_, fun _ => ?_⟩
    · cases led with
      | nil => rfl
      | cons c led => exact hhead
    · rw [List.getLast?_concat]
      rfl
  next hopen =>
    refine ⟨hhead, fun hclosed => ?_⟩
    simpa [hclosed] using hopen

theorem padCore_padCore (core ending : List Char) :
    padCore (padCore core ending) ending = padCore core ending := by
  cases core with
  | nil => cases ending <;> rfl
  | cons c core =>
    obtain ⟨hhead, hlast⟩ := isBlank_padInside (!ending.isEmpty) (c :: core)
    have hcore : padCore (c :: core) ending = padInside (!ending.isEmpty) (c :: core) := rfl
    rw [hcore, padCore]
    generalize padInside (!ending.isEmpty) (c :: core) = padded at hhead hlast
    cases padded with
    | nil => cases hhead
    | cons d padded => exact padInside_eq_self hhead hlast

theorem padComment_padComment {kind : Kind} {c d : Char} {core ending : List Char}
    (hending : (if closes kind (c :: d :: (core ++ ending)) then closer kind else []) = ending)
    (hcloses : closes kind (padComment kind (c :: d :: (core ++ ending))) =
      closes kind (c :: d :: (core ++ ending))) :
    padComment kind (padComment kind (c :: d :: (core ++ ending))) =
      padComment kind (c :: d :: (core ++ ending)) := by
  rw [padComment_core hending] at hcloses ⊢
  rw [padComment_core (by rw [hcloses, hending]), padCore_padCore]

theorem padLiteral_padLiteral {kind : Kind} {c : Char} {body rest : List Char}
    (h : literalAt (c :: (body ++ rest)) = some (body.length + 1, kind)) :
    padLiteral kind (padLiteral kind (c :: body)) = padLiteral kind (c :: body) := by
  have hcloses := closes_padLiteral h
  have hcomment : ∀ {kind : Kind} (text : List Char), kind.isComment = true →
      padLiteral kind text = padComment kind text := fun _ hkind => if_pos hkind
  obtain ⟨rfl, -, -⟩ | ⟨rfl, rfl, inside, rfl, -⟩ | ⟨rfl, rfl, inside, rfl, -⟩ |
    ⟨rfl, rfl, inside, rfl, -⟩ := literalAt_append_iff.mp h
  · rfl
  · obtain ⟨core, ending, rfl, hending, -⟩ := @exists_core .blockComment '(' ')' inside rfl rfl
    simp only [hcomment _ (show Kind.blockComment.isComment = true from rfl)] at hcloses ⊢
    exact padComment_padComment hending hcloses
  · obtain ⟨core, ending, rfl, hending, -⟩ := @exists_core .slashComment '/' '/' inside rfl rfl
    simp only [hcomment _ (show Kind.slashComment.isComment = true from rfl)] at hcloses ⊢
    exact padComment_padComment hending hcloses
  · rw [← List.append_nil inside] at hcloses ⊢
    simp only [hcomment _ (show Kind.lineComment.isComment = true from rfl)] at hcloses ⊢
    exact @padComment_padComment .lineComment '/' '/' inside [] rfl hcloses

/-- A padded literal of a text is not padded again. -/
theorem padEntry_padEntry {text : List Char} {entry : Kind × List Char}
    (h : entry ∈ literalsOf text) : padEntry (padEntry entry) = padEntry entry := by
  obtain ⟨span, hspan, rfl⟩ := List.mem_map.mp h
  obtain ⟨c, body, htext, -, hliteral⟩ := exists_literal_of_mem_scan hspan
  simp only [padEntry, htext, padLiteral_padLiteral hliteral]

end Spacing

namespace Format

/-- A keyword behind a duration is taken for one of its units and put in lower case, before a space
goes between them. -/
theorem canonical_twice_recased :
    ∃ once twice, @canonical Host.plain .standard "" "T#1-DO".toList = .ok once ∧
      @canonical Host.plain .standard "" once.text = .ok twice ∧
      once.text = "T#1 - dO".toList ∧ twice.text = "T#1 - DO".toList := by
  have hfound : ((@canonical Host.plain .standard "" "T#1-DO".toList).toOption.any
      fun once => once.text == "T#1 - dO".toList) = true := by
    decide +kernel
  have hfound' : ((@canonical Host.plain .standard "" "T#1 - dO".toList).toOption.any
      fun twice => twice.text == "T#1 - DO".toList) = true := by
    decide +kernel
  obtain ⟨once, honce, htext⟩ := exists_ok_of_any hfound
  obtain ⟨twice, htwice, htext'⟩ := exists_ok_of_any hfound'
  rw [← beq_iff_eq.mp htext] at htwice
  exact ⟨once, twice, honce, htwice, beq_iff_eq.mp htext, beq_iff_eq.mp htext'⟩

end Format

end StructuredText
