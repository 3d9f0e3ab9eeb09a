import Mathlib.Data.List.Infix
import StructuredText.Proofs.Describing

/-!
# What patterns find

The search for a match tries further ways until one is accepted. For patterns without conditions,
groups and upper limits it misses none: where a text of the pattern stands and what follows it is
accepted, a match is found.

Results:
1. `run_complete`: the search finds a match if there is one.
2. `Matches.mem_ends`: what may be left of a word behind a match. So it can be checked that a
   pattern describes none of some words.
-/

namespace StructuredText.Pattern

/-! ## Complete searches -/

/-- The pattern has no conditions, no groups and no upper limits, and all rounds of its repetitions
read something. -/
def isSimple : Pattern → Bool
  | .empty | .one _ => true
  | .seq first second | .either first second => first.isSimple && second.isSimple
  | .repeated body _ most _ => body.isSimple && body.consumes && most.isNone
  | .anchor _ | .group _ _ | .reference _ _ | .ahead _ _ | .behind _ _ _ | .atomic _
  | .conditional _ _ _ => false

/-- A search that finds a way where a text of the language stands and what follows is accepted. -/
def Complete (language : List Char → Prop) (size : Nat)
    (search : Continuation → Continuation) : Prop :=
  ∀ accept state stop text, language text → state.cursor.Reads stop text →
    state.cursor.after.length ≤ size → (accept ⟨stop, state.groups⟩).isSome →
    (search accept state).isSome

variable {pattern : Pattern} {text : List Char}

theorem isDirect_of_isSimple (h : pattern.isSimple = true) :
    pattern.isDirect = true := by
  induction pattern with
  | empty | one => rfl
  | seq first second ihfirst ihsecond | either first second ihfirst ihsecond =>
    rw [isSimple, Bool.and_eq_true] at h
    rw [isDirect, ihfirst h.1, ihsecond h.2, Bool.and_true]
  | repeated body least most greedy ih =>
    rw [isSimple, Bool.and_eq_true, Bool.and_eq_true, Option.isNone_iff_eq_none] at h
    rw [isDirect, ih h.1.1, h.1.2, h.2]
    rfl
  | anchor | group | reference | ahead | behind | atomic | conditional => cases h

theorem repeats_flatten {language : List Char → List Char → List Char → Prop}
    {texts : List (List Char)}
    (h : ∀ text ∈ texts, ∀ before rest, language before text rest) :
    ∀ {least : Nat} (before rest : List Char), least ≤ texts.length →
      Repeats language least none before texts.flatten rest := by
  induction texts with
  | nil =>
    intro least before rest hleast
    rw [Nat.le_zero.mp hleast]
    exact .stop
  | cons text texts ih =>
    intro least before rest hleast
    rw [List.length_cons] at hleast
    refine .round (Option.some_ne_none 0).symm (h text List.mem_cons_self _ _) ?_
    exact ih (fun other hother => h other (List.mem_cons_of_mem _ hother)) _ _ (by omega)

/-- Without conditions and limits, a text is described wherever it stands. -/
theorem Matches.describes (h : pattern.Matches text) (hsimple : pattern.isSimple = true) :
    ∀ before rest, pattern.Describes before text rest := by
  induction h with
  | empty => exact fun _ _ => rfl
  | one hc => exact fun _ _ => ⟨_, rfl, hc⟩
  | seq _ _ ihfirst ihsecond =>
    rw [isSimple, Bool.and_eq_true] at hsimple
    exact fun before rest =>
      ⟨_, _, rfl, ihfirst hsimple.1 before _, ihsecond hsimple.2 _ rest⟩
  | left _ ih =>
    rw [isSimple, Bool.and_eq_true] at hsimple
    exact fun before rest => .inl (ih hsimple.1 before rest)
  | right _ ih =>
    rw [isSimple, Bool.and_eq_true] at hsimple
    exact fun before rest => .inr (ih hsimple.2 before rest)
  | repeated _ hleast ih =>
    rw [isSimple, Bool.and_eq_true, Bool.and_eq_true, Option.isNone_iff_eq_none] at hsimple
    obtain ⟨⟨hbody, -⟩, rfl⟩ := hsimple
    exact fun before rest =>
      repeats_flatten (fun text htext => ih text htext hbody) before rest hleast
  | anchor | group | reference | ahead | behind | atomic | present | absent => cases hsimple

/-- The search finds a match if there is one. -/
theorem run_complete (size : Nat) (pattern : Pattern) (hsimple : pattern.isSimple = true) :
    Complete pattern.Matches size (pattern.run size) := by
  intro accept state stop text hmatches hreads
  exact run_isSome size pattern (isDirect_of_isSimple hsimple) accept state stop text hreads
    (hmatches.describes hsimple _ _)

/-! ## Words that a pattern does not describe -/

/-- Each code point of the text is among those given for its place. -/
def Fills (places : List (List Char)) (text : List Char) : Prop :=
  List.Forall₂ (fun chars c => c ∈ chars) places text

/-- What may be left of a word, given by the code points that may stand at each place, behind a
match. Repetitions and conditions are taken to leave any part. -/
def ends : Pattern → List (List Char) → List (List (List Char))
  | .empty, places => [places]
  | .one _, [] => []
  | .one set, chars :: places => if chars.any set.holds then [places] else []
  | .seq first second, places => (first.ends places).flatMap second.ends
  | .either first second, places => first.ends places ++ second.ends places
  | _, places => places.tails

theorem Fills.append {places : List (List Char)} {text rest : List Char}
    (h : Fills places (text ++ rest)) : ∃ places' ∈ places.tails, Fills places' rest := by
  induction text generalizing places with
  | nil => exact ⟨places, by simp [List.mem_tails], h⟩
  | cons c text ih =>
    cases h with
    | @cons chars _ places _ _ hplaces =>
      obtain ⟨places', hmem, hfills⟩ := ih hplaces
      rw [List.mem_tails] at hmem
      exact ⟨places', (List.mem_tails _ _).mpr (hmem.trans (List.suffix_cons _ _)), hfills⟩

/-- Behind a match stands one of the ends. -/
theorem Matches.mem_ends {pattern : Pattern} {text : List Char} (h : pattern.Matches text) :
    ∀ {places : List (List Char)} {rest : List Char}, Fills places (text ++ rest) →
      ∃ places' ∈ pattern.ends places, Fills places' rest := by
  induction h with
  | empty => exact fun hfills => ⟨_, List.mem_singleton_self _, hfills⟩
  | @one set c hc =>
    intro places rest hfills
    cases hfills with
    | @cons chars _ places _ hmem hplaces =>
      refine ⟨places, ?_, hplaces⟩
      rw [ends, if_pos (List.any_eq_true.mpr ⟨c, hmem, hc⟩)]
      exact List.mem_singleton_self _
  | seq _ _ ihfirst ihsecond =>
    intro places rest hfills
    rw [List.append_assoc] at hfills
    obtain ⟨middle, hmiddle, hfills⟩ := ihfirst hfills
    obtain ⟨places', hplaces', hfills⟩ := ihsecond hfills
    exact ⟨places', List.mem_flatMap.mpr ⟨middle, hmiddle, hplaces'⟩, hfills⟩
  | left _ ih =>
    intro places rest hfills
    obtain ⟨places', hmem, hfills⟩ := ih hfills
    exact ⟨places', List.mem_append_left _ hmem, hfills⟩
  | right _ ih =>
    intro places rest hfills
    obtain ⟨places', hmem, hfills⟩ := ih hfills
    exact ⟨places', List.mem_append_right _ hmem, hfills⟩
  | anchor | repeated | group | reference | ahead | behind | atomic | present | absent =>
    exact Fills.append

/-- No word with these code points is described if no end is empty. -/
theorem not_matches_of_ends {places : List (List Char)}
    (hends : (pattern.ends places).contains [] = false) (hfills : Fills places text) :
    ¬ pattern.Matches text := by
  intro hmatches
  obtain ⟨places', hmem, hrest⟩ :=
    @Matches.mem_ends _ _ hmatches places [] (by rwa [List.append_nil])
  cases hrest
  rw [List.contains_eq_mem, decide_eq_false_iff_not] at hends
  exact hends hmem

end StructuredText.Pattern
