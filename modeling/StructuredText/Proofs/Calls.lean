import StructuredText.Proofs.Recasing
import StructuredText.Spacing.Call

/-!
# Function calls

Taking out the blanks between a function name and the parenthesis behind it is a sequence of moves.

Results:
1. `callPattern_recognize`: what the pattern for calls finds.
2. `Spacing.closeCalls_standard`: closing calls makes moves only, and always succeeds.
-/

namespace StructuredText

open Literal

/-- A name, blanks and a parenthesis; the blanks go. -/
def ClosesCall (block _rest written : List Char) : Prop :=
  ∃ name gap, block = name ++ gap ++ ['('] ∧ written = name ++ ['('] ∧ name ≠ [] ∧
    (∀ c ∈ name, isBlank c = false) ∧ ∀ c ∈ gap, isBlank c = true

theorem closesCall_respaces {licence : Licence} {known : List Cell → Prop} {tail : List Cell} :
    Respaces licence known tail ClosesCall := by
  rintro block rest written - ⟨name, gap, rfl, rfl, hne, hname, hgap⟩ left right - - hright
  have hends : endsInLineComment (left ++ codeCells name).reverse = false := by
    obtain ⟨init, c, rfl⟩ := (List.eq_nil_or_concat name).resolve_left hne
    have hc := hname c (by simp)
    simp [endsInLineComment, hc]
  have := @Move.between licence left right name gap [] ['('] hgap (by simp) hright
    (fun _ hne => absurd rfl hne) (fun _ _ => .inr (by rintro d ⟨⟩; exact .inr rfl))
    (fun _ => .inr hends)
  exact .single (by simpa using this)

namespace Pattern

theorem Matches.blankRun {least : Nat} {text : List Char}
    (h : (Vocabulary.blankRun least).Matches text) : ∀ c ∈ text, isBlank c = true := by
  refine h.mem_of_readsOnly (p := fun set => set == ⟨[.category .blank true], false, true⟩) ?_
    (by rfl)
  intro set hset c hc
  rw [beq_iff_eq] at hset
  subst hset
  simpa [CharSet.holds, SetItem.holds, Category.holds] using hc

/-- A parenthesis has no case variant. -/
theorem eq_of_mem_caseVariants {c : Char} (h : 40 ∈ caseVariants c) : c = '(' := by
  have := @forall_plain (fun e => e == '(' || (caseVariants e).all (· != 40)) (by decide +kernel) c
    (isPlain_of_caseVariants h (by decide))
  simp only [Bool.or_eq_true, beq_iff_eq, List.all_eq_true] at this
  exact this.resolve_right fun hall => absurd rfl (bne_iff_ne.mp (hall 40 h))

theorem Matches.parenthesis {text : List Char} (h : Vocabulary.parenthesis.Matches text) :
    text = ['('] := by
  unfold Vocabulary.parenthesis Pattern.char at h
  cases h with
  | @one _ c hc =>
    simp only [CharSet.holds, SetItem.single, SetItem.holds, List.any_cons, List.any_nil,
      Bool.or_false, bne_iff_ne, ne_eq, Bool.not_eq_false, Bool.or_eq_true, Bool.and_eq_true,
      decide_eq_true_eq, List.any_eq_true, true_and] at hc
    rcases hc with ⟨hle, hge⟩ | ⟨n, hn, hle, hge⟩
    · rw [Char.ext (UInt32.toNat_inj.mp (Nat.le_antisymm hge hle))]
    · have : n = 40 := Nat.le_antisymm hge hle
      subst this
      rw [eq_of_mem_caseVariants hn]

/-- The pattern for calls finds a name, which it keeps, then blanks and a parenthesis. -/
theorem recognize_call {names : Pattern} {size : Nat} {advance : Bool} {cursor : Cursor} {n : Nat}
    {found : Found}
    (h : (sequence [.anchor .boundary, .group 1 names, Vocabulary.blankRun 1,
      Vocabulary.parenthesis]).recognize size advance cursor = some (n, found)) :
    ∃ gap, names.Matches (found.group 1) ∧ found.text = found.group 1 ++ gap ++ ['('] ∧
      (∀ c ∈ gap, isBlank c = true) ∧ gap ≠ [] ∧ cursor.atBoundary = true := by
  obtain ⟨stop, hrun, heq⟩ := Option.map_eq_some_iff.mp h
  simp only [sequence, run] at hrun
  split at hrun
  next hboundary =>
    obtain ⟨middle, name, hname, hreads, -, hrun⟩ := run_sound size names _ _ _ hrun
    have hkept : cursor.after.take (middle.cursor.pos - cursor.pos) = name :=
      hreads.upTo_eq
    obtain ⟨behind, gap, hgap, hreads', hgroups, hrun⟩ :=
      run_sound size (Vocabulary.blankRun 1) _ _ _ hrun
    obtain ⟨stop', last, hlast, hreads'', hgroups', haccept⟩ :=
      run_sound size Vocabulary.parenthesis _ _ _ hrun
    have hstop : stop' = stop := by
      beta_reduce at haccept
      split at haccept
      · cases haccept
      · cases haccept
        rfl
    subst hstop
    cases heq
    have hgroup : stop'.groups.lookup 1 = some name := by
      rw [hgroups' rfl, hgroups rfl]
      exact congrArg some hkept
    have htext := (hreads.trans (hreads'.trans hreads'')).upTo_eq
    rw [Cursor.upTo] at htext
    refine ⟨gap, ?_⟩
    simp only [Found.group, if_neg Nat.one_ne_zero, hgroup, Option.getD_some, htext,
      Matches.parenthesis hlast]
    exact ⟨hname, by simp, hgap.blankRun, hgap.ne_nil_of_consumes rfl, hboundary⟩
  next => cases hrun

end Pattern

/-- The names of the standard functions are made of plain code points. -/
theorem Vocabulary.callPattern_checked :
    (match @checkJoined Host.plain standard.callPieces,
        @entryPatterns Host.plain standard.functions with
      | .ok _, .ok names =>
          (Pattern.choice names).readsOnly Pattern.isPlainSet && (Pattern.choice names).consumes
      | _, _ => false) = true := by
  decide +kernel

theorem Vocabulary.exists_callPattern [Host] :
    ∃ names : Pattern, Vocabulary.standard.callPattern = .ok (.sequence [.anchor .boundary,
        .group 1 names, blankRun 1, parenthesis]) ∧
      names.readsOnly Pattern.isPlainSet = true ∧ names.consumes = true := by
  have hchecked := Vocabulary.callPattern_checked
  split at hchecked
  next names hjoined hnames =>
    refine ⟨.choice names, ?_, by simpa using hchecked⟩
    rw [standard_callPattern _ Host.plain, @callPattern.eq_1 Host.plain, hjoined, hnames]
    rfl
  next => cases hchecked

namespace Spacing

theorem closeCallsBy_respaced {names : Pattern}
    (hreads : names.readsOnly Pattern.isPlainSet = true) (hconsumes : names.consumes = true)
    (text : List Char) :
    Respaced .strict text (closeCallsBy (.sequence [.anchor .boundary, .group 1 names,
      Vocabulary.blankRun 1, Vocabulary.parenthesis]) text) := by
  rintro cells hmarked rfl
  have hproper : (Pattern.recognize (chars cells).length (.sequence [.anchor .boundary,
      .group 1 names, Vocabulary.blankRun 1, Vocabulary.parenthesis])).IsProper :=
    Pattern.recognize_isProper (by simp [Pattern.sequence, Pattern.consumes, hconsumes])
  have hhit : ∀ before block rest found, Pattern.recognize (chars cells).length (.sequence
      [.anchor .boundary, .group 1 names, Vocabulary.blankRun 1, Vocabulary.parenthesis]) false
        ⟨before.length, before, block ++ rest⟩ = some (block.length, found) →
      ClosesCall block rest (found.group 1 ++ ['(']) := by
    intro before block rest found hfound
    obtain ⟨-, hlength, _, hafter⟩ := Pattern.recognize_eq_some hfound
    obtain ⟨gap, hname, htext, hgap, -⟩ := Pattern.recognize_call hfound
    refine ⟨found.group 1, gap, ?_, rfl, hname.ne_nil_of_consumes hconsumes, ?_, hgap⟩
    · rw [(List.append_inj hafter hlength).1, htext]
    · exact hname.mem_of_readsOnly
        (fun _ hset _ hc => (Pattern.isPlain_of_holds hset hc).2) hreads
  obtain ⟨out, hout, hpatched⟩ := replaceOutside_patched_untype hproper hhit hmarked
  exact ⟨out, hout.symm, hpatched.respacing_all closesCall_respaces⟩

/-- Closing calls makes moves only. -/
theorem closeCalls_standard [Host] (text : List Char) :
    ∃ closed, closeCalls Vocabulary.standard text = .ok closed ∧ Respaced .strict text closed := by
  obtain ⟨names, hpattern, hreads, hconsumes⟩ := Vocabulary.exists_callPattern
  refine ⟨_, ?_, closeCallsBy_respaced hreads hconsumes text⟩
  rw [closeCalls, hpattern]
  rfl

end Spacing

end StructuredText
