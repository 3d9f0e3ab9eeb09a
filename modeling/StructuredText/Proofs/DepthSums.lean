import Mathlib.Algebra.BigOperators.Intervals
import StructuredText.Proofs.LineMasks
import StructuredText.Proofs.Spelling

/-!
# Depth and unmatched closers

The depth counts open blocks, and it never falls below zero: a closer where no block is open changes
nothing. So the depth behind a line is not what all lines up to it open and close. It is the most
that the last of them open and close, however many of them are taken.

Results:
1. `isGreatest_runSums_succ`: one step of a counter that stays at zero or above.
2. `isGreatest_runSums`: such a counter, from any place on where it is zero.
3. `Indentation.depthBefore_succ`: indentation takes such a step at each line.
4. `Indentation.scan_depth_greatest`: the depths of a text, and how unmatched closers are forgotten.
-/

namespace StructuredText

open Literal LineKind

/-! ## A counter that stays at zero or above -/

/-- The sums of the changes from some place on, at `first` or later, up to but not including
`stop`. -/
def runSums (change : Nat → Int) (first stop : Nat) : Set Int :=
  {sum | ∃ start, first ≤ start ∧ start ≤ stop ∧ sum = ∑ i ∈ Finset.Ico start stop, change i}

section

variable {change : Nat → Int} {first stop : Nat}

theorem isGreatest_runSums_self : IsGreatest (runSums change first first) 0 := by
  constructor
  · exact ⟨first, le_rfl, le_rfl, by simp⟩
  · rintro sum ⟨start, hfirst, hstop, rfl⟩
    rw [Finset.Ico_eq_empty_of_le hfirst, Finset.sum_empty]

/-- A run that ends one place further on takes in the change there, or is empty. -/
theorem isGreatest_runSums_succ {greatest : Int}
    (h : IsGreatest (runSums change first stop) greatest) (hle : first ≤ stop) :
    IsGreatest (runSums change first (stop + 1)) (max 0 (greatest + change stop)) := by
  constructor
  · rcases max_choice 0 (greatest + change stop) with hmax | hmax
    · exact ⟨stop + 1, by omega, le_rfl, by rw [hmax, Finset.Ico_self, Finset.sum_empty]⟩
    · obtain ⟨start, hfirst, hstop, rfl⟩ := h.1
      exact ⟨start, hfirst, by omega, by rw [hmax, Finset.sum_Ico_succ_top hstop]⟩
  · rintro sum ⟨start, hfirst, hstop, rfl⟩
    rcases Nat.lt_or_eq_of_le hstop with hlt | rfl
    · have hle' : start ≤ stop := by omega
      have hsum : ∑ i ∈ Finset.Ico start stop, change i ≤ greatest := h.2 ⟨start, hfirst, hle', rfl⟩
      rw [Finset.sum_Ico_succ_top hle']
      omega
    · rw [Finset.Ico_self, Finset.sum_empty]
      exact le_max_left _ _

/-- The counter is the greatest sum of the last changes, counted from where it was zero. -/
theorem isGreatest_runSums {counter : Nat → Nat} {last : Nat} (hfirst : counter first = 0)
    (hstep : ∀ n < last, (counter (n + 1) : Int) = max 0 (counter n + change n)) :
    ∀ n, first ≤ n → n ≤ last → IsGreatest (runSums change first n) (counter n) := by
  intro n hn
  induction n, hn using Nat.le_induction with
  | base =>
    intro _
    rw [hfirst]
    exact isGreatest_runSums_self
  | succ n hn ih =>
    intro hlast
    rw [hstep n hlast]
    exact isGreatest_runSums_succ (ih (by omega)) hn

end

/-! ## The change at a line -/

/-- How a line of a kind changes the number of open blocks. -/
def LineKind.depthChange : LineKind → Int
  | .opener => 1
  | .closer => -1
  | .comment | .continuation | .caseLabel | .other => 0

namespace Indentation

/-- What decides on the kind of the line at `start`: all of it, or what stands behind the literal
that it starts inside of. -/
def codeOf (spans : List Span) (start : Nat) (line : List Char) : List Char :=
  match spans.find? fun span => span.start < start ∧ start < span.stop with
  | some span => line.drop (span.stop - start)
  | none => line

/-- How a line of a text, counted from zero, changes the number of open blocks. -/
def changeAt (text : List Char) (number : Nat) : Int :=
  let start := linesLength ((lines text).take number)
  (ofLine (codeOf (Literal.scan text) start ((lines text)[number]?.getD []))).depthChange

theorem cast_depthAfter (kind : LineKind) (depth : Nat) :
    (depthAfter kind depth : Int) = max 0 (depth + kind.depthChange) := by
  cases kind <;> simp only [depthAfter, LineKind.depthChange] <;> omega

/-- Both ways to place a line move the depth by the kind of the same code. -/
theorem depth_place_codeOf {spans : List Span} (ordered : Ordered spans) (start depth : Nat)
    (line : List Char) :
    (place spans.toArray start depth line).depth =
      depthAfter (ofLine (codeOf spans start line)) depth := by
  rw [codeOf]
  cases hfind : spans.find? fun span => span.start < start ∧ start < span.stop with
  | none =>
    have hfree : ¬ Carried spans start := by
      rintro ⟨span, hmem, hspan⟩
      exact List.find?_eq_none.mp hfind span hmem (decide_eq_true hspan)
    obtain ⟨content, hplace, hcontent⟩ := place_of_not_carried ordered hfree depth line
    rw [hplace, depth_codeLine, hcontent]
  | some span =>
    obtain ⟨hstart, hstop⟩ : span.start < start ∧ start < span.stop := by
      simpa using List.find?_some hfind
    rw [place_of_mem ordered (List.mem_of_find?_eq_some hfind) hstart hstop, depth_carriedLine]

/-! ## Line after line -/

theorem linesLength_cons (line : List Char) (others : List (List Char)) :
    linesLength (line :: others) = line.length + 1 + linesLength others := by
  simp only [linesLength, List.flatMap_cons, List.length_append, List.length_singleton]

/-- A line is placed at the depth behind the line before it. -/
theorem placeAll_getElem?_succ {spans : Array Span} {texts : List (List Char)} :
    ∀ {start depth n : Nat} {placed : IndentedLine} {line : List Char},
      (placeAll spans start depth texts)[n]? = some placed → texts[n + 1]? = some line →
      (placeAll spans start depth texts)[n + 1]? =
        some (place spans (start + linesLength (texts.take (n + 1))) placed.depth line) := by
  induction texts with
  | nil =>
    intro start depth n placed line _ hline
    cases hline
  | cons head others ih =>
    intro start depth n placed line hplaced hline
    rw [placeAll] at hplaced ⊢
    rw [List.getElem?_cons_succ] at hline ⊢
    rw [List.take_succ_cons, linesLength_cons, ← Nat.add_assoc, ← Nat.add_assoc]
    cases n with
    | zero =>
      obtain ⟨rest, rfl⟩ : ∃ rest, others = line :: rest := by
        cases others with
        | nil => cases hline
        | cons other rest => exact ⟨rest, by rw [Option.some.inj hline]⟩
      rw [← Option.some.inj hplaced]
      rfl
    | succ n => exact ih hplaced hline

theorem length_scan (text : List Char) : (scan text).length = (lines text).length :=
  length_placeAll _ _ _ _

/-- Each line of a text takes the depth one step further. -/
theorem depthBefore_succ (text : List Char) {n : Nat} (hn : n < (lines text).length) :
    (depthBefore text (n + 1) : Int) = max 0 (depthBefore text n + changeAt text n) := by
  have ordered := (scan_scans text).ordered
  have hline : (lines text)[n]? = some ((lines text)[n]) := List.getElem?_eq_getElem hn
  have hplaced : (scan text)[n]? = some (place (Literal.scan text).toArray
      (linesLength ((lines text).take n)) (depthBefore text n) ((lines text)[n])) := by
    cases n with
    | zero =>
      obtain ⟨line, others, hlines⟩ := List.exists_cons_of_ne_nil (lines_ne_nil text)
      simp only [scan, hlines]
      rfl
    | succ n =>
      obtain ⟨before, hbefore⟩ : ∃ before, (scan text)[n]? = some before :=
        ⟨_, List.getElem?_eq_getElem (by rw [length_scan]; omega)⟩
      rw [depthBefore, hbefore]
      have hnext := placeAll_getElem?_succ hbefore hline
      rwa [Nat.zero_add] at hnext
  rw [depthBefore, hplaced, changeAt, hline]
  exact (congrArg Nat.cast (depth_place_codeOf ordered _ _ _)).trans (cast_depthAfter _ _)

/-- The depth behind a line is the greatest sum of the changes at the last lines up to it, where no
line at all gives zero. If a line closes a block where none is open, only the lines behind it count
from there on. -/
theorem scan_depth_greatest (text : List Char) :
    (scan text).length = (lines text).length ∧
    (∀ n placed, (scan text)[n]? = some placed →
      IsGreatest (runSums (changeAt text) 0 (n + 1)) placed.depth) ∧
    ∀ closer, depthBefore text closer = 0 → changeAt text closer = -1 →
      ∀ n placed, closer ≤ n → (scan text)[n]? = some placed →
        IsGreatest (runSums (changeAt text) (closer + 1) (n + 1)) placed.depth := by
  have hsums : ∀ first, depthBefore text first = 0 → ∀ n placed, first ≤ n + 1 →
      (scan text)[n]? = some placed →
      IsGreatest (runSums (changeAt text) first (n + 1)) placed.depth := by
    intro first hfirst n placed hn hplaced
    have hlast : n + 1 ≤ (lines text).length := by
      rw [← length_scan]
      exact (List.getElem?_eq_some_iff.mp hplaced).1
    have hgreatest := isGreatest_runSums hfirst (fun _ => depthBefore_succ text) (n + 1) hn hlast
    rwa [depthBefore, hplaced] at hgreatest
  refine ⟨length_scan text, fun n placed => hsums 0 rfl n placed (Nat.zero_le _), ?_⟩
  intro closer hbefore hchange n placed hn hplaced
  have hcloser : closer < (lines text).length := by
    rw [← length_scan]
    exact Nat.lt_of_le_of_lt hn (List.getElem?_eq_some_iff.mp hplaced).1
  have hzero : depthBefore text (closer + 1) = 0 := by
    have hstep := depthBefore_succ text hcloser
    rw [hbefore, hchange] at hstep
    omega
  exact hsums (closer + 1) hzero n placed (by omega) hplaced

/-- The first line closes a block that is not open. Behind it a comment ends on a line that opens
one. -/
theorem scan_depth_greatest_closer :
    let text := "END_IF;\n(* a\nb *) IF c THEN\nd;".toList
    depthBefore text 0 = 0 ∧ changeAt text 0 = -1 ∧
      (scan text)[2]? = some ⟨"b *) IF c THEN".toList, none, 1, 1⟩ ∧
      IsGreatest (runSums (changeAt text) 0 3) 1 ∧ IsGreatest (runSums (changeAt text) 1 3) 1 := by
  have hchange : changeAt "END_IF;\n(* a\nb *) IF c THEN\nd;".toList 0 = -1 := by decide +kernel
  have hscan : (scan "END_IF;\n(* a\nb *) IF c THEN\nd;".toList)[2]? =
      some ⟨"b *) IF c THEN".toList, none, 1, 1⟩ := by decide +kernel
  obtain ⟨-, hdepth, hforgotten⟩ := scan_depth_greatest "END_IF;\n(* a\nb *) IF c THEN\nd;".toList
  exact ⟨rfl, hchange, hscan, hdepth 2 _ hscan, hforgotten 0 rfl hchange 2 _ (by decide) hscan⟩

end Indentation

end StructuredText
