import Mathlib.Data.List.Basic
import StructuredText.Literal.Typed

/-!
# Letters that equal ASCII letters up to case

Four code points above the ASCII range equal an ASCII letter up to case: the dotted capital `İ` and
the dotless `ı` equal `i`, the long `ſ` equals `s`, and the Kelvin sign equals `k`. All other code
points equal to ASCII ones are ASCII themselves, so that what holds for the ASCII code points and
these four holds for everything that a word of the language matches.

Results:
1. `isPlain_of_sameUpToCase`: what equals an ASCII code point up to case is plain.
2. `isPlain_of_caseVariants`: so is what has an ASCII case variant.
3. `forall_plain`: a property of plain code points can be checked one by one.
-/

namespace StructuredText

open List

variable {c d : Char} {n : Nat}

/-- The plain code points: ASCII, and the four letters that equal ASCII letters up to case. -/
def plainPoints : List Nat :=
  List.range 128 ++ [304, 305, 383, 8490]

def isPlain (c : Char) : Prop :=
  c.toNat ∈ plainPoints

instance (c : Char) : Decidable (isPlain c) :=
  inferInstanceAs (Decidable (c.toNat ∈ plainPoints))

theorem isPlain_of_lt (h : c.toNat < 128) : isPlain c :=
  mem_append_left _ (mem_range.mpr h)

/-- A property of plain code points can be checked one by one. -/
theorem forall_plain {p : Char → Bool}
    (h : (plainPoints.all fun n => p (Char.ofNat n)) = true) {c : Char} (hc : isPlain c) :
    p c = true := by
  have := all_eq_true.mp h c.toNat hc
  rwa [Char.ofNat_toNat] at this

/-- Where a run moves its code points to: to code points, none below 128. -/
def CaseRun.isSteady (run : CaseRun) : Bool :=
  128 ≤ run.first + run.shift && run.last + run.shift < 0xD800 ||
    0xDFFF < run.first + run.shift && run.last + run.shift < 0x110000

/-- All runs but those of `İ` and the Kelvin sign stay above the ASCII range, and none leads to `ı`
or `ſ`. -/
theorem lowerRuns_checked :
    (lowerRuns.all fun run =>
      128 ≤ run.first &&
        (run.isSteady || run == ⟨304, 304, 1, -199⟩ || run == ⟨8490, 8490, 1, -8383⟩) &&
        !run.contains (305 - run.shift).toNat && !run.contains (383 - run.shift).toNat) = true := by
  decide +kernel

theorem bounds_of_contains {run : CaseRun} (h : run.contains n = true) :
    run.first ≤ n ∧ n ≤ run.last := by
  simp only [CaseRun.contains, Bool.and_eq_true, decide_eq_true_eq] at h
  exact h.1

theorem toNat_ofNat_of_isSteady {run : CaseRun} (hsteady : run.isSteady = true)
    (hcontains : run.contains n = true) :
    (Char.ofNat ((n : Int) + run.shift).toNat).toNat = ((n : Int) + run.shift).toNat ∧
      128 ≤ ((n : Int) + run.shift).toNat := by
  obtain ⟨hfirst, hlast⟩ := bounds_of_contains hcontains
  simp only [CaseRun.isSteady, Bool.or_eq_true, Bool.and_eq_true, decide_eq_true_eq] at hsteady
  have hvalid : ((n : Int) + run.shift).toNat.isValidChar := by
    rw [Nat.isValidChar]
    omega
  refine ⟨?_, by omega⟩
  rw [Char.ofNat, dif_pos hvalid]
  rfl

/-- A code point above the ASCII range with an ASCII lower-case letter is `İ` or the Kelvin sign,
and one with the lower-case letter `ı` or `ſ` is that letter. -/
theorem lowerChar_of_le (hc : 128 ≤ c.toNat) :
    ((lowerChar c).toNat < 128 → c.toNat = 304 ∨ c.toNat = 8490) ∧
      ((lowerChar c).toNat = 305 → c.toNat = 305) ∧
      ((lowerChar c).toNat = 383 → c.toNat = 383) := by
  rw [lowerChar, if_neg (by omega), shiftByRuns]
  cases hfind : lowerRuns.find? (·.contains c.toNat) with
  | none =>
    simp only [Char.ofNat_toNat]
    exact ⟨fun h => by omega, id, id⟩
  | some run =>
    have hcontains : run.contains c.toNat = true := by simpa using find?_some hfind
    have hchecked := all_eq_true.mp lowerRuns_checked run (mem_of_find?_eq_some hfind)
    simp only [Bool.and_eq_true, Bool.or_eq_true, Bool.not_eq_true', decide_eq_true_eq,
      beq_iff_eq] at hchecked
    obtain ⟨⟨⟨-, hkind⟩, hi⟩, hs⟩ := hchecked
    rcases hkind with (hsteady | rfl) | rfl
    · obtain ⟨hval, hle⟩ := toNat_ofNat_of_isSteady hsteady hcontains
      simp only [hval]
      refine ⟨fun h => by omega, fun h => ?_, fun h => ?_⟩
      · have hback : (305 - run.shift).toNat = c.toNat := by omega
        rw [hback, hcontains] at hi
        cases hi
      · have hback : (383 - run.shift).toNat = c.toNat := by omega
        rw [hback, hcontains] at hs
        cases hs
    · obtain ⟨hfirst, hlast⟩ := bounds_of_contains hcontains
      have hn : c.toNat = 304 := Nat.le_antisymm hlast hfirst
      rw [hn]
      decide
    · obtain ⟨hfirst, hlast⟩ := bounds_of_contains hcontains
      have hn : c.toNat = 8490 := Nat.le_antisymm hlast hfirst
      rw [hn]
      decide

theorem isPlain_of_lowerChar (h : (lowerChar c).toNat < 128) : isPlain c := by
  by_cases hc : c.toNat < 128
  · exact isPlain_of_lt hc
  · have := (lowerChar_of_le (by omega)).1 h
    rw [isPlain, plainPoints, mem_append]
    simp only [mem_cons]
    omega

/-- Letters that share an upper-case letter with an ASCII letter, and are not ASCII, are `ı` and
`ſ`. -/
theorem sharedUpperCase_checked :
    (sharedUpperCase.all fun group =>
      (group.all fun n => 128 ≤ n) || group == [105, 305] || group == [115, 383]) = true := by
  decide

/-- A lower-case letter above the ASCII range in a group with an ASCII letter is `ı` or `ſ`. -/
theorem isPlain_of_shared {group : List Nat} (hle : 128 ≤ (lowerChar c).toNat)
    (hfind : sharedUpperCase.find? (·.contains (lowerChar c).toNat) = some group) (hmem : n ∈ group)
    (hn : n < 128) : isPlain c := by
  have hcontains : (lowerChar c).toNat ∈ group := by simpa using find?_some hfind
  have hchecked :=
    all_eq_true.mp sharedUpperCase_checked group (mem_of_find?_eq_some hfind)
  simp only [Bool.or_eq_true, all_eq_true, decide_eq_true_eq, beq_iff_eq] at hchecked
  by_cases hc : c.toNat < 128
  · exact isPlain_of_lt hc
  · obtain ⟨-, hi, hs⟩ := lowerChar_of_le (c := c) (by omega)
    rw [isPlain, plainPoints, mem_append]
    simp only [mem_cons]
    rcases hchecked with (hbig | rfl) | rfl
    · have := hbig n hmem
      omega
    · simp only [mem_cons, not_mem_nil, or_false] at hcontains
      omega
    · simp only [mem_cons, not_mem_nil, or_false] at hcontains
      omega

theorem isPlain_of_foldChar (h : (foldChar c).toNat < 128) : isPlain c := by
  simp only [foldChar] at h
  split at h
  next hlower => exact isPlain_of_lowerChar hlower
  next hle =>
    cases hfind : sharedUpperCase.find? (·.contains (lowerChar c).toNat) with
    | none =>
      rw [hfind] at h
      exact absurd h hle
    | some group =>
      rw [hfind] at h
      cases group with
      | nil => exact absurd h hle
      | cons n others =>
        refine isPlain_of_shared (by omega) hfind mem_cons_self ?_
        -- The representative is a code point, so it is known from its character.
        have hall : ∀ group ∈ sharedUpperCase, ∀ n ∈ group, n.isValidChar := by decide
        have hvalid := hall _ (mem_of_find?_eq_some hfind) n mem_cons_self
        have hn : (Char.ofNat n).toNat = n := by
          rw [Char.ofNat, dif_pos hvalid]
          rfl
        rw [← hn]
        exact h

/-- Folding leaves ASCII code points ASCII. -/
theorem foldChar_lt_of_lt (h : c.toNat < 128) : (foldChar c).toNat < 128 := by
  have hall : (List.range 128).all (fun n => (foldChar (Char.ofNat n)).toNat < 128) = true := by
    decide +kernel
  have := all_eq_true.mp hall c.toNat (mem_range.mpr h)
  rwa [Char.ofNat_toNat, decide_eq_true_eq] at this

/-- What equals an ASCII code point up to case is plain. -/
theorem isPlain_of_sameUpToCase (hc : c.toNat < 128) (h : sameUpToCase c d = true) : isPlain d := by
  apply isPlain_of_foldChar
  rw [← (beq_iff_eq.mp h)]
  exact foldChar_lt_of_lt hc

/-- Only an ASCII letter has an ASCII letter that it is the lower-case letter of. -/
theorem lt_of_mem_raisedFrom {m : Nat} (h : m ∈ raisedFrom n) (hm : m < 128) : n < 128 := by
  rcases mem_append.mp h with h | h
  · split at h
    next hn =>
      simp only [Bool.and_eq_true, decide_eq_true_eq] at hn
      omega
    next => cases h
  · obtain ⟨run, hrun, hsource⟩ := mem_filterMap.mp h
    have hchecked := all_eq_true.mp lowerRuns_checked run hrun
    simp only [Bool.and_eq_true, decide_eq_true_eq] at hchecked
    simp only [Option.ite_none_right_eq_some, Bool.and_eq_true, Option.some.injEq] at hsource
    obtain ⟨⟨hcontains, -⟩, rfl⟩ := hsource
    have := (bounds_of_contains hcontains).1
    omega

/-- What has an ASCII case variant is plain. -/
theorem isPlain_of_caseVariants {m : Nat} (h : m ∈ caseVariants c) (hm : m < 128) : isPlain c := by
  simp only [caseVariants] at h
  split at h
  next hlower =>
    simp only [Bool.and_eq_true, decide_eq_true_eq] at hlower
    exact isPlain_of_lowerChar hlower.1.1.1
  next =>
    obtain ⟨n, hn, hvariant⟩ := mem_flatMap.mp h
    have hlt : n < 128 := by
      rcases mem_cons.mp hvariant with rfl | hraised
      · exact hm
      · exact lt_of_mem_raisedFrom hraised hm
    by_cases hlower : (lowerChar c).toNat < 128
    · exact isPlain_of_lowerChar hlower
    · cases hfind : sharedUpperCase.find? (·.contains (lowerChar c).toNat) with
      | none =>
        rw [hfind, Option.getD_none, mem_singleton] at hn
        omega
      | some group =>
        rw [hfind, Option.getD_some] at hn
        exact isPlain_of_shared (by omega) hfind hn hlt

theorem sameUpToCase_comm (c d : Char) : sameUpToCase c d = sameUpToCase d c :=
  BEq.comm

/-! ## Properties that do not depend on case -/

/-- What does not depend on the case of plain code points is the same for two that are equal up to
case. -/
theorem eq_of_sameUpToCase {f : Char → Bool}
    (hf : (plainPoints.all fun n => f (Char.ofNat n) == f (foldChar (Char.ofNat n))) = true)
    {c d : Char} (hc : c.toNat < 128) (h : sameUpToCase c d = true) : f c = f d := by
  have hfold : ∀ {e : Char}, isPlain e → f e = f (foldChar e) := fun he =>
    beq_iff_eq.mp (forall_plain (p := fun e => f e == f (foldChar e)) hf he)
  rw [hfold (isPlain_of_lt hc), hfold (isPlain_of_sameUpToCase hc h), beq_iff_eq.mp h]

theorem isWordChar_of_sameUpToCase (hc : c.toNat < 128) (h : sameUpToCase c d = true) :
    isWordChar c = isWordChar d :=
  eq_of_sameUpToCase (by decide +kernel) hc h

/-- What does not depend on case holds of all that is read for a text, if it holds of the text. -/
theorem forall_of_sameUpToCase {f : Char → Bool}
    (hf : (plainPoints.all fun n => f (Char.ofNat n) == f (foldChar (Char.ofNat n))) = true)
    {text read : List Char} (htext : ∀ c ∈ text, c.toNat < 128 ∧ f c = true)
    (h : List.Forall₂ (fun c d => sameUpToCase c d = true) text read) :
    ∀ d ∈ read, f d = true := by
  induction h with
  | nil => simp
  | @cons c d rest rest' hcd _ ih =>
    obtain ⟨hc, hfc⟩ := htext c mem_cons_self
    intro e he
    rcases mem_cons.mp he with rfl | he
    · rw [← eq_of_sameUpToCase hf hc hcd, hfc]
    · exact ih (fun b hb => htext b (mem_cons_of_mem _ hb)) e he

/-! ## Letters that differ in case -/

/-- A code point of words that is no digit. -/
def isWordSign (c : Char) : Bool :=
  isWordChar c && !isDigit c

theorem isWordSign_checked :
    (plainPoints.all fun n => isWordSign (Char.ofNat n) == isWordSign (foldChar (Char.ofNat n))) =
    true := by
  decide +kernel

def isLetter (c : Char) : Bool :=
  isWordChar c && !isDigit c && c != '_'

/-- The same code point, or two letters that differ in case only. -/
def Recased (c d : Char) : Prop :=
  c = d ∨ (isLetter c = true ∧ isLetter d = true ∧ foldChar c = foldChar d ∧
    upperChars c = upperChars d ∧ Literal.isBasedDigit c = Literal.isBasedDigit d)

theorem Recased.refl (c : Char) : Recased c c :=
  .inl rfl

/-- What letters all have, or depends on the folded letter only, is the same for both. -/
theorem Recased.eq_of_letter (h : Recased c d) {p : Char → Bool}
    (hp : ∀ e, isLetter e = true → p e = false) : p c = p d := by
  obtain rfl | ⟨hc, hd, -⟩ := h
  · rfl
  · rw [hp c hc, hp d hd]

theorem isLetter_of_ne (hc : isLetter c = false) : ∀ e, isLetter e = true → (e == c) = false := by
  intro e he
  rw [beq_eq_false_iff_ne]
  rintro rfl
  rw [hc] at he
  cases he

theorem Recased.isWordChar_eq (h : Recased c d) : isWordChar c = isWordChar d := by
  obtain rfl | ⟨hc, hd, -⟩ := h
  · rfl
  · simp only [isLetter, Bool.and_eq_true] at hc hd
    rw [hc.1.1, hd.1.1]

theorem Recased.isDigit_eq (h : Recased c d) : isDigit c = isDigit d := by
  apply h.eq_of_letter
  intro e he
  simp only [isLetter, Bool.and_eq_true, Bool.not_eq_true'] at he
  exact he.1.2

theorem Recased.foldChar_eq (h : Recased c d) : foldChar c = foldChar d := by
  obtain rfl | ⟨-, -, hfold, -⟩ := h
  · rfl
  · exact hfold

theorem map_foldChar_eq {text text' : List Char}
    (h : List.Forall₂ (fun c d => foldChar c = foldChar d) text text') :
    text'.map foldChar = text.map foldChar := by
  induction h with
  | nil => rfl
  | cons hcd _ ih => rw [map_cons, map_cons, ih, hcd]

theorem Recased.upperChars_eq (h : Recased c d) : upperChars c = upperChars d := by
  obtain rfl | ⟨-, -, -, hupper, -⟩ := h
  · rfl
  · exact hupper

theorem Recased.isBasedDigit_eq (h : Recased c d) :
    Literal.isBasedDigit c = Literal.isBasedDigit d := by
  obtain rfl | ⟨-, -, -, -, hbased⟩ := h
  · rfl
  · exact hbased

theorem Recased.sameUpToCase_eq (h : Recased c d) (e : Char) :
    sameUpToCase e c = sameUpToCase e d := by
  rw [sameUpToCase, sameUpToCase, h.foldChar_eq]

end StructuredText
