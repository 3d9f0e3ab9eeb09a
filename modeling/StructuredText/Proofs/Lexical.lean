import StructuredText.Proofs.TypedReading

/-!
# Lexical measures

A measure is lexical if what it takes off a text are code points of typed literals, if it takes the
same off a text that is cut off behind that or has a barrier there, and if it does not depend on the
case of letters. Spacing rules change texts only at barriers and outside typed literals, so that
typed literals are found where they were.

Results:
1. `Lexical.seq`, `Lexical.alt`, `Lexical.opt`, …: lexical measures can be combined.
2. `typedWord_lexical`, `directAddress_lexical`: the measures of typed literals are lexical.
-/

namespace StructuredText.Literal

open StructuredText.Literal.Measure

variable {c : Char} {p : Char → Bool} {text : List Char} {body : Measure} {n : Nat}

/-- A text that no typed literal goes on into: it is empty, or starts with a code point that none
holds, or with a colon and no digit behind it. -/
def Barrier (text : List Char) : Prop :=
  ∀ c ∈ text.head?, isTypedChar c = false ∨
    (c = ':' ∧ ∀ d ∈ text.tail.head?, isDigit d = false)

structure Lexical (measure : Measure) : Prop where
  bounded : ∀ {text n}, measure text = some n → n ≤ text.length
  typed : ∀ {text n}, measure text = some n → ∀ c ∈ text.take n, isTypedChar c = true
  /-- Cut off behind what is taken, the text has the same taken off it. -/
  cut : ∀ {first second n}, measure (first ++ second) = some n → n ≤ first.length →
    measure first = some n
  /-- What can be read can be read with more text behind it. -/
  extend : ∀ {first n} second, measure first = some n → (measure (first ++ second)).isSome
  barrier : ∀ first {second}, Barrier second → measure (first ++ second) = measure first
  recase : ∀ {text text'}, List.Forall₂ Recased text text' → measure text = measure text'

/-- A measure that takes off less where the text is cut off inside of what it took takes all that is
left. -/
def Greedy (measure : Measure) : Prop :=
  ∀ first second n k, measure (first ++ second) = some n → first.length < n →
    measure first = some k → k = first.length

variable {measure : Measure} {measures : List Measure} {names : List String}

/-- Nothing can be read where a longer text cannot be read either. -/
theorem Lexical.none_of_append (h : Lexical measure) {first second : List Char}
    (hnone : measure (first ++ second) = none) :
    measure first = none := by
  cases hfirst : measure first with
  | none => rfl
  | some n =>
    have := h.extend second hfirst
    rw [hnone] at this
    cases this

/-! ## Single code points and runs -/

theorem next_eq_some (h : next p text = some n) :
    ∃ c rest, text = c :: rest ∧ p c = true ∧ n = 1 := by
  cases text with
  | nil => cases h
  | cons c rest =>
    simp only [next, Option.ite_none_right_eq_some, Option.some.injEq] at h
    exact ⟨c, rest, rfl, h.1, h.2.symm⟩

theorem next_lexical (htyped : ∀ c, p c = true → isTypedChar c = true) (hcolon : p ':' = false)
    (hcase : ∀ c d, Recased c d → p c = p d) : Lexical (next p) where
  bounded := by
    intro text n h
    obtain ⟨c, rest, rfl, -, rfl⟩ := next_eq_some h
    simp
  typed := by
    intro text n h
    obtain ⟨c, rest, rfl, hc, rfl⟩ := next_eq_some h
    simpa using htyped c hc
  cut := by
    intro first second n h hle
    obtain ⟨c, rest, heq, hc, rfl⟩ := next_eq_some h
    cases first with
    | nil => simp at hle
    | cons d first =>
      obtain ⟨rfl, -⟩ := List.cons_eq_cons.mp heq
      simp [next, hc]
  extend := by
    intro first n second h
    obtain ⟨c, rest, rfl, hc, -⟩ := next_eq_some h
    simp [next, hc]
  barrier := by
    intro first second hbarrier
    cases first with
    | cons c first => rfl
    | nil =>
      cases second with
      | nil => rfl
      | cons c second =>
        have hc : p c = false := by
          by_contra hp
          rw [Bool.not_eq_false] at hp
          rcases hbarrier c rfl with hbad | ⟨rfl, -⟩
          · rw [htyped c hp] at hbad
            cases hbad
          · rw [hcolon] at hp
            cases hp
        simp [next, hc]
  recase := by
    intro text text' h
    cases h with
    | nil => rfl
    | cons hcd _ => simp [next, hcase _ _ hcd]

theorem next_greedy (p : Char → Bool) : Greedy (next p) := by
  intro first second n k h hlt hk
  obtain ⟨c, rest, -, -, rfl⟩ := next_eq_some h
  obtain ⟨d, rest, rfl, -, rfl⟩ := next_eq_some hk
  simp at hlt

theorem run_lexical (htyped : ∀ c, p c = true → isTypedChar c = true) (hcolon : p ':' = false)
    (hcase : ∀ c d, Recased c d → p c = p d) : Lexical (run p) where
  bounded := by
    intro text n h
    cases h
    exact (List.takeWhile_sublist p).length_le
  typed := by
    intro text n h c hc
    cases h
    rw [← List.prefix_iff_eq_take.mp (List.takeWhile_prefix p)] at hc
    exact htyped c (List.mem_takeWhile_imp hc)
  cut := by
    intro first second n h hle
    cases h
    rw [run, Option.some.injEq]
    rw [List.takeWhile_append] at hle ⊢
    split at hle
    next hall =>
      rw [if_pos hall]
      rw [List.length_append] at hle ⊢
      omega
    next hall => rw [if_neg hall]
  extend := fun _ _ => rfl
  barrier := by
    intro first second hbarrier
    rw [run, run, takeWhile_append_of_head]
    intro c hc
    by_contra hp
    rw [Bool.not_eq_false] at hp
    rcases hbarrier c hc with hbad | ⟨rfl, -⟩
    · rw [htyped c hp] at hbad
      cases hbad
    · rw [hcolon] at hp
      cases hp
  recase := by
    intro text text' h
    simp only [run, Option.some.injEq]
    induction h with
    | nil => rfl
    | cons hcd _ ih =>
      rw [List.takeWhile_cons, List.takeWhile_cons, hcase _ _ hcd]
      split
      · rw [List.length_cons, List.length_cons, ih]
      · rfl

theorem run_greedy (p : Char → Bool) : Greedy (run p) := by
  intro first second n k h hlt hk
  cases h
  cases hk
  rw [List.takeWhile_append] at hlt
  split at hlt
  next hall => exact hall
  next => exact absurd hlt (Nat.not_lt.mpr (List.takeWhile_sublist p).length_le)

/-! ## Combinations -/

theorem seq_eq_some {a b : Measure} :
    a.seq b text = some n ↔
      ∃ k m, a text = some k ∧ b (text.drop k) = some m ∧ n = k + m := by
  simp only [seq, Option.bind_eq_some_iff, Option.map_eq_some_iff]
  constructor
  · rintro ⟨k, hk, m, hm, rfl⟩
    exact ⟨k, m, hk, hm, rfl⟩
  · rintro ⟨k, m, hk, hm, rfl⟩
    exact ⟨k, hk, m, hm, rfl⟩

variable {a b : Measure}

/-- A sequence is lexical if the second part fails, or always succeeds, where the first part is cut
off. -/
theorem Lexical.seq (ha : Lexical a) (hb : Lexical b)
    (hcut : ∀ {first second : List Char} {n k : Nat}, a (first ++ second) = some n →
      first.length < n → a first = some k → b (first.drop k) = none ∨ ∀ text, (b text).isSome) :
    Lexical (a.seq b) where
  bounded := by
    intro text n h
    obtain ⟨k, m, hk, hm, rfl⟩ := seq_eq_some.mp h
    have hle := ha.bounded hk
    have hle' := hb.bounded hm
    rw [List.length_drop] at hle'
    omega
  typed := by
    intro text n h c hc
    obtain ⟨k, m, hk, hm, rfl⟩ := seq_eq_some.mp h
    rw [List.take_add] at hc
    rcases List.mem_append.mp hc with hc | hc
    · exact ha.typed hk c hc
    · exact hb.typed hm c hc
  cut := by
    intro first second n h hle
    obtain ⟨k, m, hk, hm, rfl⟩ := seq_eq_some.mp h
    rw [List.drop_append_of_le_length (by omega)] at hm
    refine seq_eq_some.mpr ⟨k, m, ha.cut hk (by omega), hb.cut hm ?_, rfl⟩
    rw [List.length_drop]
    omega
  extend := by
    intro first n second h
    obtain ⟨k, m, hk, hm, rfl⟩ := seq_eq_some.mp h
    obtain ⟨j, hj⟩ := Option.isSome_iff_exists.mp (ha.extend second hk)
    have hsome : (b ((first ++ second).drop j)).isSome := by
      by_cases hlt : first.length < j
      · rcases hcut hj hlt hk with hnone | hall
        · rw [hnone] at hm
          cases hm
        · exact hall _
      · rw [List.drop_append_of_le_length (by omega)]
        have := ha.cut hj (by omega)
        rw [hk] at this
        cases this
        exact hb.extend second hm
    obtain ⟨i, hi⟩ := Option.isSome_iff_exists.mp hsome
    rw [seq_eq_some.mpr ⟨j, i, hj, hi, rfl⟩]
    rfl
  barrier := by
    intro first second hbarrier
    rw [Measure.seq, Measure.seq, ha.barrier first hbarrier]
    cases hk : a first with
    | none => rfl
    | some k =>
      rw [Option.bind_some, Option.bind_some, List.drop_append_of_le_length (ha.bounded hk),
        hb.barrier _ hbarrier]
  recase := by
    intro text text' h
    rw [Measure.seq, Measure.seq, ha.recase h]
    congr 1
    funext k
    rw [hb.recase (List.forall₂_drop k h)]

theorem Greedy.seq (ha : Lexical a) (hb : Lexical b) (hga : Greedy a) (hgb : Greedy b) :
    Greedy (a.seq b) := by
  intro first second n k h hlt hk
  obtain ⟨i, j, hi, hj, rfl⟩ := seq_eq_some.mp h
  obtain ⟨i', j', hi', hj', rfl⟩ := seq_eq_some.mp hk
  have hle' := hb.bounded hj'
  rw [List.length_drop] at hle'
  by_cases hle : i ≤ first.length
  · have heq := ha.cut hi hle
    rw [hi'] at heq
    cases heq
    rw [List.drop_append_of_le_length hle] at hj
    have := hgb _ _ _ _ hj (by rw [List.length_drop]; omega) hj'
    rw [this, List.length_drop]
    omega
  · have hfull := hga _ _ _ _ hi (by omega) hi'
    omega

/-- A sequence whose first part takes all that is left when it is cut off, and whose second part
needs some text. -/
theorem Lexical.seqGreedy (ha : Lexical a) (hb : Lexical b) (hga : Greedy a) (hnil : b [] = none) :
    Lexical (a.seq b) := by
  refine ha.seq hb ?_
  intro first second n k hn hlt hk
  have hfull := hga _ _ _ _ hn hlt hk
  left
  rw [hfull, List.drop_length, hnil]

theorem Lexical.seqTotal (ha : Lexical a) (hb : Lexical b) (htotal : ∀ text, (b text).isSome) :
    Lexical (a.seq b) :=
  ha.seq hb fun _ _ _ => .inr htotal

theorem Lexical.opt (ha : Lexical a) : Lexical a.opt where
  bounded := by
    intro text n h
    cases h
    cases hk : a text with
    | none => exact Nat.zero_le _
    | some k => exact ha.bounded hk
  typed := by
    intro text n h c hc
    cases h
    cases hk : a text with
    | none =>
      rw [hk] at hc
      cases hc
    | some k =>
      rw [hk] at hc
      exact ha.typed hk c hc
  cut := by
    intro first second n h hle
    cases h
    rw [Measure.opt, Option.some.injEq]
    cases hk : a (first ++ second) with
    | none => rw [ha.none_of_append hk]
    | some k =>
      rw [hk] at hle
      rw [ha.cut hk hle]
  extend := fun _ _ => rfl
  barrier := by
    intro first second hbarrier
    rw [Measure.opt, Measure.opt, ha.barrier first hbarrier]
  recase := by
    intro text text' h
    rw [Measure.opt, Measure.opt, ha.recase h]

theorem opt_next_greedy (p : Char → Bool) : Greedy (opt (next p)) := by
  intro first second n k h hlt hk
  cases h
  cases hk
  cases first with
  | nil => rfl
  | cons c first =>
    simp only [List.cons_append, next, List.length_cons] at hlt
    split at hlt
    · simp at hlt
    · simp at hlt

theorem Lexical.alt (ha : Lexical a) (hb : Lexical b) : Lexical (a.alt b) where
  bounded := by
    intro text n h
    rcases Option.or_eq_some_iff.mp h with h | ⟨-, h⟩
    · exact ha.bounded h
    · exact hb.bounded h
  typed := by
    intro text n h
    rcases Option.or_eq_some_iff.mp h with h | ⟨-, h⟩
    · exact ha.typed h
    · exact hb.typed h
  cut := by
    intro first second n h hle
    rcases Option.or_eq_some_iff.mp h with h | ⟨hnone, h⟩
    · rw [Measure.alt, ha.cut h hle, Option.some_or]
    · rw [Measure.alt, ha.none_of_append hnone, Option.none_or]
      exact hb.cut h hle
  extend := by
    intro first n second h
    rw [Measure.alt, Option.isSome_or]
    rcases Option.or_eq_some_iff.mp h with h | ⟨-, h⟩
    · rw [ha.extend second h]
      rfl
    · rw [hb.extend second h, Bool.or_true]
  barrier := by
    intro first second hbarrier
    rw [Measure.alt, Measure.alt, ha.barrier first hbarrier, hb.barrier first hbarrier]
  recase := by
    intro text text' h
    rw [Measure.alt, Measure.alt, ha.recase h, hb.recase h]

/-! ## Parts of typed literals -/

theorem isTypedChar_of_isWordChar (h : isWordChar c = true) : isTypedChar c = true := by
  rw [isTypedChar, h]
  rfl

theorem isTypedChar_of_isDigit (h : isDigit c = true) : isTypedChar c = true :=
  isTypedChar_of_isWordChar (isWordChar_of_isDigit h)

theorem isTypedChar_of_sameUpToCase {d : Char} (hc : c.toNat < 128) (hword : isWordChar c = true)
    (h : sameUpToCase c d = true) : isTypedChar d = true := by
  rw [isWordChar_of_sameUpToCase hc h] at hword
  exact isTypedChar_of_isWordChar hword

theorem char_lexical (htyped : isTypedChar c = true) (hcolon : c ≠ ':')
    (hletter : isLetter c = false) : Lexical (char c) := by
  refine next_lexical ?_ ?_ ?_
  · intro d hd
    rw [beq_iff_eq] at hd
    rw [hd, htyped]
  · exact beq_eq_false_iff_ne.mpr hcolon.symm
  · intro d e h
    exact h.eq_of_letter (isLetter_of_ne hletter)

theorem digit_lexical : Lexical (next isDigit) :=
  next_lexical (fun _ => isTypedChar_of_isDigit) (by decide) fun _ _ h => h.isDigit_eq

theorem digits_lexical : Lexical digits :=
  digit_lexical.seqTotal
    (run_lexical (fun _ => isTypedChar_of_isDigit) (by decide) fun _ _ h => h.isDigit_eq)
    fun _ => rfl

theorem digits_greedy : Greedy digits :=
  Greedy.seq digit_lexical
    (run_lexical (fun _ => isTypedChar_of_isDigit) (by decide) fun _ _ h => h.isDigit_eq)
    (next_greedy _) (run_greedy _)

theorem sign_lexical : Lexical (next isSign) := by
  refine next_lexical ?_ (by decide) ?_
  · intro c hc
    simp only [isSign, Bool.or_eq_true, beq_iff_eq] at hc
    rcases hc with rfl | rfl <;> decide
  · intro c d h
    refine h.eq_of_letter fun e he => ?_
    rw [isSign, isLetter_of_ne (by decide) e he, isLetter_of_ne (by decide) e he]
    rfl

theorem timed_eq_some :
    timed body text = some n ↔ ∃ rest m, text = ':' :: rest ∧ body rest = some m ∧ n = m + 1 := by
  constructor
  · intro h
    obtain ⟨k, m, hk, hm, rfl⟩ := seq_eq_some.mp h
    obtain ⟨c, rest, rfl, hc, rfl⟩ := next_eq_some hk
    rw [beq_iff_eq] at hc
    exact ⟨rest, m, by rw [hc], hm, Nat.add_comm _ _⟩
  · rintro ⟨rest, m, rfl, hm, rfl⟩
    exact seq_eq_some.mpr ⟨1, m, rfl, hm, Nat.add_comm _ _⟩

/-- A digit has to stand behind the colon, so that a colon can be a barrier. -/
theorem Lexical.timed (hbody : Lexical body)
    (hdigit : ∀ text, (∀ d ∈ text.head?, isDigit d = false) → body text = none) :
    Lexical (timed body) where
  bounded := by
    intro text n h
    obtain ⟨rest, m, rfl, hm, rfl⟩ := timed_eq_some.mp h
    exact Nat.succ_le_succ (hbody.bounded hm)
  typed := by
    intro text n h c hc
    obtain ⟨rest, m, rfl, hm, rfl⟩ := timed_eq_some.mp h
    rw [List.take_succ_cons] at hc
    rcases List.mem_cons.mp hc with rfl | hc
    · decide
    · exact hbody.typed hm c hc
  cut := by
    intro first second n h hle
    obtain ⟨rest, m, heq, hm, rfl⟩ := timed_eq_some.mp h
    cases first with
    | nil => cases hle
    | cons c first =>
      obtain ⟨rfl, rfl⟩ := List.cons_eq_cons.mp heq
      exact timed_eq_some.mpr ⟨first, m, rfl, hbody.cut hm (Nat.le_of_succ_le_succ hle), rfl⟩
  extend := by
    intro first n second h
    obtain ⟨rest, m, rfl, hm, rfl⟩ := timed_eq_some.mp h
    obtain ⟨k, hk⟩ := Option.isSome_iff_exists.mp (hbody.extend second hm)
    rw [List.cons_append, timed_eq_some.mpr ⟨rest ++ second, k, rfl, hk, rfl⟩]
    rfl
  barrier := by
    intro first second hbarrier
    cases first with
    | cons c first =>
      simp only [Measure.timed, Measure.seq, Measure.char, next, List.cons_append]
      split
      · simp only [Option.bind_some, List.drop_succ_cons, List.drop_zero,
          hbody.barrier first hbarrier]
      · rfl
    | nil =>
      -- A colon at the start of the barrier has no digit behind it.
      refine Option.eq_none_iff_forall_ne_some.mpr ?_
      intro n h
      obtain ⟨rest, m, rfl, hm, -⟩ := timed_eq_some.mp h
      rcases hbarrier ':' rfl with hbad | ⟨-, hrest⟩
      · cases hbad
      · rw [hdigit rest hrest] at hm
        cases hm
  recase := by
    intro text text' h
    cases h with
    | nil => rfl
    | @cons c d rest rest' hcd hrest =>
      have hsame : (c == ':') = (d == ':') := hcd.eq_of_letter (isLetter_of_ne (by decide))
      simp only [Measure.timed, Measure.seq, Measure.char, next, hsame]
      split
      · simp only [Option.bind_some, List.drop_succ_cons, List.drop_zero, hbody.recase hrest]
      · rfl

theorem digits_eq_none (h : ∀ d ∈ text.head?, isDigit d = false) : digits text = none := by
  cases text with
  | nil => rfl
  | cons c rest => simp [digits, someRun, seq, next, h c rfl]

theorem seq_digits_eq_none (h : ∀ d ∈ text.head?, isDigit d = false) :
    seq digits body text = none := by
  rw [seq, digits_eq_none h]
  rfl

/-! ## Typed literals -/

theorem word_lexical {text : List Char}
    (h : ∀ c ∈ text, c.toNat < 128 ∧ isWordChar c = true) : Lexical (word text) := by
  induction text with
  | nil =>
    exact {
      bounded := fun h => by cases h; exact Nat.zero_le _
      typed := fun h => by cases h; simp
      cut := fun h _ => h
      extend := fun _ _ => rfl
      barrier := fun _ _ _ => rfl
      recase := fun _ => rfl }
  | cons c rest ih =>
    obtain ⟨hc, hword⟩ := h c List.mem_cons_self
    have hnext : Lexical (next (sameUpToCase c)) := by
      refine next_lexical (fun d => isTypedChar_of_sameUpToCase hc hword) ?_ ?_
      · by_contra hcolon
        rw [Bool.not_eq_false] at hcolon
        rw [isWordChar_of_sameUpToCase hc hcolon] at hword
        revert hword
        decide
      · intro d e hde
        exact hde.sameUpToCase_eq c
    refine hnext.seq (ih fun d hd => h d (List.mem_cons_of_mem _ hd)) ?_
    intro first second n k hn hlt hk
    obtain ⟨d, tail, -, -, rfl⟩ := next_eq_some hn
    obtain ⟨e, tail', rfl, -, -⟩ := next_eq_some hk
    simp at hlt

theorem length_of_word {other : List Char} (h : word text other = some n) : n = text.length := by
  induction text generalizing other n with
  | nil =>
    cases h
    rfl
  | cons c rest ih =>
    obtain ⟨k, m, hk, hm, rfl⟩ := seq_eq_some.mp h
    obtain ⟨d, tail, -, -, rfl⟩ := next_eq_some hk
    rw [ih hm, List.length_cons, Nat.add_comm]

/-- What `measure` takes ends at the first `#`. -/
def EndsAtHash (measure : Measure) : Prop :=
  ∀ text n, measure text = some n → n = (text.takeWhile (· != '#')).length + 1 ∧ n ≤ text.length

theorem EndsAtHash.greedy (h : EndsAtHash measure) : Greedy measure := by
  intro first second n k hn hlt hk
  obtain ⟨rfl, hle⟩ := h _ _ hk
  obtain ⟨rfl, -⟩ := h _ _ hn
  -- The first `#` is the same in both texts.
  rw [List.takeWhile_append, if_neg (by omega)] at hlt
  omega

theorem word_hash_endsAtHash (h : ∀ c ∈ text, c.toNat < 128 ∧ isWordChar c = true) :
    EndsAtHash (seq (word text) (char '#')) := by
  induction text with
  | nil =>
    intro other n hn
    obtain ⟨k, m, hk, hm, rfl⟩ := seq_eq_some.mp hn
    cases hk
    rw [List.drop_zero] at hm
    obtain ⟨c, rest, rfl, hc, rfl⟩ := next_eq_some hm
    rw [beq_iff_eq] at hc
    subst hc
    simp
  | cons c rest ih =>
    intro other n hn
    obtain ⟨k, m, hk, hm, rfl⟩ := seq_eq_some.mp hn
    obtain ⟨i, j, hi, hj, rfl⟩ := seq_eq_some.mp hk
    obtain ⟨d, tail, rfl, hd, rfl⟩ := next_eq_some hi
    obtain ⟨hc, hword⟩ := h c List.mem_cons_self
    have hne : d ≠ '#' := by
      rintro rfl
      rw [isWordChar_of_sameUpToCase hc hd] at hword
      revert hword
      decide
    rw [Nat.add_comm 1 j, List.drop_succ_cons] at hm
    obtain ⟨hlength, hle⟩ := ih (fun e he => h e (List.mem_cons_of_mem _ he)) tail (j + m)
      (seq_eq_some.mpr ⟨j, m, hj, hm, rfl⟩)
    rw [List.takeWhile_cons_of_pos (by simpa using hne), List.length_cons, List.length_cons]
    omega

theorem firstOf_endsAtHash (h : ∀ measure ∈ measures, EndsAtHash measure) :
    EndsAtHash (firstOf measures) := by
  induction measures with
  | nil =>
    intro text n hn
    cases hn
  | cons measure rest ih =>
    intro text n hn
    rcases Option.or_eq_some_iff.mp hn with hn | ⟨-, hn⟩
    · exact h measure List.mem_cons_self text n hn
    · exact ih (fun other hother => h other (List.mem_cons_of_mem _ hother)) text n hn

theorem firstOf_lexical (h : ∀ measure ∈ measures, Lexical measure) :
    Lexical (firstOf measures) := by
  induction measures with
  | nil =>
    exact {
      bounded := fun h => by cases h
      typed := fun h => by cases h
      cut := fun h _ => h
      extend := fun _ h => by cases h
      barrier := fun _ _ _ => rfl
      recase := fun _ => rfl }
  | cons measure rest ih =>
    exact (h measure List.mem_cons_self).alt
      (ih fun other hother => h other (List.mem_cons_of_mem _ hother))

/-- Names that consist of word characters of the ASCII range. -/
def ArePlainWords (names : List String) : Prop :=
  ∀ name ∈ names, ∀ c ∈ name.toList, c.toNat < 128 ∧ isWordChar c = true

instance (names : List String) : Decidable (ArePlainWords names) :=
  inferInstanceAs (Decidable (∀ name ∈ names, ∀ c ∈ name.toList,
    c.toNat < 128 ∧ isWordChar c = true))

theorem hash_lexical : Lexical (char '#') :=
  char_lexical (by decide) (by decide) (by decide)

theorem typeName_lexical (h : ArePlainWords names) :
    Lexical (Measure.typeName names) := by
  refine firstOf_lexical ?_
  intro measure hmeasure
  obtain ⟨name, hname, rfl⟩ := List.mem_map.mp hmeasure
  have hword := word_lexical (h name hname)
  refine hword.seq hash_lexical ?_
  intro first second n k hn hlt hk
  have := hword.bounded hk
  rw [length_of_word hn] at hlt
  rw [length_of_word hk] at this
  omega

theorem typeName_greedy (h : ArePlainWords names) :
    Greedy (Measure.typeName names) := by
  refine (firstOf_endsAtHash ?_).greedy
  intro measure hmeasure
  obtain ⟨name, hname, rfl⟩ := List.mem_map.mp hmeasure
  exact word_hash_endsAtHash (h name hname)

theorem plus_lexical : Lexical (opt (next isSign)) :=
  sign_lexical.opt

theorem point_lexical : Lexical (char '.') :=
  char_lexical (by decide) (by decide) (by decide)

theorem dash_lexical : Lexical (char '-') :=
  char_lexical (by decide) (by decide) (by decide)

theorem Lexical.pointed (h : Lexical body) (hnil : body [] = none) : Lexical (pointed body) :=
  point_lexical.seqGreedy h (next_greedy _) hnil

theorem clockTime_lexical : Lexical Measure.clockTime := by
  have hfraction : Lexical (opt (pointed digits)) := (digits_lexical.pointed rfl).opt
  have hseconds : Lexical (opt (timed (seq digits (opt (pointed digits))))) :=
    ((digits_lexical.seqTotal hfraction fun _ => rfl).timed fun _ => seq_digits_eq_none).opt
  refine digits_lexical.seqGreedy ?_ digits_greedy rfl
  exact (digits_lexical.seqTotal hseconds fun _ => rfl).timed fun _ => seq_digits_eq_none

theorem calendarDate_lexical : Lexical Measure.calendarDate := by
  have hday := dash_lexical.seqGreedy digits_lexical (next_greedy _) rfl
  have hmonth := digits_lexical.seqGreedy hday digits_greedy rfl
  exact digits_lexical.seqGreedy (dash_lexical.seqGreedy hmonth (next_greedy _) rfl)
    digits_greedy rfl

theorem calendarDate_greedy : Greedy Measure.calendarDate := by
  have hday := dash_lexical.seqGreedy digits_lexical (next_greedy _) rfl
  have hmonth := digits_lexical.seqGreedy hday digits_greedy rfl
  have hgday : Greedy (seq (char '-') digits) :=
    Greedy.seq dash_lexical digits_lexical (next_greedy _) digits_greedy
  exact Greedy.seq digits_lexical (dash_lexical.seqGreedy hmonth (next_greedy _) rfl) digits_greedy
    (Greedy.seq dash_lexical hmonth (next_greedy _)
      (Greedy.seq digits_lexical hday digits_greedy hgday))

theorem dateAndTime_lexical : Lexical Measure.dateAndTime := by
  have hnames : ArePlainWords ["DT", "LDT", "DATE_AND_TIME", "LDATE_AND_TIME"] := by decide
  refine (typeName_lexical hnames).seqGreedy ?_ (typeName_greedy hnames) rfl
  exact calendarDate_lexical.seqGreedy
    (dash_lexical.seqGreedy clockTime_lexical (next_greedy _) rfl) calendarDate_greedy rfl

theorem timeOfDay_lexical : Lexical Measure.timeOfDay := by
  have hnames : ArePlainWords ["TOD", "LTOD", "TIME_OF_DAY", "LTIME_OF_DAY"] := by decide
  exact (typeName_lexical hnames).seqGreedy clockTime_lexical (typeName_greedy hnames) rfl

theorem date_lexical : Lexical Measure.date := by
  have hnames : ArePlainWords ["D", "LD", "DATE", "LDATE"] := by decide
  exact (typeName_lexical hnames).seqGreedy calendarDate_lexical (typeName_greedy hnames) rfl

theorem duration_lexical : Lexical Measure.duration := by
  have hnames : ArePlainWords ["T", "LT", "TIME", "LTIME"] := by decide
  have hrun : Lexical (run fun c => isWordChar c || c == '.') := by
    refine run_lexical ?_ (by decide) ?_
    · intro c hc
      rcases Bool.or_eq_true_iff.mp hc with hc | hc
      · exact isTypedChar_of_isWordChar hc
      · rw [beq_iff_eq.mp hc]
        decide
    · intro c d h
      rw [h.isWordChar_eq, h.eq_of_letter (isLetter_of_ne (by decide : isLetter '.' = false))]
  refine (typeName_lexical hnames).seqGreedy ?_ (typeName_greedy hnames) rfl
  exact plus_lexical.seqGreedy (digit_lexical.seqTotal hrun fun _ => rfl) (opt_next_greedy _) rfl

theorem isTypedChar_of_isBasedDigit (h : isBasedDigit c = true) : isTypedChar c = true := by
  have hall : (plainPoints.all fun n =>
      !isBasedDigit (Char.ofNat n) || isTypedChar (Char.ofNat n)) = true := by
    decide +kernel
  have hlt : c.toNat < 128 := by
    simp only [isBasedDigit, Bool.or_eq_true, Bool.and_eq_true, decide_eq_true_eq,
      beq_iff_eq] at h
    rcases h with ((h | h) | h) | rfl
    · exact Nat.lt_of_le_of_lt (Char.le_def.mp h.2) (by decide)
    · exact Nat.lt_of_le_of_lt (Char.le_def.mp h.2) (by decide)
    · exact Nat.lt_of_le_of_lt (Char.le_def.mp h.2) (by decide)
    · decide
  have := forall_plain (p := fun c => !isBasedDigit c || isTypedChar c) hall (isPlain_of_lt hlt)
  rwa [h, Bool.not_true, Bool.false_or] at this

theorem basedInteger_lexical : Lexical Measure.basedInteger := by
  have hnext : Lexical (next isBasedDigit) := next_lexical (fun _ => isTypedChar_of_isBasedDigit)
    (by decide) fun _ _ h => h.isBasedDigit_eq
  have hrun : Lexical (run isBasedDigit) := run_lexical (fun _ => isTypedChar_of_isBasedDigit)
    (by decide) fun _ _ h => h.isBasedDigit_eq
  have hvalue : Lexical (someRun isBasedDigit) := hnext.seqTotal hrun fun _ => rfl
  exact digits_lexical.seqGreedy (hash_lexical.seqGreedy hvalue (next_greedy _) rfl)
    digits_greedy rfl

theorem groupedDigits_run_lexical : Lexical (run fun c => isDigit c || c == '_') := by
  refine run_lexical ?_ (by decide) ?_
  · intro c hc
    rcases Bool.or_eq_true_iff.mp hc with hc | hc
    · exact isTypedChar_of_isDigit hc
    · rw [beq_iff_eq.mp hc]
      decide
  · intro c d h
    rw [h.isDigit_eq, h.eq_of_letter (isLetter_of_ne (by decide : isLetter '_' = false))]

theorem groupedDigits_lexical : Lexical Measure.groupedDigits :=
  digit_lexical.seqTotal groupedDigits_run_lexical fun _ => rfl

theorem groupedDigits_greedy : Greedy Measure.groupedDigits :=
  Greedy.seq digit_lexical groupedDigits_run_lexical (next_greedy _) (run_greedy _)

theorem exponent_lexical : Lexical exponent := by
  have hletter : Lexical (next (sameUpToCase 'E')) :=
    next_lexical (fun _ => isTypedChar_of_sameUpToCase (by decide) (by decide)) (by decide)
      fun _ _ h => h.sameUpToCase_eq 'E'
  exact hletter.seqGreedy (plus_lexical.seqGreedy digits_lexical (opt_next_greedy _) rfl)
    (next_greedy _) rfl

/-- A fraction that is cut off behind its point is none, and then no exponent follows. -/
theorem fraction_lexical : Lexical (seq (opt (pointed Measure.groupedDigits)) exponent) := by
  have hpointed : Lexical (pointed Measure.groupedDigits) := groupedDigits_lexical.pointed rfl
  have hgreedy : Greedy (pointed Measure.groupedDigits) :=
    Greedy.seq point_lexical groupedDigits_lexical (next_greedy _) groupedDigits_greedy
  refine hpointed.opt.seq exponent_lexical ?_
  intro first second n k hn hlt hk
  left
  cases hn
  cases hk
  cases hfull : pointed Measure.groupedDigits (first ++ second) with
  | none =>
    rw [hfull] at hlt
    cases hlt
  | some n =>
    rw [hfull] at hlt
    cases hfirst : pointed Measure.groupedDigits first with
    | some k =>
      rw [Option.getD_some, hgreedy _ _ _ _ hfull hlt hfirst, List.drop_length]
      rfl
    | none =>
      rw [Option.getD_none, List.drop_zero]
      obtain ⟨i, j, hi, -, -⟩ := seq_eq_some.mp hfull
      obtain ⟨c, rest, heq, hc, -⟩ := next_eq_some hi
      cases first with
      | nil => rfl
      | cons d first =>
        rw [List.cons_append] at heq
        obtain ⟨rfl, -⟩ := List.cons_eq_cons.mp heq
        rw [beq_iff_eq.mp hc]
        rfl

theorem exponentNumber_lexical : Lexical Measure.exponentNumber :=
  groupedDigits_lexical.seqGreedy fraction_lexical groupedDigits_greedy rfl

/-! ## Addresses -/

theorem dotted_lexical : ∀ tries, Lexical (dotted tries)
  | 0 => @word_lexical [] (by simp)
  | tries + 1 =>
      ((digits_lexical.pointed rfl).seqTotal (dotted_lexical tries)
        fun text => by cases tries <;> rfl).opt

/-- More tries than code points are not needed. -/
theorem dotted_eq {text : List Char} : ∀ {tries}, text.length ≤ tries →
    dotted tries text = dotted text.length text := by
  induction hn : text.length using Nat.strongRecOn generalizing text with
  | ind n ih =>
    subst hn
    intro tries hle
    cases text with
    | nil => cases tries <;> rfl
    | cons c rest =>
      cases tries with
      | zero => cases hle
      | succ tries =>
        simp only [List.length_cons, dotted, opt, seq]
        cases hk : pointed digits (c :: rest) with
        | none => rfl
        | some k =>
          obtain ⟨i, j, hi, hj, rfl⟩ := seq_eq_some.mp hk
          obtain ⟨d, tail, -, -, rfl⟩ := next_eq_some hi
          have hlength : ((c :: rest).drop (1 + j)).length ≤ rest.length := by
            rw [List.length_drop, List.length_cons]
            omega
          rw [Option.bind_some, Option.bind_some,
            ih _ (by rw [List.length_cons]; omega) rfl
            (Nat.le_trans hlength (Nat.le_of_succ_le_succ hle)),
            ← ih _ (by rw [List.length_cons]; omega) rfl hlength]

theorem dottedAll_lexical : Lexical fun text => dotted text.length text where
  bounded := (dotted_lexical _).bounded
  typed := (dotted_lexical _).typed
  cut := by
    intro first second n h hle
    rw [← @dotted_eq first (first ++ second).length (by simp)]
    exact (dotted_lexical _).cut h hle
  extend := by
    intro first n second h
    cases hlength : (first ++ second).length <;> rfl
  barrier := by
    intro first second hbarrier
    rw [(dotted_lexical _).barrier first hbarrier]
    exact dotted_eq (by simp)
  recase := by
    intro text text' h
    rw [← h.length_eq]
    exact (dotted_lexical _).recase h

theorem isLetterOf_lexical {letters : String}
    (h : ∀ c ∈ letters.toList, c.toNat < 128 ∧ isWordChar c = true) :
    Lexical (next (isLetterOf letters)) := by
  have hword : ∀ c, isLetterOf letters c = true → isWordChar c = true := by
    intro c hc
    obtain ⟨letter, hletter, hsame⟩ := List.any_eq_true.mp hc
    obtain ⟨hlt, hword⟩ := h letter hletter
    rw [sameUpToCase_comm] at hsame
    rwa [isWordChar_of_sameUpToCase hlt hsame] at hword
  refine next_lexical (fun c hc => isTypedChar_of_isWordChar (hword c hc)) ?_ ?_
  · by_contra hcolon
    rw [Bool.not_eq_false] at hcolon
    exact absurd (hword _ hcolon) (by decide)
  · intro c d hcd
    have : sameUpToCase c = sameUpToCase d := by
      funext letter
      rw [sameUpToCase, sameUpToCase, hcd.foldChar_eq]
    rw [isLetterOf, isLetterOf, this]

theorem addressPlace_lexical : Lexical addressPlace :=
  (char_lexical (by decide) (by decide) (by decide)).alt
    (digits_lexical.seqTotal dottedAll_lexical fun text => by cases text <;> rfl)

theorem directAddress_lexical : Lexical Measure.directAddress := by
  have hsize := (@isLetterOf_lexical "XBWDL" (by decide)).opt.seqGreedy
    addressPlace_lexical (opt_next_greedy _) rfl
  have harea := (@isLetterOf_lexical "IQM" (by decide)).seqGreedy hsize (next_greedy _) rfl
  exact (char_lexical (by decide) (by decide) (by decide)).seqGreedy harea (next_greedy _) rfl

theorem typedWord_lexical : Lexical typedWord :=
  dateAndTime_lexical.alt (timeOfDay_lexical.alt (date_lexical.alt (duration_lexical.alt
    (basedInteger_lexical.alt exponentNumber_lexical))))

end StructuredText.Literal
