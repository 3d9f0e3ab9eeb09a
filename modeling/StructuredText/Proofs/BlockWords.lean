import StructuredText.Line
import StructuredText.Proofs.LiteralEdits

/-!
# The words of blocks

Words that open, continue and close blocks are looked for from word boundary to word boundary. Where
no word goes on from one text into the next, a word stands in both together exactly if it stands in
one of them. So blanks in place of other blanks, or in place of literals, neither make nor break a
word.

Results:
1. `hasWord_iff`: where a word stands.
2. `hasWord_append`: the words of two texts put together.
3. `hasWord_map_congr`: code points that are in no word can be replaced by others.
-/

namespace StructuredText

open List

/-- Whether something holds at some place of a text. -/
theorem somewhereFrom_iff {holds : Cursor → Bool} (text : List Char) :
    ∀ pos before, somewhereFrom holds pos before text = true ↔
      ∃ first second, text = first ++ second ∧
        holds ⟨pos + first.length, first.reverse ++ before, second⟩ = true := by
  induction text with
  | nil =>
    intro pos before
    constructor
    · exact fun h => ⟨[], [], rfl, h⟩
    · rintro ⟨first, second, htext, h⟩
      obtain ⟨rfl, rfl⟩ := append_eq_nil_iff.mp htext.symm
      exact h
  | cons c rest ih =>
    intro pos before
    rw [somewhereFrom, Bool.or_eq_true, ih]
    constructor
    · rintro (h | ⟨first, second, rfl, h⟩)
      · exact ⟨[], c :: rest, rfl, h⟩
      · refine ⟨c :: first, second, rfl, ?_⟩
        simpa [Nat.add_assoc, Nat.add_comm 1] using h
    · rintro ⟨first, second, htext, h⟩
      cases first with
      | nil =>
        cases htext
        exact .inl h
      | cons d first =>
        obtain ⟨rfl, rfl⟩ := cons_eq_cons.mp htext
        refine .inr ⟨first, second, rfl, ?_⟩
        simpa [Nat.add_assoc, Nat.add_comm 1] using h

/-- A word that stands at a place is read there. -/
theorem Cursor.word_append {text block : List Char}
    (h : List.Forall₂ (fun c d => sameUpToCase c d = true) text block) :
    ∀ (pos : Nat) (before after : List Char), Cursor.word text ⟨pos, before, block ++ after⟩ =
      some ⟨pos + block.length, block.reverse ++ before, after⟩ := by
  induction h with
  | nil => exact fun _ _ _ => rfl
  | @cons c d text block hcd _ ih =>
    intro pos before after
    simp only [Cursor.word, Cursor.next, cons_append, hcd, if_true, Option.bind_some, ih]
    simp [Nat.add_assoc, Nat.add_comm 1]

namespace LineKind

/-- Words of ASCII word signs. -/
def AreKeywords (words : List (List Char)) : Prop :=
  ∀ word ∈ words, word ≠ [] ∧ ∀ c ∈ word, c.toNat < 128 ∧ isWordSign c = true

theorem openers_checked : AreKeywords openers := by
  unfold AreKeywords
  decide

theorem continuations_checked : AreKeywords continuations := by
  unfold AreKeywords
  decide

theorem closers_checked : AreKeywords closers := by
  unfold AreKeywords
  decide

/-- One of the words, in any case. -/
def Spells (words : List (List Char)) (block : List Char) : Prop :=
  ∃ word ∈ words, List.Forall₂ (fun c d => sameUpToCase c d = true) word block

variable {words : List (List Char)}

/-- Keywords are made of word characters. -/
theorem Spells.isWordChar {block : List Char} (hwords : AreKeywords words)
    (h : Spells words block) : block ≠ [] ∧ ∀ c ∈ block, isWordChar c = true := by
  obtain ⟨word, hword, hsame⟩ := h
  obtain ⟨hne, hsigns⟩ := hwords word hword
  refine ⟨?_, fun c hc => ?_⟩
  · rintro rfl
    cases hsame
    exact hne rfl
  · have hsign := forall_of_sameUpToCase isWordSign_checked hsigns hsame c hc
    rw [isWordSign, Bool.and_eq_true] at hsign
    exact hsign.1

/-- No word goes on from the first text into the second. -/
def Parted (first second : List Char) : Prop :=
  ∀ c ∈ first.getLast?, ∀ d ∈ second.head?, isWordChar c = false ∨ isWordChar d = false

variable {block : List Char}

/-- A boundary before a word. -/
theorem atWordBoundary_before_iff (hne : block ≠ [])
    (hblock : ∀ c ∈ block, StructuredText.isWordChar c = true) (before after : List Char) :
    atWordBoundary before.reverse (block ++ after) = true ↔
      ∀ c ∈ before.getLast?, StructuredText.isWordChar c = false := by
  obtain ⟨d, block, rfl⟩ := exists_cons_of_ne_nil hne
  rcases eq_nil_or_concat before with rfl | ⟨before, c, rfl⟩
  · simp [atWordBoundary, startsWithWordChar, hblock d mem_cons_self]
  · simp [atWordBoundary, startsWithWordChar, hblock d mem_cons_self]

/-- A boundary behind a word. -/
theorem atWordBoundary_behind_iff (hne : block ≠ [])
    (hblock : ∀ c ∈ block, StructuredText.isWordChar c = true) (before after : List Char) :
    atWordBoundary (block.reverse ++ before) after = true ↔
      ∀ c ∈ after.head?, StructuredText.isWordChar c = false := by
  rcases eq_nil_or_concat block with rfl | ⟨block, d, rfl⟩
  · exact absurd rfl hne
  · have hd := hblock d (by simp)
    cases after with
    | nil | cons c after => simp [atWordBoundary, startsWithWordChar, hd]

section

variable (hwords : AreKeywords words)
include hwords

variable {text first second : List Char}

/-- A word stands where it is spelled out and where no word goes on before and behind it. -/
theorem hasWord_iff :
    hasWord words text = true ↔ ∃ before block after, text = before ++ (block ++ after) ∧
      Spells words block ∧ (∀ c ∈ before.getLast?, StructuredText.isWordChar c = false) ∧
      ∀ c ∈ after.head?, StructuredText.isWordChar c = false := by
  rw [hasWord, occursIn, somewhereFrom_iff]
  constructor
  · rintro ⟨before, rest, rfl, h⟩
    obtain ⟨stop, hstop⟩ := Option.isSome_iff_exists.mp h
    obtain ⟨hstart, hend, word, hword, hread⟩ := Cursor.reads_wholeWord hstop
    obtain ⟨block, hreads, hsame⟩ := Cursor.reads_word hread
    obtain ⟨hne, hblock⟩ := Spells.isWordChar hwords ⟨word, hword, hsame⟩
    have hrest : rest = block ++ stop.after := hreads.after
    subst hrest
    rw [Cursor.atBoundary, append_nil, atWordBoundary_before_iff hne hblock] at hstart
    rw [Cursor.atBoundary, hreads.before, atWordBoundary_behind_iff hne hblock] at hend
    exact ⟨before, block, stop.after, rfl, ⟨word, hword, hsame⟩, hstart, hend⟩
  · rintro ⟨before, block, after, rfl, hspells, hstart, hend⟩
    obtain ⟨hne, hblock⟩ := hspells.isWordChar hwords
    obtain ⟨word, hword, hsame⟩ := hspells
    refine ⟨before, block ++ after, rfl, ?_⟩
    rw [Cursor.wholeWord, findSome?_isSome_iff]
    refine ⟨word, hword, ?_⟩
    have hfirst := (atWordBoundary_before_iff hne hblock before after).mpr hstart
    have hlast := (atWordBoundary_behind_iff hne hblock before.reverse after).mpr hend
    simp [Cursor.boundary, Cursor.atBoundary, Cursor.word_append hsame, hfirst, hlast]

theorem hasWord_mono {others : List (List Char)} (hothers : AreKeywords others)
    (hsub : words ⊆ others) (h : hasWord words text = true) : hasWord others text = true := by
  obtain ⟨before, block, after, rfl, ⟨word, hword, hsame⟩, hstart, hend⟩ :=
    (hasWord_iff hwords).mp h
  exact (hasWord_iff hothers).mpr
    ⟨before, block, after, rfl, ⟨word, hsub hword, hsame⟩, hstart, hend⟩

/-- A text without word characters holds no word. -/
theorem hasWord_eq_false (h : ∀ c ∈ text, StructuredText.isWordChar c = false) :
    hasWord words text = false := by
  rw [Bool.eq_false_iff]
  intro hword
  obtain ⟨before, block, after, rfl, hspells, -⟩ := (hasWord_iff hwords).mp hword
  obtain ⟨hne, hblock⟩ := hspells.isWordChar hwords
  obtain ⟨c, block, rfl⟩ := exists_cons_of_ne_nil hne
  have hc := h c (by simp)
  rw [hblock c mem_cons_self] at hc
  cases hc

/-- A word of the first text stands in both together. -/
theorem hasWord_append_left (h : hasWord words first = true) (hparted : Parted first second) :
    hasWord words (first ++ second) = true := by
  obtain ⟨before, block, after, rfl, hspells, hstart, hend⟩ := (hasWord_iff hwords).mp h
  refine (hasWord_iff hwords).mpr ⟨before, block, after ++ second, by simp, hspells, hstart, ?_⟩
  cases after with
  | cons c after => exact hend
  | nil =>
    -- The word ends with the first text.
    obtain ⟨hne, hblock⟩ := hspells.isWordChar hwords
    intro d hd
    refine (hparted (block.getLast hne) ?_ d hd).resolve_left ?_
    · rw [append_nil, getLast?_append_of_ne_nil _ hne]
      exact getLast?_eq_some_getLast hne
    · rw [hblock _ (getLast_mem hne)]
      decide

/-- A word of the second text stands in both together. -/
theorem hasWord_append_right (h : hasWord words second = true) (hparted : Parted first second) :
    hasWord words (first ++ second) = true := by
  obtain ⟨before, block, after, rfl, hspells, hstart, hend⟩ := (hasWord_iff hwords).mp h
  refine (hasWord_iff hwords).mpr ⟨first ++ before, block, after, by simp, hspells, ?_, hend⟩
  rcases eq_nil_or_concat before with rfl | ⟨before, c, rfl⟩
  · -- The word starts with the second text.
    obtain ⟨hne, hblock⟩ := hspells.isWordChar hwords
    obtain ⟨d, block, rfl⟩ := exists_cons_of_ne_nil hne
    intro c hc
    rw [append_nil] at hc
    refine (hparted c hc d rfl).resolve_right ?_
    rw [hblock d mem_cons_self]
    decide
  · intro d hd
    refine hstart d ?_
    rw [concat_eq_append] at hd ⊢
    rwa [← append_assoc, getLast?_concat, ← getLast?_concat] at hd

/-- The words of two texts between which no word goes on. -/
theorem hasWord_append {first second : List Char} (hparted : Parted first second) :
    hasWord words (first ++ second) = (hasWord words first || hasWord words second) := by
  rw [Bool.eq_iff_iff, Bool.or_eq_true]
  constructor
  · intro h
    obtain ⟨before, block, after, htext, hspells, hstart, hend⟩ := (hasWord_iff hwords).mp h
    obtain ⟨hne, hblock⟩ := hspells.isWordChar hwords
    rcases append_eq_append_iff.mp htext with ⟨gap, rfl, hsecond⟩ | ⟨gap, rfl, hrest⟩
    · -- The word lies in the second text.
      refine .inr ((hasWord_iff hwords).mpr ⟨gap, block, after, hsecond, hspells, ?_, hend⟩)
      intro c hc
      refine hstart c ?_
      rw [getLast?_append, Option.mem_def.mp hc]
      rfl
    · rcases append_eq_append_iff.mp hrest with ⟨tail, rfl, hafter⟩ | ⟨tail, rfl, rfl⟩
      · -- The word lies in the first text.
        refine .inl ((hasWord_iff hwords).mpr ⟨before, block, tail, rfl, hspells, hstart, ?_⟩)
        intro c hc
        refine hend c ?_
        rw [hafter, head?_append, Option.mem_def.mp hc]
        rfl
      · cases tail with
        | nil =>
          rw [append_nil] at hspells
          exact .inl ((hasWord_iff hwords).mpr ⟨before, gap, [], by simp, hspells, hstart, by simp⟩)
        | cons d tail =>
          cases gap with
          | nil =>
            exact .inr ((hasWord_iff hwords).mpr ⟨[], d :: tail, after, rfl,
              hspells, by simp, hend⟩)
          | cons c gap =>
            -- The word would start in the first text and go on into the second.
            have hlast := getLast?_eq_some_getLast (cons_ne_nil c gap)
            have hboth := hparted _ (by rw [getLast?_append, hlast]; rfl) d rfl
            rw [hblock _ (mem_append_left _ (getLast_mem (cons_ne_nil c gap))),
              hblock d (by simp)] at hboth
            simp at hboth
  · rintro (h | h)
    · exact hasWord_append_left hwords h hparted
    · exact hasWord_append_right hwords h hparted

/-- The words of two texts with something between them that is in no word. -/
theorem hasWord_gap {gap : List Char} (hne : gap ≠ [])
    (hgap : ∀ c ∈ gap, StructuredText.isWordChar c = false) (first second : List Char) :
    hasWord words (first ++ (gap ++ second)) = (hasWord words first || hasWord words second) := by
  have hbehind : Parted gap second := fun c hc _ _ => .inl (hgap c (mem_of_getLast? hc))
  have hbefore : Parted first (gap ++ second) := by
    intro _ _ d hd
    obtain ⟨c, gap, rfl⟩ := exists_cons_of_ne_nil hne
    cases hd
    exact .inr (hgap _ mem_cons_self)
  rw [hasWord_append hwords hbefore, hasWord_append hwords hbehind, hasWord_eq_false hwords hgap,
    Bool.false_or]

/-- Code points that are in no word can be replaced by others. -/
theorem hasWord_map_congr {α : Type} {f g : α → Char}
    (h : ∀ x, f x = g x ∨
      StructuredText.isWordChar (f x) = false ∧ StructuredText.isWordChar (g x) = false)
    (items : List α) : ∀ first : List Char,
    hasWord words (first ++ items.map f) = hasWord words (first ++ items.map g) := by
  induction items with
  | nil => exact fun _ => rfl
  | cons x items ih =>
    intro first
    rcases h x with hsame | ⟨hf, hg⟩
    · rw [map_cons, map_cons, hsame]
      simpa using ih (first ++ [g x])
    · have hgap := fun c hc => @hasWord_gap words hwords [c] (cons_ne_nil c [])
        (by simpa using hc) first
      have hrest := ih []
      simp only [singleton_append, nil_append] at hgap hrest
      rw [map_cons, map_cons, hgap _ hf, hgap _ hg, hrest]

/-- Blanks around a text hold no word. -/
theorem hasWord_trim (text : List Char) :
    hasWord words (trim text) = hasWord words text := by
  obtain ⟨blanks, hright, hblanks⟩ := trimRight_append_blanks (trimLeft text)
  have hleading : ∀ c ∈ text.takeWhile isBlank, StructuredText.isWordChar c = false :=
    fun c hc => isWordChar_of_isBlank (mem_takeWhile_imp hc)
  have htrailing : ∀ c ∈ blanks, StructuredText.isWordChar c = false :=
    fun c hc => isWordChar_of_isBlank (hblanks c hc)
  have hfirst := @hasWord_append words hwords (text.takeWhile isBlank) (trimLeft text)
    fun c hc _ _ => .inl (hleading c (mem_of_getLast? hc))
  have hlast := @hasWord_append words hwords (trim text) blanks
    fun _ _ d hd => .inr (htrailing d (mem_of_head? hd))
  rw [trim, ← hright, hasWord_eq_false hwords htrailing, Bool.or_false] at hlast
  rw [trimLeft, takeWhile_append_dropWhile, hasWord_eq_false hwords hleading,
    Bool.false_or] at hfirst
  rw [hfirst, ← trimLeft, hlast, trim]

end

end LineKind

end StructuredText
