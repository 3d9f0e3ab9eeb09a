import StructuredText.Proofs.Describing
import StructuredText.Proofs.ParenthesisRules
import StructuredText.Proofs.Recasing
import StructuredText.Proofs.Totality

/-!
# Words in capitals

The words that are written in capitals are those that an entry of the vocabulary describes as a
whole, with some conditions on what follows. The entries are tried in order and with backtracking,
but as a match starts and ends at word boundaries, it is a whole word, and which of the entries
gives it makes no difference.

Results:
1. `Vocabulary.exists_casing`: what the pattern for words in capitals describes.
2. `Vocabulary.recognize_casing`: what it finds is a word that counts, perhaps with a number sign.
3. `Vocabulary.recognize_casing_ne_none`: it finds every word that counts.
-/

namespace StructuredText

open List

variable {before text rest word : List Char}

namespace Pattern

variable {patterns : List Pattern} {pattern : Pattern}

/-! ## Patterns for words -/

/-- The pattern has no conditions on the place. -/
def isClosed : Pattern → Bool
  | .empty | .one _ => true
  | .seq first second | .either first second => first.isClosed && second.isClosed
  | .repeated body _ _ _ => body.isClosed
  | .anchor _ | .group _ _ | .reference _ _ | .ahead _ _ | .behind _ _ _ | .atomic _
  | .conditional _ _ _ => false

theorem Repeats.imp {language language' : List Char → List Char → List Char → Prop}
    (himp : ∀ before text rest before' rest', language before text rest →
      language' before' text rest') {least : Nat} {most : Option Nat} {before text rest : List Char}
    (h : Repeats language least most before text rest) :
    ∀ before' rest', Repeats language' least most before' text rest' := by
  induction h with
  | stop => exact fun _ _ => .stop
  | round hlimit htext _ ih => exact fun _ _ => .round hlimit (himp _ _ _ _ _ htext) (ih _ _)

/-- A pattern without conditions describes the same texts in all places. -/
theorem Describes.of_isClosed (hclosed : pattern.isClosed = true) :
    ∀ {before text rest before' rest' : List Char}, pattern.Describes before text rest →
      pattern.Describes before' text rest' := by
  induction pattern with
  | empty | one set => exact fun h => h
  | seq first second ihfirst ihsecond =>
    rw [isClosed, Bool.and_eq_true] at hclosed
    rintro before text rest before' rest' ⟨start, later, rfl, hstart, hlater⟩
    exact ⟨start, later, rfl, ihfirst hclosed.1 hstart, ihsecond hclosed.2 hlater⟩
  | either first second ihfirst ihsecond =>
    rw [isClosed, Bool.and_eq_true] at hclosed
    exact fun h => h.imp (ihfirst hclosed.1) (ihsecond hclosed.2)
  | repeated body least most greedy ih =>
    exact fun h =>
      @Repeats.imp body.Describes body.Describes (fun _ _ _ _ _ => ih hclosed) _ _ _ _ _ h _ _
  | anchor condition | group index body | reference index rule | ahead wanted body
  | behind wanted width body | atomic body | conditional index present absent => cases hclosed

theorem Repeats.exists_texts {language : List Char → List Char → List Char → Prop}
    {good : List Char → Prop} (hgood : ∀ before text rest, language before text rest → good text)
    {least : Nat} {most : Option Nat} {before text rest : List Char}
    (h : Repeats language least most before text rest) :
    ∃ texts : List (List Char), (∀ part ∈ texts, good part) ∧ least ≤ texts.length ∧
      text = texts.flatten := by
  induction h with
  | stop => exact ⟨[], by simp, Nat.le_refl _, rfl⟩
  | round _ htext _ ih =>
    obtain ⟨texts, htexts, hleast, rfl⟩ := ih
    refine ⟨_ :: texts, forall_mem_cons.mpr ⟨hgood _ _ _ htext, htexts⟩, ?_, rfl⟩
    rw [length_cons]
    omega

/-- What a pattern describes in a place is one of its texts. -/
theorem Describes.matches : ∀ {before text rest : List Char},
    pattern.Describes before text rest → pattern.Matches text := by
  induction pattern with
  | empty =>
    rintro before text rest rfl
    exact .empty
  | one set =>
    rintro before text rest ⟨c, rfl, hc⟩
    exact .one hc
  | anchor condition =>
    rintro before text rest ⟨rfl, -⟩
    exact .anchor
  | seq first second ihfirst ihsecond =>
    rintro before text rest ⟨start, later, rfl, hstart, hlater⟩
    exact .seq (ihfirst hstart) (ihsecond hlater)
  | either first second ihfirst ihsecond =>
    rintro before text rest (hfirst | hsecond)
    · exact .left (ihfirst hfirst)
    · exact .right (ihsecond hsecond)
  | repeated body least most greedy ih =>
    intro before text rest h
    obtain ⟨texts, htexts, hleast, rfl⟩ :=
      @Repeats.exists_texts body.Describes body.Matches (fun _ _ _ => ih) _ _ _ _ _ h
    exact .repeated htexts hleast
  | ahead wanted body ih =>
    cases wanted with
    | false => exact fun h => h.elim
    | true =>
      rintro before text rest ⟨rfl, -⟩
      exact .ahead
  | group index body | reference index rule | behind wanted width body | atomic body
  | conditional index present absent => exact fun h => h.elim

/-- A pattern for words of letters and underscores. -/
def isName (pattern : Pattern) : Bool :=
  pattern.isDirect && pattern.isClosed && pattern.consumes && pattern.readsOnly isWordSet

theorem isPlainSet_of_isWordSet {set : CharSet} (h : isWordSet set = true) :
    isPlainSet set = true := by
  simp only [isWordSet, Bool.and_eq_true, all_eq_true] at h
  simp only [isPlainSet, Bool.and_eq_true, all_eq_true]
  refine ⟨h.1, fun item hitem => ?_⟩
  have hrange := h.2 item hitem
  cases item with
  | category kind inside => cases hrange
  | range low high =>
    simp only [Bool.or_eq_true, Bool.and_eq_true, decide_eq_true_eq, beq_iff_eq] at hrange ⊢
    omega

theorem readsOnly_imp {p q : CharSet → Bool} (himp : ∀ set, p set = true → q set = true)
    (h : pattern.readsOnly p = true) : pattern.readsOnly q = true := by
  induction pattern with
  | empty => rfl
  | one set => exact himp set h
  | anchor condition => rfl
  | seq first second ihfirst ihsecond =>
    rw [readsOnly, Bool.and_eq_true] at h ⊢
    exact ⟨ihfirst h.1, ihsecond h.2⟩
  | either first second ihfirst ihsecond =>
    rw [readsOnly, Bool.and_eq_true] at h ⊢
    exact ⟨ihfirst h.1, ihsecond h.2⟩
  | repeated body least most greedy ih | group index body ih => exact ih h
  | reference index rule => cases h
  | ahead wanted body | behind wanted width body => rfl
  | atomic body ih => exact ih h
  | conditional index present absent ihpresent ihabsent =>
    rw [readsOnly, Bool.and_eq_true] at h ⊢
    exact ⟨ihpresent h.1, ihabsent h.2⟩

theorem describes_choice :
    (choice patterns).Describes before text rest ↔
      ∃ pattern ∈ patterns, pattern.Describes before text rest := by
  induction patterns using choice.induct with
  | case1 => simp [choice, Describes, CharSet.holds]
  | case2 pattern => simp [choice]
  | case3 pattern patterns hne ih =>
    rw [choice]
    · simp [Describes, ih]
    · exact hne

/-- What holds of alternatives holds of the choice between them. -/
theorem choice_of_forall {f : Pattern → Bool} (hnone : f (.one ⟨[], false, false⟩) = true)
    (heither : ∀ first second, f first = true → f second = true → f (.either first second) = true)
    (h : ∀ pattern ∈ patterns, f pattern = true) :
    f (choice patterns) = true := by
  induction patterns using choice.induct with
  | case1 => exact hnone
  | case2 pattern => exact h pattern mem_cons_self
  | case3 pattern patterns hne ih =>
    obtain ⟨hfirst, hrest⟩ := forall_mem_cons.mp h
    rw [choice]
    · exact heither _ _ hfirst (ih hrest)
    · exact hne

/-- The search for the pattern is exact, and reads plain code points, one at least. -/
def isSearchable (pattern : Pattern) : Bool :=
  pattern.isDirect && pattern.consumes && pattern.readsOnly isPlainSet

theorem isClosed_of_isName (h : pattern.isName = true) : pattern.isClosed = true := by
  simp only [isName, Bool.and_eq_true] at h
  exact h.1.1.2

theorem isSearchable_of_isName (h : pattern.isName = true) : pattern.isSearchable = true := by
  simp only [isName, Bool.and_eq_true] at h
  obtain ⟨⟨⟨hdirect, -⟩, hconsumes⟩, hword⟩ := h
  simp only [isSearchable, Bool.and_eq_true]
  exact ⟨⟨hdirect, hconsumes⟩, readsOnly_imp (fun _ => isPlainSet_of_isWordSet) hword⟩

theorem isSearchable_choice (h : ∀ pattern ∈ patterns, pattern.isSearchable = true) :
    (choice patterns).isSearchable = true := by
  refine choice_of_forall (by rfl) (fun first second hfirst hsecond => ?_) h
  simp only [isSearchable, isDirect, consumes, readsOnly, Bool.and_eq_true] at hfirst hsecond ⊢
  exact ⟨⟨⟨hfirst.1.1, hsecond.1.1⟩, hfirst.1.2, hsecond.1.2⟩, hfirst.2, hsecond.2⟩

variable {first second : Pattern}

/-- What stands in front or behind may read nothing. -/
theorem isSearchable_seq (hfirst : first.isDirect = true)
    (hreads : first.readsOnly isPlainSet = true) (hsecond : second.isSearchable = true) :
    (Pattern.seq first second).isSearchable = true := by
  simp only [isSearchable, isDirect, consumes, readsOnly, Bool.and_eq_true, Bool.or_eq_true]
    at hsecond ⊢
  exact ⟨⟨⟨hfirst, hsecond.1.1⟩, .inr hsecond.1.2⟩, hreads, hsecond.2⟩

theorem isSearchable_seq_left (hfirst : first.isSearchable = true)
    (hsecond : second.isDirect = true) (hreads : second.readsOnly isPlainSet = true) :
    (Pattern.seq first second).isSearchable = true := by
  simp only [isSearchable, isDirect, consumes, readsOnly, Bool.and_eq_true, Bool.or_eq_true]
    at hfirst ⊢
  exact ⟨⟨⟨hfirst.1.1, hsecond⟩, .inl hfirst.1.2⟩, hfirst.2, hreads⟩

/-! ## Single code points -/

/-- The signs of the pieces that are not taken from entries. -/
def pieceSigns : List Char :=
  "END_TO#".toList

theorem char_checked :
    (pieceSigns.all fun c => plainPoints.all fun n =>
      (⟨[.single c], false, true⟩ : CharSet).holds (Char.ofNat n) ==
        sameUpToCase c (Char.ofNat n)) = true := by
  decide +kernel

/-- A letter up to case. -/
theorem holds_single {c : Char} (hc : c ∈ pieceSigns) (d : Char) :
    (⟨[.single c], false, true⟩ : CharSet).holds d = sameUpToCase c d := by
  have hset : c.toNat < 128 ∧ isPlainSet ⟨[.single c], false, true⟩ = true := by
    revert c
    decide
  by_cases hd : isPlain d
  · exact beq_iff_eq.mp (@forall_plain (fun e =>
      (⟨[.single c], false, true⟩ : CharSet).holds e == sameUpToCase c e)
      (all_eq_true.mp char_checked c hc) d hd)
  · rw [Bool.eq_false_iff.mpr fun h => hd (isPlain_of_holds hset.2 h).1,
      Bool.eq_false_iff.mpr fun h => hd (isPlain_of_sameUpToCase hset.1 h)]

theorem digitSet_checked :
    (plainPoints.all fun n => (⟨[.range 48 57], false, true⟩ : CharSet).holds (Char.ofNat n) ==
      decide ('0' ≤ Char.ofNat n ∧ Char.ofNat n ≤ '9')) = true := by
  decide +kernel

/-- The ten digits have no case. -/
theorem holds_digits (d : Char) :
    (⟨[.range 48 57], false, true⟩ : CharSet).holds d = true ↔ '0' ≤ d ∧ d ≤ '9' := by
  by_cases hd : isPlain d
  · rw [beq_iff_eq.mp (@forall_plain (fun e => (⟨[.range 48 57], false, true⟩ : CharSet).holds e ==
      decide ('0' ≤ e ∧ e ≤ '9')) digitSet_checked d hd), decide_eq_true_eq]
  · constructor
    · exact fun h => absurd (isPlain_of_holds rfl h).1 hd
    · exact fun h => absurd (isPlain_of_lt (Nat.lt_of_le_of_lt h.2 (by decide))) hd

/-! ## The pieces that are not taken from entries -/

theorem describes_sequence_cons :
    (sequence (pattern :: patterns)).Describes before text rest ↔
      ∃ start later, text = start ++ later ∧ pattern.Describes before start (later ++ rest) ∧
        (sequence patterns).Describes (start.reverse ++ before) later rest := by
  cases patterns with
  | nil =>
    constructor
    · exact fun h => ⟨text, [], by simp, h, rfl⟩
    · rintro ⟨start, later, rfl, hstart, rfl⟩
      rw [append_nil]
      exact hstart
  | cons other patterns => rfl

theorem describes_bounded {body : Pattern} :
    (sequence [.anchor .boundary, body, .anchor .boundary]).Describes before text rest ↔
      atWordBoundary before (text ++ rest) = true ∧ body.Describes before text rest ∧
        atWordBoundary (text.reverse ++ before) rest = true := by
  constructor
  · rintro ⟨_, _, rfl, ⟨rfl, hstart⟩, start, _, rfl, htext, rfl, hstop⟩
    rw [append_nil] at hstart
    rw [nil_append, append_nil]
    exact ⟨hstart, htext, hstop⟩
  · rintro ⟨hstart, htext, hstop⟩
    exact ⟨[], text, rfl, ⟨rfl, hstart⟩, text, [], by simp, htext, rfl, hstop⟩

/-- A text of signs is described up to case. -/
theorem describes_literal (hword : ∀ c ∈ word, c ∈ pieceSigns) :
    ∀ {before text rest : List Char}, (literal word true).Describes before text rest ↔
      List.Forall₂ (fun c d => sameUpToCase c d = true) word text := by
  induction word with
  | nil =>
    intro before text rest
    rw [forall₂_nil_left_iff]
    rfl
  | cons c word ih =>
    obtain ⟨hc, hword⟩ := forall_mem_cons.mp hword
    intro before text rest
    rw [literal, map_cons, describes_sequence_cons, forall₂_cons_left_iff]
    constructor
    · rintro ⟨_, later, rfl, ⟨d, rfl, hd⟩, hlater⟩
      exact ⟨d, later, by rwa [holds_single hc] at hd, (ih hword).mp hlater, rfl⟩
    · rintro ⟨d, later, hd, hlater, rfl⟩
      exact ⟨[d], later, rfl, ⟨d, rfl, by rwa [holds_single hc]⟩, (ih hword).mpr hlater⟩

/-- An optional `END_`. -/
theorem describes_blockEnd :
    Vocabulary.blockEnd.Describes before text rest ↔
      text = [] ∨ List.Forall₂ (fun c d => sameUpToCase c d = true) "END_".toList text := by
  have hsigns : ∀ c ∈ "END_".toList, c ∈ pieceSigns := by decide
  constructor
  · intro h
    cases (show Repeats _ 0 (some 1) before text rest from h) with
    | stop => exact .inl rfl
    | round _ htext hlater =>
      cases (show Repeats _ 0 (some 0) _ _ rest from hlater) with
      | stop => exact .inr (by rw [append_nil]; exact (describes_literal hsigns).mp htext)
      | round hlimit _ _ => exact absurd rfl hlimit
  · rintro (rfl | htext)
    · exact Repeats.stop
    · rw [← append_nil text]
      exact Repeats.round (by decide) ((describes_literal hsigns).mpr htext) .stop

theorem describes_blankRun {gap : List Char} (hblank : ∀ c ∈ gap, isBlank c = true) :
    ∀ before rest, (Vocabulary.blankRun 0).Describes before gap rest := by
  induction gap with
  | nil => exact fun _ _ => Repeats.stop
  | cons c gap ih =>
    obtain ⟨hc, hgap⟩ := forall_mem_cons.mp hblank
    have hset : (⟨[.category .blank true], false, true⟩ : CharSet).holds c = true := by
      simp [CharSet.holds, SetItem.holds, Category.holds, hc]
    exact fun before rest =>
      @Repeats.round _ 0 none before [c] gap rest (by decide) ⟨c, rfl, hset⟩ (ih hgap _ _)

/-- Blanks and then a parenthesis. -/
theorem describes_parenthesis :
    (Pattern.ahead true (.seq (Vocabulary.blankRun 0) Vocabulary.parenthesis)).Describes before text
      rest ↔ text = [] ∧ (rest.dropWhile isBlank).head? = some '(' := by
  refine and_congr_right fun _ => ?_
  constructor
  · rintro ⟨next, later, rfl, gap, sign, rfl, hgap, hsign⟩
    have hblank := hgap.matches.blankRun
    rw [hsign.matches.parenthesis, append_assoc, dropWhile_append_of_pos hblank]
    rfl
  · intro hhead
    obtain ⟨later, hlater⟩ := head?_eq_some_iff.mp hhead
    have hrest : rest = (rest.takeWhile isBlank ++ ['(']) ++ later := by
      rw [append_assoc, singleton_append, ← hlater, takeWhile_append_dropWhile]
    exact ⟨_, later, hrest, _, _, rfl, describes_blankRun (fun c hc =>
      mem_takeWhile_imp hc) _ _, '(', rfl, by decide +kernel⟩

end Pattern

/-! ## Whole words -/

/-- A run of word characters that no other word characters adjoin. -/
structure IsWord (before word rest : List Char) : Prop where
  ne_nil : word ≠ []
  isWordChar : ∀ c ∈ word, isWordChar c = true
  starts : startsWithWordChar before = false
  ends : startsWithWordChar rest = false

/-- No word goes on where one ends. -/
theorem ends_of_atBoundary (hne : word ≠ []) (hword : ∀ c ∈ word, isWordChar c = true) :
    atWordBoundary (word.reverse ++ before) rest = true ↔ startsWithWordChar rest = false := by
  obtain ⟨word, c, rfl⟩ := eq_nil_or_concat word |>.resolve_left hne
  rw [atWordBoundary, concat_eq_append, reverse_append, reverse_singleton,
    singleton_append, cons_append, startsWithWordChar, hword c (by simp)]
  simp

namespace Vocabulary

open Pattern LineKind

variable {pattern : Pattern}

/-! ## The opening of a date -/

/-- The entry for the openings of date and time literals. -/
def dateEntry : String :=
  "(?:T|DT|TOD|D)#(?=[0-9])"

def dateNames : List (List Char) :=
  ["T".toList, "DT".toList, "TOD".toList, "D".toList]

def dateOpening : Pattern :=
  .seq (.choice (dateNames.map (.literal · true)))
    (.seq (.char '#' true) (.ahead true (.one ⟨[.range 48 57], false, true⟩)))

theorem entryPattern_dateEntry [Host] : entryPattern dateEntry = .ok dateOpening := by
  rw [entryPattern, parse_host _ Host.plain (by decide)]
  decide +kernel

/-- The word opens a date or time literal. -/
def OpensDate (word rest : List Char) : Prop :=
  Spells dateNames word ∧ ∃ digit later, rest = '#' :: digit :: later ∧ '0' ≤ digit ∧ digit ≤ '9'

theorem describes_dateOpening :
    dateOpening.Describes before text rest ↔
      ∃ name, text = name ++ ['#'] ∧ OpensDate name ('#' :: rest) := by
  have hsigns : ∀ name ∈ dateNames, ∀ c ∈ name, c ∈ pieceSigns := by decide
  have hnumber : ∀ d, sameUpToCase '#' d = true → d = '#' := by
    intro d hd
    exact beq_iff_eq.mp (@eq_of_sameUpToCase (· == '#') (by decide +kernel) '#'
      d (by decide) hd).symm
  constructor
  · rintro ⟨name, _, rfl, hname, _, _, rfl, ⟨d, rfl, hd⟩, rfl, _, later, hrest, digit, rfl, hdigit⟩
    rw [holds_single (by decide)] at hd
    obtain rfl := hnumber d hd
    obtain ⟨_, hmem, hname⟩ := describes_choice.mp hname
    obtain ⟨word, hword, rfl⟩ := mem_map.mp hmem
    refine ⟨name, by simp, ⟨word, hword, (describes_literal (hsigns word hword)).mp hname⟩, ?_⟩
    exact ⟨digit, later, by simpa using hrest, (holds_digits digit).mp hdigit⟩
  · rintro ⟨name, rfl, ⟨word, hword, hname⟩, digit, later, hrest, hdigit⟩
    obtain rfl := (List.cons.inj hrest).2
    refine ⟨name, ['#'], rfl, ?_, ['#'], [], rfl, ⟨'#', rfl, by decide +kernel⟩, rfl,
      [digit], later, rfl, digit, rfl, (holds_digits digit).mpr hdigit⟩
    exact describes_choice.mpr
      ⟨_, mem_map_of_mem hword, (describes_literal (hsigns word hword)).mpr hname⟩

/-! ## Words that count -/

/-- The entry describes the word as a whole. -/
def Names [Host] (entry : String) (word : List Char) : Prop :=
  ∃ pattern, entryPattern entry = .ok pattern ∧ pattern.Describes [] word []

/-- A word that an entry of the vocabulary describes, where `rest` follows. -/
inductive Named [Host] (vocabulary : Vocabulary) : (word rest : List Char) → Prop
  | type {entry : String} {word rest : List Char} :
      entry ∈ vocabulary.types → Names entry word → Named vocabulary word rest
  | keyword {entry : String} {word rest : List Char} :
      entry ∈ vocabulary.keywords → Names entry word → Named vocabulary word rest
  | block {entry : String} {word rest : List Char} :
      entry ∈ vocabulary.blockNames → Names entry word → Named vocabulary word rest
  | blockEnd {entry : String} {ending name rest : List Char} :
      entry ∈ vocabulary.blockNames → Spells ["END_".toList] ending → Names entry name →
      Named vocabulary (ending ++ name) rest
  | function {entry : String} {word rest : List Char} :
      entry ∈ vocabulary.functions → Names entry word →
      (rest.dropWhile isBlank).head? = some '(' → Named vocabulary word rest

/-- The word is to be written in capitals where `rest` follows. -/
def Counts [Host] (vocabulary : Vocabulary) (word rest : List Char) : Prop :=
  Named vocabulary word rest ∨ OpensDate word rest

/-- The entries are patterns for words, but for the openings of dates among the keywords. -/
structure OfWords [Host] (vocabulary : Vocabulary) : Prop where
  flagless : vocabulary.Flagless
  levels : ∀ field, ∀ entry ∈ vocabulary.entries field, ∀ now < 4, Levels now entry.toList
  date : dateEntry ∈ vocabulary.keywords
  isName : ∀ field, ∀ entry ∈ vocabulary.entries field, field = .keywords ∧ entry = dateEntry ∨
    (entryPattern entry).toOption.any isName = true

theorem standard_checked :
    ∀ field ∈ Field.all, ∀ entry ∈ standard.entries field,
      (∀ now < 4, Levels now entry.toList) ∧ (field = .keywords ∧ entry = dateEntry ∨
        (@entryPattern Host.plain entry).toOption.any Pattern.isName = true) := by
  decide +kernel

theorem standard_ofWords [Host] : standard.OfWords where
  flagless := standard_isValid.2.flagless
  levels := fun field entry hentry => (standard_checked field field.mem_all entry hentry).1
  date := by decide
  isName := by
    intro field entry hentry
    have hhomely := standard_isHomely.1 field field.mem_all entry hentry
    rw [entryPattern, parse_host _ Host.plain hhomely.unescaped]
    exact (standard_checked field field.mem_all entry hentry).2

/-- The entries of the vocabularies are the same, in any order. -/
def SameEntries (vocabulary other : Vocabulary) : Prop :=
  ∀ field entry, entry ∈ vocabulary.entries field ↔ entry ∈ other.entries field

namespace SameEntries

variable {vocabulary other : Vocabulary}

theorem ofWords [Host] (h : SameEntries vocabulary other) (hother : other.OfWords) :
    vocabulary.OfWords where
  flagless := fun field entry hentry => hother.flagless field entry ((h field entry).mp hentry)
  levels := fun field entry hentry => hother.levels field entry ((h field entry).mp hentry)
  date := (h .keywords dateEntry).mpr hother.date
  isName := fun field entry hentry => hother.isName field entry ((h field entry).mp hentry)

theorem symm (h : SameEntries vocabulary other) : SameEntries other vocabulary :=
  fun field entry => (h field entry).symm

theorem counts [Host] (h : SameEntries vocabulary other) (hcounts : Counts vocabulary word rest) :
    Counts other word rest := by
  refine hcounts.imp_left fun hnamed => ?_
  cases hnamed with
  | type hentry hnames => exact .type ((h .types _).mp hentry) hnames
  | keyword hentry hnames => exact .keyword ((h .keywords _).mp hentry) hnames
  | block hentry hnames => exact .block ((h .blockNames _).mp hentry) hnames
  | blockEnd hentry hending hnames => exact .blockEnd ((h .blockNames _).mp hentry) hending hnames
  | function hentry hnames hhead => exact .function ((h .functions _).mp hentry) hnames hhead

theorem counts_iff [Host] (h : SameEntries vocabulary other) (word rest : List Char) :
    Counts vocabulary word rest ↔ Counts other word rest :=
  ⟨h.counts, h.symm.counts⟩

end SameEntries

theorem exists_entryPatterns_iff [Host] {entries : List String}
    (h : ∀ entry ∈ entries, ∃ pattern, entryPattern entry = .ok pattern) :
    ∃ patterns, entryPatterns entries = .ok patterns ∧
      ∀ pattern, pattern ∈ patterns ↔ ∃ entry ∈ entries, entryPattern entry = .ok pattern := by
  induction entries with
  | nil => exact ⟨[], rfl, by simp⟩
  | cons entry entries ih =>
    obtain ⟨⟨pattern, hpattern⟩, hentries⟩ := forall_mem_cons.mp h
    obtain ⟨patterns, hpatterns, hmem⟩ := ih hentries
    refine ⟨pattern :: patterns, ?_, ?_⟩
    · rw [entryPatterns] at hpatterns
      rw [entryPatterns, mapM_cons, hpattern, hpatterns]
      rfl
    · intro other
      rw [mem_cons, hmem, exists_mem_cons_iff, hpattern]
      simp [eq_comm]

/-! ## The combined pattern -/

variable {vocabulary : Vocabulary}

theorem exists_of_isName [Host] {entry : String}
    (h : (entryPattern entry).toOption.any Pattern.isName = true) :
    ∃ pattern, entryPattern entry = .ok pattern ∧ pattern.isName = true := by
  cases hpattern : entryPattern entry with
  | error fault =>
    rw [hpattern] at h
    cases h
  | ok pattern =>
    rw [hpattern] at h
    exact ⟨pattern, rfl, h⟩

/-- The openings of dates are no words by themselves. -/
theorem not_describes_dateOpening : ¬ dateOpening.Describes before word [] := by
  intro hword
  obtain ⟨name, -, -, digit, later, hrest, -⟩ := describes_dateOpening.mp hword
  cases (List.cons.inj hrest).2

/-- What an entry for words describes is a word. -/
theorem OfWords.isWordChar [Host] (h : vocabulary.OfWords) {field : Field} {entry : String}
    (hentry : entry ∈ vocabulary.entries field) {word : List Char} (hnames : Names entry word) :
    word ≠ [] ∧ ∀ c ∈ word, isWordChar c = true := by
  obtain ⟨pattern, hpattern, hword⟩ := hnames
  rcases h.isName field entry hentry with ⟨-, rfl⟩ | hname
  · cases hpattern.symm.trans entryPattern_dateEntry
    exact absurd hword not_describes_dateOpening
  · obtain ⟨_, hpattern', hname⟩ := exists_of_isName hname
    cases hpattern.symm.trans hpattern'
    simp only [Pattern.isName, Bool.and_eq_true] at hname
    exact ⟨hword.ne_nil hname.1.2, hword.matches.mem_of_readsOnly
      (fun _ hset _ hc => isWordChar_of_holds hset hc) hname.2⟩

theorem OfWords.exists_patterns [Host] (h : vocabulary.OfWords) (field : Field) :
    ∃ patterns, entryPatterns (vocabulary.entries field) = .ok patterns ∧
      (∀ pattern ∈ patterns, pattern.isSearchable = true) ∧
      ∀ before text rest, (∃ pattern ∈ patterns, pattern.Describes before text rest) ↔
        (∃ entry ∈ vocabulary.entries field, Names entry text) ∨
          field = .keywords ∧ ∃ name, text = name ++ ['#'] ∧ OpensDate name ('#' :: rest) := by
  have hentry : ∀ entry ∈ vocabulary.entries field, ∃ pattern, entryPattern entry = .ok pattern ∧
      (field = .keywords ∧ entry = dateEntry ∨ pattern.isName = true) := by
    intro entry hentry
    rcases h.isName field entry hentry with hdate | hname
    · exact ⟨dateOpening, by rw [hdate.2, entryPattern_dateEntry], .inl hdate⟩
    · obtain ⟨pattern, hpattern, hname⟩ := exists_of_isName hname
      exact ⟨pattern, hpattern, .inr hname⟩
  obtain ⟨patterns, hpatterns, hmem⟩ := exists_entryPatterns_iff fun entry hmem =>
    (hentry entry hmem).imp fun _ => And.left
  have hcases : ∀ pattern ∈ patterns, field = .keywords ∧ pattern = dateOpening ∨
      pattern.isName = true ∧
        ∃ entry ∈ vocabulary.entries field, entryPattern entry = .ok pattern := by
    intro pattern hpattern
    obtain ⟨entry, hmem, hpattern⟩ := (hmem pattern).mp hpattern
    obtain ⟨_, hpattern', ⟨hfield, rfl⟩ | hname⟩ := hentry entry hmem
    · cases hpattern.symm.trans entryPattern_dateEntry
      exact .inl ⟨hfield, rfl⟩
    · cases hpattern.symm.trans hpattern'
      exact .inr ⟨hname, entry, hmem, hpattern⟩
  refine ⟨patterns, hpatterns, fun pattern hpattern => ?_, fun before text rest => ?_⟩
  · rcases hcases pattern hpattern with ⟨-, rfl⟩ | ⟨hname, -⟩
    · decide
    · exact isSearchable_of_isName hname
  · constructor
    · rintro ⟨pattern, hpattern, htext⟩
      rcases hcases pattern hpattern with ⟨hfield, rfl⟩ | ⟨hname, entry, hmem, hpattern⟩
      · exact .inr ⟨hfield, describes_dateOpening.mp htext⟩
      · exact .inl ⟨entry, hmem, pattern, hpattern, htext.of_isClosed (isClosed_of_isName hname)⟩
    · rintro (⟨entry, hentry', pattern, hpattern, htext⟩ | ⟨rfl, hdate⟩)
      · have hpattern' := (hmem pattern).mpr ⟨entry, hentry', hpattern⟩
        refine ⟨pattern, hpattern', ?_⟩
        rcases hcases pattern hpattern' with ⟨-, rfl⟩ | ⟨hname, -⟩
        · exact absurd htext not_describes_dateOpening
        · exact htext.of_isClosed (isClosed_of_isName hname)
      · exact ⟨dateOpening, (hmem _).mpr ⟨dateEntry, h.date, entryPattern_dateEntry⟩,
          describes_dateOpening.mpr hdate⟩

variable {patterns : List Pattern} {size : Nat}

/-- The optional `END_` before the names of blocks. -/
theorem describes_blocks :
    (∃ pattern ∈ (if patterns.isEmpty then [] else [Pattern.seq blockEnd (.choice patterns)]),
      pattern.Describes before text rest) ↔
      ∃ ending name, text = ending ++ name ∧ (ending = [] ∨ Spells ["END_".toList] ending) ∧
        ∃ pattern ∈ patterns, pattern.Describes (ending.reverse ++ before) name rest := by
  cases patterns with
  | nil => simp
  | cons first patterns =>
    simp only [isEmpty_cons, Bool.false_eq_true, if_false, mem_singleton, exists_eq_left]
    rw [Pattern.Describes]
    simp only [describes_blockEnd, describes_choice, Spells, mem_singleton, exists_eq_left]

/-- The parenthesis behind the names of functions. -/
theorem describes_calls :
    (∃ pattern ∈ (if patterns.isEmpty then [] else [Pattern.seq (.choice patterns)
        (.ahead true (.seq (blankRun 0) parenthesis))]), pattern.Describes before text rest) ↔
      (∃ pattern ∈ patterns, pattern.Describes before text rest) ∧
        (rest.dropWhile isBlank).head? = some '(' := by
  cases patterns with
  | nil => simp
  | cons first patterns =>
    simp only [isEmpty_cons, Bool.false_eq_true, if_false, mem_singleton, exists_eq_left]
    rw [Pattern.Describes]
    simp only [describes_parenthesis, describes_choice]
    constructor
    · rintro ⟨start, _, rfl, hstart, rfl, hhead⟩
      exact ⟨by simpa using hstart, hhead⟩
    · rintro ⟨htext, hhead⟩
      exact ⟨text, [], by simp, by simpa using htext, rfl, hhead⟩

theorem named_iff [Host] :
    Named vocabulary text rest ↔
      (∃ entry ∈ vocabulary.types, Names entry text) ∨
      (∃ entry ∈ vocabulary.keywords, Names entry text) ∨
      (∃ ending name, text = ending ++ name ∧ (ending = [] ∨ Spells ["END_".toList] ending) ∧
        ∃ entry ∈ vocabulary.blockNames, Names entry name) ∨
      (∃ entry ∈ vocabulary.functions, Names entry text) ∧
        (rest.dropWhile isBlank).head? = some '(' := by
  constructor
  · rintro (⟨hentry, hnames⟩ | ⟨hentry, hnames⟩ | ⟨hentry, hnames⟩ | ⟨hentry, hending, hnames⟩ |
      ⟨hentry, hnames, hhead⟩)
    · exact .inl ⟨_, hentry, hnames⟩
    · exact .inr (.inl ⟨_, hentry, hnames⟩)
    · exact .inr (.inr (.inl ⟨[], _, rfl, .inl rfl, _, hentry, hnames⟩))
    · exact .inr (.inr (.inl ⟨_, _, rfl, .inr hending, _, hentry, hnames⟩))
    · exact .inr (.inr (.inr ⟨⟨_, hentry, hnames⟩, hhead⟩))
  · rintro (⟨entry, hentry, hnames⟩ | ⟨entry, hentry, hnames⟩ |
      ⟨ending, name, rfl, rfl | hending, entry, hentry, hnames⟩ | ⟨⟨entry, hentry, hnames⟩, hhead⟩)
    · exact .type hentry hnames
    · exact .keyword hentry hnames
    · exact .block hentry hnames
    · exact .blockEnd hentry hending hnames
    · exact .function hentry hnames hhead

/-- The pattern for words in capitals describes the words of the vocabulary and the openings of
dates, from boundary to boundary. -/
theorem exists_casing [Host] (h : vocabulary.OfWords) :
    ∃ pattern, vocabulary.casingPattern = .ok pattern ∧ pattern.isSearchable = true ∧
      ∀ before text rest, pattern.Describes before text rest ↔
        atWordBoundary before (text ++ rest) = true ∧
          (Named vocabulary text rest ∨ ∃ name, text = name ++ ['#'] ∧
          OpensDate name ('#' :: rest)) ∧
          atWordBoundary (text.reverse ++ before) rest = true := by
  obtain ⟨types, htypes, hsearchTypes, hdescTypes⟩ := h.exists_patterns .types
  obtain ⟨keywords, hkeywords, hsearchKeywords, hdescKeywords⟩ := h.exists_patterns .keywords
  obtain ⟨blockNames, hblockNames, hsearchBlocks, hdescBlocks⟩ := h.exists_patterns .blockNames
  obtain ⟨functions, hfunctions, hsearchCalls, hdescCalls⟩ := h.exists_patterns .functions
  simp only [entries] at htypes hkeywords hblockNames hfunctions
  have hjoined : checkJoined vocabulary.casingPieces = .ok () :=
    checkJoined_eq_ok_iff.mpr ⟨fun entry hentry =>
      (entry_mem_casingPieces.mp hentry).elim fun field => h.flagless field entry,
      Host.holds_of_isShallow _ _ (isShallow_casingPieces h.levels)⟩
  rw [casingPattern, hjoined, htypes, hkeywords, hblockNames, hfunctions]
  refine ⟨_, rfl, ?_, fun before text rest => ?_⟩
  · refine isSearchable_seq rfl rfl (isSearchable_seq_left (isSearchable_choice ?_) rfl rfl)
    simp only [mem_append, or_imp, forall_and]
    refine ⟨⟨⟨hsearchTypes, hsearchKeywords⟩, fun pattern hpattern => ?_⟩,
      fun pattern hpattern => ?_⟩
    · split at hpattern
      · cases hpattern
      · obtain rfl := mem_singleton.mp hpattern
        exact isSearchable_seq (by decide) (by decide) (isSearchable_choice hsearchBlocks)
    · split at hpattern
      · cases hpattern
      · obtain rfl := mem_singleton.mp hpattern
        exact isSearchable_seq_left (isSearchable_choice hsearchCalls) (by decide) (by decide)
  · have hpieces : (∃ pattern ∈ types ++ keywords ++
        (if blockNames.isEmpty then [] else [Pattern.seq blockEnd (.choice blockNames)]) ++
        (if functions.isEmpty then [] else [Pattern.seq (.choice functions)
          (.ahead true (.seq (blankRun 0) parenthesis))]), pattern.Describes before text rest) ↔
        Named vocabulary text rest ∨
          ∃ name, text = name ++ ['#'] ∧ OpensDate name ('#' :: rest) := by
      simp only [mem_append, or_and_right, exists_or]
      simp only [describes_blocks, describes_calls, hdescTypes, hdescKeywords,
        hdescBlocks, hdescCalls, reduceCtorEq, false_and, or_false, true_and, entries]
      rw [named_iff, ← eq_iff_iff]
      ac_rfl
    rw [describes_bounded, describes_choice, hpieces]

theorem OfWords.describes_iff [Host] (h : vocabulary.OfWords)
    (hpattern : vocabulary.casingPattern = .ok pattern) :
    pattern.Describes before text rest ↔ atWordBoundary before (text ++ rest) = true ∧
      (Named vocabulary text rest ∨ ∃ name, text = name ++ ['#'] ∧ OpensDate name ('#' :: rest)) ∧
      atWordBoundary (text.reverse ++ before) rest = true := by
  obtain ⟨_, hpattern', -, hdescribes⟩ := exists_casing h
  cases hpattern.symm.trans hpattern'
  exact hdescribes before text rest

theorem OfWords.searchable [Host] (h : vocabulary.OfWords)
    (hpattern : vocabulary.casingPattern = .ok pattern) :
    pattern.isDirect = true ∧ pattern.consumes = true ∧ pattern.readsOnly isPlainSet = true := by
  obtain ⟨_, hpattern', hsearchable, -⟩ := exists_casing h
  cases hpattern.symm.trans hpattern'
  simpa only [isSearchable, Bool.and_eq_true, and_assoc] using hsearchable

/-! ## What is found -/

theorem Named.isWordChar [Host] (h : vocabulary.OfWords) {word rest : List Char}
    (hnamed : Named vocabulary word rest) : word ≠ [] ∧ ∀ c ∈ word, isWordChar c = true := by
  cases hnamed with
  | type hentry hnames => exact @OfWords.isWordChar _ _ h .types _ hentry _ hnames
  | keyword hentry hnames => exact @OfWords.isWordChar _ _ h .keywords _ hentry _ hnames
  | block hentry hnames => exact @OfWords.isWordChar _ _ h .blockNames _ hentry _ hnames
  | function hentry hnames _ => exact @OfWords.isWordChar _ _ h .functions _ hentry _ hnames
  | blockEnd hentry hending hnames =>
    obtain ⟨hne, hchars⟩ := @OfWords.isWordChar _ _ h .blockNames _ hentry _ hnames
    obtain ⟨-, hchars'⟩ := hending.isWordChar (by unfold AreKeywords; decide)
    exact ⟨append_ne_nil_of_right_ne_nil _ hne,
      fun c hc => (mem_append.mp hc).elim (hchars' c) (hchars c)⟩

theorem OpensDate.isWordChar {word rest : List Char} (h : OpensDate word rest) :
    word ≠ [] ∧ ∀ c ∈ word, isWordChar c = true :=
  h.1.isWordChar (by unfold AreKeywords; decide)

theorem recognize_casing [Host] (h : vocabulary.OfWords)
    (hpattern : vocabulary.casingPattern = .ok pattern) {cursor : Cursor} {n : Nat} {found : Found}
    (hfound : pattern.recognize size false cursor = some (n, found)) :
    ∃ word rest, cursor.after = word ++ rest ∧ IsWord cursor.before word rest ∧
      Counts vocabulary word rest ∧ n = found.text.length ∧
      (found.text = word ∨ found.text = word ++ ['#'] ∧ rest.head? = some '#') := by
  obtain ⟨rest, hafter, hlength, hfound⟩ := recognize_describes (h.searchable hpattern).1 hfound
  obtain ⟨hstart, hnamed | ⟨name, htext, hdate⟩, hstop⟩ := (h.describes_iff hpattern).mp hfound
  · obtain ⟨hne, hchars⟩ := hnamed.isWordChar h
    exact ⟨found.text, rest, hafter, ⟨hne, hchars, (starts_of_atBoundary hne hchars).mp hstart,
      (ends_of_atBoundary hne hchars).mp hstop⟩, .inl hnamed, hlength, .inl rfl⟩
  · obtain ⟨hne, hchars⟩ := hdate.isWordChar
    rw [htext, append_assoc] at hstart hafter
    exact ⟨name, '#' :: rest, hafter,
      ⟨hne, hchars, (starts_of_atBoundary hne hchars).mp hstart, rfl⟩,
      .inr hdate, hlength, .inr ⟨htext, rfl⟩⟩

theorem recognize_casing_ne_none [Host] (h : vocabulary.OfWords)
    (hpattern : vocabulary.casingPattern = .ok pattern) (hword : IsWord before word rest)
    (hcounts : Counts vocabulary word rest) (hsize : (word ++ rest).length ≤ size) (pos : Nat) :
    pattern.recognize size false ⟨pos, before, word ++ rest⟩ ≠ none := by
  have hdirect := (h.searchable hpattern).1
  have hstart : atWordBoundary before (word ++ rest) = true :=
    (starts_of_atBoundary hword.ne_nil hword.isWordChar).mpr hword.starts
  rcases hcounts with hnamed | hdate
  · refine recognize_ne_none hdirect rfl hsize
      ((h.describes_iff hpattern).mpr ⟨hstart, .inl hnamed, ?_⟩)
    exact (ends_of_atBoundary hword.ne_nil hword.isWordChar).mpr hword.ends
  · have hdate' := hdate
    obtain ⟨-, digit, later, rfl, hlow, hhigh⟩ := hdate
    have hdigit : isWordChar digit = true := by
      have hascii : digit.toNat < 128 := Nat.lt_of_le_of_lt hhigh (by decide)
      simp [isWordChar, isAlphanumeric, hascii, hlow, hhigh]
    refine @recognize_ne_none _ _ hdirect ⟨pos, before, _⟩ (word ++ ['#']) (digit :: later)
      (by simp) hsize ((h.describes_iff hpattern).mpr ⟨?_, .inr ⟨word, rfl, hdate'⟩, ?_⟩)
    · rwa [append_assoc]
    · rw [reverse_append, append_assoc, atWordBoundary, reverse_singleton,
        singleton_append, startsWithWordChar, startsWithWordChar, hdigit]
      decide

end Vocabulary

end StructuredText
