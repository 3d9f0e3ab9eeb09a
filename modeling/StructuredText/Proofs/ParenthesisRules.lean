import StructuredText.Proofs.BlockWords
import StructuredText.Proofs.Calls
import StructuredText.Proofs.Finding
import StructuredText.Proofs.Parentheses

/-!
# Rules at parentheses

The blanks between a function name and a parenthesis go, a keyword with a condition behind it has a
space before the parenthesis, and one with a condition before it has a space behind the parenthesis.
The names of functions are no such keywords, so that none of these rules undoes what another one
did.

Results:
1. `callRule_follows`, `openingRule_follows`: the first two are rules on words before parentheses.
2. `Vocabulary.exists_callNames`: function names and keywords are apart.
3. `Rewrites.partsClauses`: what the third rule makes of the words behind parentheses.
-/

namespace StructuredText

open List Literal Spacing

/-! ## The names of functions -/

namespace Pattern

/-- An ASCII letter or an underscore. -/
def isNamePoint (n : Nat) : Bool :=
  65 ≤ n && n ≤ 90 || 97 ≤ n && n ≤ 122 || n == 95

/-- The set holds letters and underscores, up to case. -/
def isWordSet (set : CharSet) : Bool :=
  !set.complement && set.items.all fun item =>
    match item with
    | .range low high => 65 ≤ low && high ≤ 90 || 97 ≤ low && high ≤ 122 || low == 95 && high == 95
    | .category _ _ => false

theorem isWordChar_of_isNamePoint {n : Nat} (h : isNamePoint n = true) :
    n < 128 ∧ isWordChar (Char.ofNat n) = true := by
  have hlt : n < 128 := by
    simp only [isNamePoint, Bool.or_eq_true, Bool.and_eq_true, decide_eq_true_eq, beq_iff_eq] at h
    omega
  have hchecked : ∀ m < 128, isNamePoint m = true → isWordChar (Char.ofNat m) =
    true := by decide +kernel
  exact ⟨hlt, hchecked n hlt h⟩

variable {c : Char}

/-- What has a code point of words as a case variant is one itself. -/
theorem isWordChar_of_mem_caseVariants {m : Nat} (h : m ∈ caseVariants c) (hm : m < 128)
    (hword : isWordChar (Char.ofNat m) = true) : isWordChar c = true := by
  have hchecked := @forall_plain (fun e => isWordChar e || (caseVariants e).all fun m =>
    decide (128 ≤ m) || !isWordChar (Char.ofNat m)) (by decide +kernel)
      c (isPlain_of_caseVariants h hm)
  rw [Bool.or_eq_true, all_eq_true] at hchecked
  refine hchecked.resolve_right fun hall => ?_
  have hvariant := hall m h
  rw [hword, Bool.not_true, Bool.or_false, decide_eq_true_eq] at hvariant
  omega

theorem isWordChar_of_holds {set : CharSet} (h : isWordSet set = true) (hc : set.holds c = true) :
    isWordChar c = true := by
  simp only [isWordSet, Bool.and_eq_true, Bool.not_eq_true', all_eq_true] at h
  rw [CharSet.holds, h.1, bne_iff_ne, ne_eq, Bool.not_eq_false, any_eq_true] at hc
  obtain ⟨item, hitem, hc⟩ := hc
  have hrange := h.2 item hitem
  cases item with
  | category kind inside => cases hrange
  | range low high =>
    have hname : ∀ n, low ≤ n → n ≤ high → isNamePoint n = true := by
      intro n hlow hhigh
      simp only [isNamePoint, Bool.or_eq_true, Bool.and_eq_true, decide_eq_true_eq,
        beq_iff_eq] at hrange ⊢
      omega
    simp only [SetItem.holds, Bool.or_eq_true, Bool.and_eq_true, decide_eq_true_eq,
      any_eq_true] at hc
    rcases hc with ⟨hlow, hhigh⟩ | ⟨-, m, hm, hlow, hhigh⟩
    · have hword := (isWordChar_of_isNamePoint (hname c.toNat hlow hhigh)).2
      rwa [Char.ofNat_toNat] at hword
    · obtain ⟨hlt, hword⟩ := isWordChar_of_isNamePoint (hname m hlow hhigh)
      exact isWordChar_of_mem_caseVariants hm hlt hword

/-- The code points that equal one up to case. -/
def variants (c : Char) : List Char :=
  (plainPoints.map Char.ofNat).filter (sameUpToCase c)

/-- A word up to case is made of variants. -/
theorem fills_variants {keyword word : List Char} (hascii : ∀ c ∈ keyword, c.toNat < 128)
    (h : List.Forall₂ (fun c d => sameUpToCase c d = true) keyword word) :
    Fills (keyword.map variants) word := by
  induction h with
  | nil => exact .nil
  | @cons c d keyword word hcd _ ih =>
    refine .cons ?_ (ih fun e he => hascii e (mem_cons_of_mem _ he))
    have hplain := isPlain_of_sameUpToCase (hascii c mem_cons_self) hcd
    exact mem_filter.mpr ⟨mem_map.mpr ⟨d.toNat, hplain, Char.ofNat_toNat d⟩, hcd⟩

/-- The pattern of a call: a name, blanks and a parenthesis. -/
def call (names : Pattern) : Pattern :=
  .sequence [.anchor .boundary, .group 1 names, Vocabulary.blankRun 1, Vocabulary.parenthesis]

/-- What is used of a pattern for the names of functions. -/
structure IsNames (names : Pattern) : Prop where
  simple : names.isSimple = true
  word : names.readsOnly isWordSet = true
  consumes : names.consumes = true
  apart : ∀ word, LineKind.Spells conditionKeywords word → ¬ names.Matches word

end Pattern

theorem conditionKeywords_checked : LineKind.AreKeywords conditionKeywords := by
  unfold LineKind.AreKeywords
  decide

theorem clauseKeywords_checked : LineKind.AreKeywords clauseKeywords := by
  unfold LineKind.AreKeywords
  decide

theorem Vocabulary.callNames_checked :
    (match @checkJoined Host.plain standard.callPieces,
        @entryPatterns Host.plain standard.functions with
      | .ok _, .ok names =>
          (Pattern.choice names).isSimple && (Pattern.choice names).readsOnly Pattern.isWordSet &&
            (Pattern.choice names).consumes && conditionKeywords.all fun keyword =>
              !((Pattern.choice names).ends (keyword.map Pattern.variants)).contains []
      | _, _ => false) = true := by
  decide +kernel

/-- No function has a keyword as its name. -/
theorem Vocabulary.exists_callNames [Host] :
    ∃ names : Pattern, Vocabulary.standard.callPattern = .ok names.call ∧ names.IsNames := by
  have hchecked := Vocabulary.callNames_checked
  split at hchecked
  next names hjoined hnames =>
    simp only [Bool.and_eq_true, all_eq_true, Bool.not_eq_true'] at hchecked
    obtain ⟨⟨⟨hsimple, hword⟩, hconsumes⟩, hends⟩ := hchecked
    refine ⟨.choice names, ?_, hsimple, hword, hconsumes, ?_⟩
    · rw [standard_callPattern _ Host.plain, @callPattern.eq_1 Host.plain, hjoined, hnames]
      rfl
    · rintro word ⟨keyword, hkeyword, hsame⟩
      have hascii := fun c hc => ((conditionKeywords_checked keyword hkeyword).2 c hc).1
      exact Pattern.not_matches_of_ends (hends keyword hkeyword)
        (Pattern.fills_variants hascii hsame)
  next => cases hchecked

/-! ## Names before parentheses -/

/-- No word ends where one starts. -/
theorem starts_of_atBoundary {before word rest : List Char} (hne : word ≠ [])
    (hword : ∀ c ∈ word, isWordChar c = true) :
    atWordBoundary before (word ++ rest) = true ↔ startsWithWordChar before = false := by
  obtain ⟨c, word, rfl⟩ := exists_cons_of_ne_nil hne
  rw [atWordBoundary, cons_append, startsWithWordChar, hword c mem_cons_self]
  simp

/-- The rule on function names: the blanks before the parenthesis go. -/
def callRule {names : Pattern} (h : names.IsNames) : ParenRule where
  accepts := names.Matches
  touching := false
  gap := []
  ne_nil := fun _ hmatches => hmatches.ne_nil_of_consumes h.consumes
  word := fun _ hmatches =>
    hmatches.mem_of_readsOnly (fun _ hset _ hc => Pattern.isWordChar_of_holds hset hc) h.word
  blank := nofun
  gap_eq_nil := by simp

namespace Pattern

variable {gap : List Char}

theorem matches_blankRun (hne : gap ≠ []) (hblank : ∀ c ∈ gap, isBlank c = true) :
    (Vocabulary.blankRun 1).Matches gap := by
  have hrounds := @Matches.repeated (.one ⟨[.category .blank true], false, true⟩) 1 none true
    (gap.map fun c => [c]) (by
      intro text htext
      obtain ⟨c, hc, rfl⟩ := mem_map.mp htext
      exact .one (by simp [CharSet.holds, SetItem.holds, Category.holds, hblank c hc]))
    (by rw [length_map]; exact length_pos_iff.mpr hne)
  rwa [← flatMap_def, flatMap_singleton'] at hrounds

theorem matches_parenthesis : Vocabulary.parenthesis.Matches ['('] :=
  .one (by decide +kernel)

/-- A name that blanks separate from a parenthesis is found. -/
theorem recognize_call_ne_none {names : Pattern} (h : names.IsNames) {size : Nat}
    {before name rest : List Char} (hname : names.Matches name)
    (hstarts : startsWithWordChar before = false) (hne : gap ≠ [])
    (hblank : ∀ c ∈ gap, isBlank c = true) (hsize : (name ++ (gap ++ '(' :: rest)).length ≤ size) :
    names.call.recognize size false ⟨before.length, before, name ++
      (gap ++ '(' :: rest)⟩ ≠ none := by
  have hreads : Cursor.Reads ⟨before.length, before, name ++ (gap ++ '(' :: rest)⟩
      ⟨before.length + (name ++ (gap ++ ['('])).length,
      (name ++ (gap ++ ['('])).reverse ++ before, rest⟩
      (name ++ (gap ++ ['('])) := ⟨by simp, rfl, rfl⟩
  obtain ⟨middle, hreadname, hreads⟩ := hreads.split
  obtain ⟨behind, hreadgap, hreadparen⟩ := hreads.split
  have hmiddle : middle.after.length ≤ size := Nat.le_trans hreadname.length_after_le hsize
  have hbehind : behind.after.length ≤ size := Nat.le_trans hreadgap.length_after_le hmiddle
  have hboundary : Anchor.boundary.holds ⟨before.length, before, name ++
      (gap ++ '(' :: rest)⟩ = true :=
    (starts_of_atBoundary ((callRule h).ne_nil _ hname) ((callRule h).word _ hname)).mpr hstarts
  rw [recognize, ne_eq, Option.map_eq_none_iff, ← ne_eq, ← Option.isSome_iff_ne_none]
  simp only [call, sequence, run, hboundary, if_true]
  refine run_complete size names h.simple _ _ middle name hname hreadname hsize ?_
  refine run_complete size (Vocabulary.blankRun 1) rfl _ _ behind gap (matches_blankRun hne hblank)
    hreadgap hmiddle ?_
  exact run_complete size Vocabulary.parenthesis rfl _ _ _ _ matches_parenthesis
    hreadparen hbehind rfl

end Pattern

theorem callRule_follows {names : Pattern} (h : names.IsNames) (size : Nat) :
    (callRule h).Follows (names.call.recognize size)
    (fun found => found.group 1 ++ ['(']) size where
  sound := by
    intro before text n found hfind
    obtain ⟨-, hlength, rest, hafter⟩ := Pattern.recognize_eq_some hfind
    obtain ⟨gap, hname, htext, hblank, hne, hboundary⟩ := Pattern.recognize_call hfind
    have hafter' : text = found.group 1 ++ (gap ++ '(' :: rest) := by
      rw [show text = _ from hafter, htext]
      simp
    refine ⟨found.group 1, gap, rest, hafter', ?_, rfl, hname, ?_,
      hblank, by simpa [callRule] using hne⟩
    · rw [hlength, htext, append_assoc]
    · rw [Cursor.atBoundary, hafter'] at hboundary
      exact (starts_of_atBoundary ((callRule h).ne_nil _ hname) ((callRule h).word _ hname)).mp
        hboundary
  complete := by
    intro before word gap rest hreads hsize
    refine Pattern.recognize_call_ne_none h hreads.accepts hreads.starts ?_ hreads.blank hsize
    exact fun hnil => absurd (hreads.gap_eq_nil.mp hnil) Bool.false_ne_true

/-! ## Keywords before parentheses -/

/-- The rule on keywords with a condition behind them: a space before the parenthesis. -/
def openingRule : ParenRule where
  accepts := LineKind.Spells conditionKeywords
  touching := true
  gap := [' ']
  ne_nil := fun _ h => (h.isWordChar conditionKeywords_checked).1
  word := fun _ h => (h.isWordChar conditionKeywords_checked).2
  blank := by decide
  gap_eq_nil := by decide

variable {text word before written : List Char}

theorem foldChar_head?_eq {read : List Char}
    (h : List.Forall₂ (fun c d => sameUpToCase c d = true) text read) :
    text.head?.map foldChar = read.head?.map foldChar := by
  cases h with
  | nil => rfl
  | cons hcd _ => exact congrArg some (beq_iff_eq.mp hcd)

/-- At most one of the keywords stands at a place. -/
theorem oneOf_conditionKeywords (h : LineKind.Spells conditionKeywords word) (pos : Nat)
    (before rest : List Char) :
    Cursor.oneOf conditionKeywords ⟨pos, before, word ++ rest⟩ =
      some ⟨pos + word.length, word.reverse ++ before, rest⟩ := by
  have hne := (h.isWordChar conditionKeywords_checked).1
  obtain ⟨keyword, hkeyword, hsame⟩ := h
  have hread := Cursor.word_append hsame pos before rest
  have hsome : (Cursor.oneOf conditionKeywords ⟨pos, before, word ++ rest⟩).isSome := by
    rw [Cursor.oneOf, findSome?_isSome_iff]
    exact ⟨keyword, hkeyword, by rw [hread]; rfl⟩
  obtain ⟨stop, hstop⟩ := Option.isSome_iff_exists.mp hsome
  obtain ⟨other, hother, hread'⟩ := Cursor.reads_oneOf hstop
  obtain ⟨word', hreads', hsame'⟩ := Cursor.reads_word hread'
  have hne' := (LineKind.Spells.isWordChar conditionKeywords_checked ⟨other, hother, hsame'⟩).1
  -- The keywords start with different letters.
  have hheads : ∀ first ∈ conditionKeywords, ∀ second ∈ conditionKeywords,
      first.head?.map foldChar = second.head?.map foldChar → first = second := by decide +kernel
  have hhead : word.head? = word'.head? := by
    have hafter : (word ++ rest).head? = (word' ++ stop.after).head? :=
      congrArg List.head? hreads'.after
    rwa [head?_append_of_ne_nil _ hne, head?_append_of_ne_nil _ hne'] at hafter
  have heq := hheads keyword hkeyword other hother
    (by rw [foldChar_head?_eq hsame, foldChar_head?_eq hsame', hhead])
  rw [hstop, ← hread', ← heq, hread]

theorem openingRule_follows (bound : Nat) :
    openingRule.Follows (.ofReader openingParenthesis) id bound where
  sound := by
    intro before text n written hfind
    obtain ⟨stop, hread, rfl⟩ := ofReader_eq_some.mp hfind
    obtain ⟨behind, hword, hread⟩ := Option.bind_eq_some_iff.mp hread
    obtain ⟨_, hchar, hread⟩ := Option.bind_eq_some_iff.mp hread
    cases hread
    obtain ⟨first, hfirst, hone⟩ := Option.bind_eq_some_iff.mp hword
    obtain ⟨rfl, hboundary⟩ := Cursor.reads_boundary hfirst
    obtain ⟨keyword, hkeyword, htext⟩ := Cursor.reads_oneOf hone
    obtain ⟨word, hreads, hsame⟩ := Cursor.reads_word htext
    have hspells : LineKind.Spells conditionKeywords word := ⟨keyword, hkeyword, hsame⟩
    have hreads' := hreads.trans (Cursor.reads_char hchar)
    have hafter : text = word ++ '(' :: stop.after := by simpa using hreads'.after
    obtain ⟨hne, hchars⟩ := hspells.isWordChar conditionKeywords_checked
    refine ⟨word, [], stop.after, by simpa using hafter, ?_, ?_, hspells,
      ?_, by simp, by simp [openingRule]⟩
    · rw [hreads'.pos, Nat.add_sub_cancel_left, nil_append]
    · rw [id, hreads.upTo_eq]
      rfl
    · rw [Cursor.atBoundary, hafter] at hboundary
      exact (starts_of_atBoundary hne hchars).mp hboundary
  complete := by
    intro before word gap rest hreads _
    obtain rfl : gap = [] := hreads.gap_eq_nil.mpr rfl
    obtain ⟨hne, hchars⟩ := hreads.accepts.isWordChar conditionKeywords_checked
    have hboundary := (@starts_of_atBoundary before word ('(' :: rest) hne hchars).mpr hreads.starts
    have hword := oneOf_conditionKeywords hreads.accepts before.length before ('(' :: rest)
    rw [nil_append, Recognizer.ofReader, ne_eq, Option.map_eq_none_iff, openingParenthesis]
    simp [Cursor.boundary, Cursor.atBoundary, hboundary, hword, Cursor.char, Cursor.next]

/-! ## Keywords behind parentheses -/

/-- A keyword of the code with a condition before it. -/
structure IsClause (word : List Cell) : Prop where
  code : ∀ cell ∈ word, cell.role = .code
  spells : LineKind.Spells clauseKeywords (chars word)

theorem closing_eq_some {n : Nat}
    (h : Recognizer.ofReader closingParenthesis false ⟨before.length, before, text⟩ =
      some (n, written)) :
    ∃ word rest, text = ')' :: (word ++ rest) ∧ n = word.length + 1 ∧ written = ')' :: ' ' :: word ∧
      LineKind.Spells clauseKeywords word ∧ startsWithWordChar rest = false := by
  obtain ⟨stop, hread, rfl⟩ := ofReader_eq_some.mp h
  obtain ⟨inside, hchar, hread⟩ := Option.bind_eq_some_iff.mp hread
  obtain ⟨_, hwhole, hread⟩ := Option.bind_eq_some_iff.mp hread
  cases hread
  obtain ⟨-, hboundary, keyword, hkeyword, htext⟩ := Cursor.reads_wholeWord hwhole
  obtain ⟨word, hreads, hsame⟩ := Cursor.reads_word htext
  have hspells : LineKind.Spells clauseKeywords word := ⟨keyword, hkeyword, hsame⟩
  obtain ⟨hne, hword⟩ := hspells.isWordChar clauseKeywords_checked
  have hreads' := (Cursor.reads_char hchar).trans hreads
  refine ⟨word, stop.after, hreads'.after, ?_, ?_, hspells, ?_⟩
  · rw [hreads'.pos, Nat.add_sub_cancel_left, singleton_append, length_cons]
  · rw [hreads.upTo_eq]
    rfl
  · rw [Cursor.atBoundary, hreads.before, LineKind.atWordBoundary_behind_iff hne hword] at hboundary
    cases hafter : stop.after with
    | nil => rfl
    | cons c rest => exact hboundary c (by rw [hafter]; rfl)

theorem closing_ne_none {rest : List Char} (hspells : LineKind.Spells clauseKeywords word)
    (hrest : startsWithWordChar rest = false) :
    Recognizer.ofReader closingParenthesis false ⟨before.length, before, ')' :: (word ++ rest)⟩ ≠
      none := by
  obtain ⟨hne, hword⟩ := hspells.isWordChar clauseKeywords_checked
  obtain ⟨keyword, hkeyword, hsame⟩ := hspells
  have hparen : startsWithWordChar (')' :: before) = false := by
    rw [startsWithWordChar]
    decide
  have hfirst := (@starts_of_atBoundary (')' :: before) word rest hne hword).mpr hparen
  have hlast := (LineKind.atWordBoundary_behind_iff hne hword (')' :: before) rest).mpr (by
    cases rest with
    | nil => simp
    | cons c rest => rintro _ ⟨⟩; exact hrest)
  have hwhole : (Cursor.wholeWord clauseKeywords
      ⟨before.length + 1, ')' :: before, word ++ rest⟩).isSome := by
    rw [Cursor.wholeWord, findSome?_isSome_iff]
    refine ⟨keyword, hkeyword, ?_⟩
    simp [Cursor.boundary, Cursor.atBoundary, Cursor.word_append hsame, hfirst, hlast]
  obtain ⟨stop, hstop⟩ := Option.isSome_iff_exists.mp hwhole
  rw [Recognizer.ofReader, ne_eq, Option.map_eq_none_iff, closingParenthesis]
  simp [Cursor.char, Cursor.next, hstop]

/-- The cells that are found. -/
theorem closing_block {block rest : List Cell}
    (h : Recognizer.ofReader closingParenthesis false ⟨before.length, before, chars block ++
      chars rest⟩ = some (block.length, written)) :
    ∃ paren word, block = paren :: word ∧ paren.char = ')' ∧ written = ')' :: ' ' :: chars word ∧
      LineKind.Spells clauseKeywords (chars word) ∧ leadingWord rest = [] := by
  obtain ⟨word, behind, htext, hlength, hwritten, hspells, hrest⟩ := closing_eq_some h
  have happend : chars block ++ chars rest = (')' :: word) ++ behind := htext
  obtain ⟨hblock, hbehind⟩ :=
    append_inj happend (by rw [length_chars, hlength, length_cons])
  obtain ⟨paren, cells, rfl, hparen, rfl⟩ := map_eq_cons_iff.mp hblock
  refine ⟨paren, cells, rfl, hparen, hwritten, hspells, leadingWord_eq_nil fun cell hcell => ?_⟩
  obtain ⟨more, rfl⟩ := head?_eq_some_iff.mp hcell
  rwa [← hbehind] at hrest

theorem leadingWord_append {word rest : List Cell}
    (hword : ∀ cell ∈ word, isWordChar cell.char = true) :
    leadingWord (word ++ rest) = word ++ leadingWord rest :=
  takeWhile_append_of_pos hword

theorem wordCells_of_spells {word : List Cell} (h : LineKind.Spells clauseKeywords (chars word)) :
    ∀ cell ∈ word, isWordChar cell.char = true :=
  fun _ hcell => (h.isWordChar clauseKeywords_checked).2 _ (mem_map_of_mem hcell)

/-- What the rule makes of the words behind parentheses: none of them is a keyword then, and if none
was, nothing changes. It keeps the words before parentheses. -/
structure PartsClauses (cells out : List Cell) : Prop where
  parted : ∀ word ∈ trails out, ¬ IsClause word
  leadingWord_eq : leadingWord out = leadingWord cells
  leads_eq : ∀ lead, leads lead out = leads lead cells
  eq_self : (∀ word ∈ trails cells, ¬ IsClause word) → out = cells

/-- The word that starts a text goes as far as there are word characters. -/
theorem exists_behind_leadingWord (cells : List Cell) :
    ∃ behind, cells = leadingWord cells ++ behind ∧ startsWithWordChar (chars behind) = false := by
  induction cells with
  | nil => exact ⟨[], rfl, rfl⟩
  | cons cell rest ih =>
    obtain ⟨behind, hrest, hstarts⟩ := ih
    cases hword : isWordChar cell.char with
    | true => exact ⟨behind, by rw [leadingWord_cons hword, cons_append, ← hrest], hstarts⟩
    | false => exact ⟨cell :: rest, by rw [leadingWord_sign hword]; rfl, hword⟩

namespace PartsClauses

variable {rest out : List Cell}

/-- A cell that is no parenthesis before a keyword stays. -/
theorem cons (h : PartsClauses rest out) {cell : Cell}
    (hnot : cell = ⟨')', .code⟩ → ¬ IsClause (leadingWord rest)) :
    PartsClauses (cell :: rest) (cell :: out) where
  parted := by
    intro word hmem
    rw [trails, mem_append, h.leadingWord_eq] at hmem
    rcases hmem with hmem | hmem
    · split at hmem
      next hparen =>
        obtain rfl := mem_singleton.mp hmem
        exact hnot hparen
      next => cases hmem
    · exact h.parted word hmem
  leadingWord_eq := by
    cases hword : isWordChar cell.char with
    | true => rw [leadingWord_cons hword, leadingWord_cons hword, h.leadingWord_eq]
    | false => rw [leadingWord_sign hword, leadingWord_sign hword]
  leads_eq := fun lead => by rw [leads, leads, h.leads_eq]
  eq_self := fun hnone => by rw [h.eq_self fun word hword =>
    hnone word (mem_append_right _ hword)]

theorem append_word (h : PartsClauses rest out) {word : List Cell}
    (hword : ∀ cell ∈ word, isWordChar cell.char = true) :
    PartsClauses (word ++ rest) (word ++ out) := by
  induction word with
  | nil => exact h
  | cons cell word ih =>
    refine (ih fun other hother => hword other (mem_cons_of_mem _ hother)).cons ?_
    rintro rfl
    exact absurd (hword _ mem_cons_self) (by decide)

/-- A space goes between a parenthesis and the keyword behind it. -/
theorem part (h : PartsClauses rest out) (hclause : IsClause (leadingWord rest)) :
    PartsClauses (⟨')', .code⟩ :: rest) (⟨')', .code⟩ :: ⟨' ', .code⟩ :: out) where
  parted := by
    intro word hmem
    rw [trails, trails, if_pos rfl, if_neg (by decide), nil_append,
      leadingWord_sign (by decide), singleton_append, mem_cons] at hmem
    rcases hmem with rfl | hmem
    · exact fun hempty => (hempty.spells.isWordChar clauseKeywords_checked).1 rfl
    · exact h.parted word hmem
  leadingWord_eq := rfl
  leads_eq := by
    intro lead
    have hstart : lead.step ⟨')', .code⟩ = .start := Lead.step_sign (by decide) fun _ => by decide
    have hblank : Lead.step .start ⟨' ', .code⟩ = ⟨[], false⟩ := Lead.step_blank rfl (by decide)
    rw [leads, leads, leads, hstart, hblank, leads_fresh, h.leads_eq]
    rfl
  eq_self := by
    intro hnone
    refine absurd hclause (hnone _ ?_)
    rw [trails, if_pos rfl]
    exact mem_append_left _ (mem_singleton_self _)

end PartsClauses

theorem Rewrites.partsClauses {cells out : List Cell}
    (h : Rewrites (.ofReader closingParenthesis) id before cells out) : PartsClauses cells out := by
  induction h with
  | nil => exact ⟨by simp [trails], rfl, fun _ => rfl, fun _ => rfl⟩
  | @miss before cell rest out hfind _ ih =>
    refine ih.cons fun hparen hclause => ?_
    -- The rule would have been found here.
    obtain ⟨behind, hrest, hstarts⟩ := exists_behind_leadingWord rest
    rw [hparen, hrest, chars_append] at hfind
    exact closing_ne_none hclause.spells hstarts hfind
  | @blocked before block rest out written hfind hblock _ ih =>
    obtain ⟨paren, word, rfl, -, -, hspells, hrest⟩ := closing_block hfind
    have hword := wordCells_of_spells hspells
    refine (ih.append_word hword).cons fun hparen hclause => ?_
    rw [leadingWord_append hword, hrest, append_nil] at hclause
    obtain ⟨cell, hcell, hrole⟩ := hblock
    rcases mem_cons.mp hcell with rfl | hcell
    · exact hrole (by rw [hparen])
    · exact hrole (hclause.code cell hcell)
  | @hit before block rest out written hfind _ hcode _ ih =>
    obtain ⟨paren, word, rfl, hparen, rfl, hspells, hrest⟩ := closing_block hfind
    have hword := wordCells_of_spells hspells
    have hclause : IsClause word :=
      ⟨fun cell hcell => hcode cell (mem_cons_of_mem _ hcell), hspells⟩
    obtain rfl : paren = ⟨')', .code⟩ := by
      obtain ⟨c, role⟩ := paren
      obtain rfl : c = ')' := hparen
      obtain rfl : role = .code := hcode _ mem_cons_self
      rfl
    rw [id, codeCells_cons, codeCells_cons, codeCells_chars hclause.code]
    refine (ih.append_word hword).part ?_
    rwa [leadingWord_append hword, hrest, append_nil]

end StructuredText
