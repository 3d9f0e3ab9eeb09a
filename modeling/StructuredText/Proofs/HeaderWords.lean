import StructuredText.Proofs.HeaderLines

/-!
# Headers are found by their words

A header is found from word to word. What stands between the words does not matter, apart from
semicolons, so that a header is found in the same place if the gaps between the words change.

Results:
1. `Regapped.wholeWord`: a word is read in the same place.
2. `Regapped.clauseFrom`: the word that ends a header is found with the same words before it.
3. `Regapped.find`: so is the header.
-/

namespace StructuredText

open List Literal LineKind

variable {keyword before before' clause : List Char} {stop : Cursor} {pos : Nat}

/-! ## Texts that differ in the gaps between words -/

/-- Some gaps between words are other gaps in the second text. A semicolon stands in both or in none
of the two. -/
inductive Regapped : List Char → List Char → Prop
  | nil : Regapped [] []
  | keep (c : Char) {text text' : List Char} :
      Regapped text text' → Regapped (c :: text) (c :: text')
  | change {gap gap' text text' : List Char} :
      gap ≠ [] → gap' ≠ [] → (∀ c ∈ gap, isWordChar c = false) →
      (∀ c ∈ gap', isWordChar c = false) →
      (';' ∈ gap ↔ ';' ∈ gap') → Regapped text text' → Regapped (gap ++ text) (gap' ++ text')

theorem startsWithWordChar_append {word : List Char} (hne : word ≠ [])
    (hword : ∀ c ∈ word, isWordChar c = true) (rest : List Char) :
    startsWithWordChar (word ++ rest) = true := by
  obtain ⟨c, word, rfl⟩ := exists_cons_of_ne_nil hne
  exact hword c mem_cons_self

namespace Regapped

theorem refl : ∀ text, Regapped text text
  | [] => .nil
  | c :: text => .keep c (refl text)

variable {text text' : List Char}

theorem symm (h : Regapped text text') : Regapped text' text := by
  induction h with
  | nil => exact .nil
  | keep c _ ih => exact .keep c ih
  | change hne hne' hgap hgap' hsemicolon _ ih =>
      exact .change hne' hne hgap' hgap hsemicolon.symm ih

theorem append {first first' : List Char} (h : Regapped first first')
    (htext : Regapped text text') : Regapped (first ++ text) (first' ++ text') := by
  induction h with
  | nil => exact htext
  | keep c _ ih => exact .keep c ih
  | change hne hne' hgap hgap' hsemicolon _ ih =>
    rw [append_assoc, append_assoc]
    exact .change hne hne' hgap hgap' hsemicolon ih

/-- Both texts start with a word, or none of them does. -/
theorem startsWithWordChar_eq (h : Regapped text text') :
    startsWithWordChar text = startsWithWordChar text' := by
  cases h with
  | nil | keep c _ => rfl
  | change hne hne' hgap hgap' _ _ =>
    obtain ⟨c, gap, rfl⟩ := exists_cons_of_ne_nil hne
    obtain ⟨d, gap', rfl⟩ := exists_cons_of_ne_nil hne'
    exact (hgap c mem_cons_self).trans (hgap' d mem_cons_self).symm

/-- Both texts start with the same word. -/
theorem exists_append {word : List Char} (hword : ∀ c ∈ word, isWordChar c = true) :
    ∀ {text' : List Char}, Regapped (word ++ text) text' →
      ∃ rest, text' = word ++ rest ∧ Regapped text rest := by
  induction word with
  | nil => exact fun h => ⟨_, rfl, h⟩
  | cons c word ih =>
    intro text' h
    obtain ⟨hc, hword⟩ := forall_mem_cons.mp hword
    generalize hall : c :: word ++ text = all at h
    cases h with
    | nil => cases hall
    | keep d h =>
      obtain ⟨rfl, rfl⟩ := cons_eq_cons.mp hall
      obtain ⟨rest, rfl, hrest⟩ := ih hword h
      exact ⟨rest, rfl, hrest⟩
    | change hne _ hgap _ _ _ =>
      obtain ⟨d, gap, rfl⟩ := exists_cons_of_ne_nil hne
      obtain ⟨rfl, -⟩ := cons_eq_cons.mp hall
      rw [hgap c mem_cons_self] at hc
      cases hc

/-- A word is read in the same place. -/
theorem wholeWord (hkeyword : AreKeywords [keyword]) (h : Regapped text text')
    (hbefore : startsWithWordChar before = startsWithWordChar before')
    (hread : Cursor.wholeWord [keyword] ⟨pos, before, text⟩ = some stop) (pos' : Nat) :
    ∃ word rest, word ≠ [] ∧ Cursor.Reads ⟨pos, before, text⟩ stop word ∧ text' = word ++ rest ∧
      Regapped stop.after rest ∧ Cursor.wholeWord [keyword] ⟨pos', before', text'⟩ =
        some ⟨pos' + word.length, word.reverse ++ before', rest⟩ := by
  obtain ⟨hstart, hstop, keyword', hmem, hword⟩ := Cursor.reads_wholeWord hread
  obtain rfl := mem_singleton.mp hmem
  obtain ⟨word, hreads, hsame⟩ := Cursor.reads_word hword
  obtain ⟨hne, hchars⟩ := Spells.isWordChar hkeyword ⟨keyword', hmem, hsame⟩
  have htext : text = word ++ stop.after := hreads.after
  rw [htext] at h
  obtain ⟨rest, rfl, hrest⟩ := exists_append hchars h
  refine ⟨word, rest, hne, hreads, rfl, hrest, ?_⟩
  have hfirst : ∀ tail, startsWithWordChar (word ++ tail) = true :=
    startsWithWordChar_append hne hchars
  have hlast : ∀ tail, startsWithWordChar (word.reverse ++ tail) = true :=
    startsWithWordChar_append (by simpa using hne) (by simpa using hchars)
  have hstart' :
      Cursor.boundary ⟨pos', before', word ++ rest⟩ = some ⟨pos', before', word ++ rest⟩ := by
    refine if_pos (Eq.trans ?_ hstart)
    rw [Cursor.atBoundary, Cursor.atBoundary, htext, atWordBoundary, atWordBoundary,
      hbefore, hfirst, hfirst]
  have hstop' : ∀ place, Cursor.boundary ⟨place, word.reverse ++ before', rest⟩ =
      some ⟨place, word.reverse ++ before', rest⟩ := by
    intro place
    refine if_pos (Eq.trans ?_ hstop)
    rw [Cursor.atBoundary, Cursor.atBoundary, hreads.before, atWordBoundary, atWordBoundary, hlast,
      hlast, hrest.startsWithWordChar_eq]
  simp only [Cursor.wholeWord, findSome?_cons, hstart', Option.bind_eq_bind, Option.bind_some,
    Cursor.word_append hsame, hstop']

end Regapped

/-- A gap holds no words. -/
theorem filter_eq_nil {gap : List Char} (h : ∀ c ∈ gap, isWordChar c = false) :
    gap.filter isWordChar = [] :=
  filter_eq_nil_iff.mpr fun c hc => by simp [h c hc]

/-! ## Reading headers -/

namespace Header

theorem clause_checked {family : Family} (hfamily : family ∈ families) :
    AreKeywords [family.clause] := by
  intro word hword
  rw [mem_singleton.mp hword]
  exact families_checked family hfamily _ (by simp)

/-- No word is read where none starts. -/
theorem wholeWord_eq_none (hkeyword : AreKeywords [keyword]) {rest : List Char} {c : Char}
    (hc : isWordChar c = false) :
    Cursor.wholeWord [keyword] ⟨pos, before, c :: rest⟩ = none := by
  rw [Option.eq_none_iff_forall_ne_some]
  intro stop hread
  obtain ⟨-, -, keyword', hmem, hword⟩ := Cursor.reads_wholeWord hread
  obtain ⟨word, hreads, hsame⟩ := Cursor.reads_word hword
  obtain ⟨hne, hchars⟩ := Spells.isWordChar hkeyword ⟨keyword', hmem, hsame⟩
  have hafter : c :: rest = word ++ stop.after := hreads.after
  have hstarts := startsWithWordChar_append hne hchars stop.after
  rw [← hafter, startsWithWordChar, hc] at hstarts
  cases hstarts

theorem clauseFrom_of_wholeWord {text : List Char}
    (h : Cursor.wholeWord [clause] ⟨pos, before, text⟩ = some stop) :
    clauseFrom clause pos before text = some stop := by
  cases text with
  | nil => exact h
  | cons c text => rw [clauseFrom, h]

theorem clauseFrom_cons {text : List Char} {c : Char}
    (h : Cursor.wholeWord [clause] ⟨pos, before, c :: text⟩ = none) :
    clauseFrom clause pos before (c :: text) =
      if c = ';' then none else clauseFrom clause (pos + 1) (c :: before) text := by
  rw [clauseFrom, h]

/-- The search for the word that ends a header goes over a gap without semicolons. -/
theorem clauseFrom_gap (hclause : AreKeywords [clause]) {gap : List Char}
    (hgap : ∀ c ∈ gap, isWordChar c = false) (text : List Char) : ∀ pos before,
      clauseFrom clause pos before (gap ++ text) =
        if ';' ∈ gap then none
        else clauseFrom clause (pos + gap.length) (gap.reverse ++ before) text := by
  induction gap with
  | nil => exact fun _ _ => rfl
  | cons c gap ih =>
    intro pos before
    obtain ⟨hc, hgap⟩ := forall_mem_cons.mp hgap
    rw [cons_append, clauseFrom_cons (wholeWord_eq_none hclause hc), ih hgap]
    by_cases hsemicolon : c = ';'
    · simp [hsemicolon]
    · simp [hsemicolon, Ne.symm hsemicolon, Nat.add_assoc, Nat.add_comm 1]

end Header

/-- A second search comes to an end too, with the same words read. -/
def EndsAlike (start start' stop : Cursor) (search : Option Cursor) : Prop :=
  ∃ stop' read read', search = some stop' ∧ start.Reads stop read ∧ start'.Reads stop' read' ∧
    read'.filter isWordChar = read.filter isWordChar

theorem EndsAlike.of_reads {start start' middle middle' : Cursor} {search : Option Cursor}
    {first first' : List Char} (h : EndsAlike middle middle' stop search)
    (hfirst : start.Reads middle first) (hfirst' : start'.Reads middle' first')
    (hsame : first'.filter isWordChar = first.filter isWordChar) :
    EndsAlike start start' stop search := by
  obtain ⟨stop', read, read', hsearch, hread, hread', hwords⟩ := h
  refine ⟨stop', first ++ read, first' ++ read', hsearch, hfirst.trans hread,
    hfirst'.trans hread', ?_⟩
  rw [filter_append, filter_append, hsame, hwords]

namespace Regapped

variable {text text' : List Char}

theorem endsAlike_of_wholeWord (hclause : AreKeywords [clause]) (h : Regapped text text')
    {pos' : Nat} (hbefore : startsWithWordChar before = startsWithWordChar before')
    (hread : Cursor.wholeWord [clause] ⟨pos, before, text⟩ = some stop) :
    EndsAlike ⟨pos, before, text⟩ ⟨pos', before', text'⟩ stop
      (Header.clauseFrom clause pos' before' text') := by
  obtain ⟨word, rest, -, hreads, rfl, -, hread'⟩ := h.wholeWord hclause hbefore hread pos'
  exact ⟨_, word, word, Header.clauseFrom_of_wholeWord hread', hreads, ⟨rfl, rfl, rfl⟩, rfl⟩

theorem wholeWord_eq_none (hkeyword : AreKeywords [keyword]) (h : Regapped text text') {pos' : Nat}
    (hbefore : startsWithWordChar before = startsWithWordChar before')
    (hnone : Cursor.wholeWord [keyword] ⟨pos, before, text⟩ = none) :
    Cursor.wholeWord [keyword] ⟨pos', before', text'⟩ = none := by
  rw [Option.eq_none_iff_forall_ne_some]
  intro stop hread
  obtain ⟨_, _, -, -, -, -, hread'⟩ := h.symm.wholeWord hkeyword hbefore.symm hread pos
  rw [hnone] at hread'
  cases hread'

/-- The word that ends a header is found, with the same words before it. -/
theorem clauseFrom (hclause : AreKeywords [clause]) (h : Regapped text text') :
    ∀ {pos : Nat} (pos' : Nat) {before before' : List Char},
      startsWithWordChar before = startsWithWordChar before' → ∀ {stop : Cursor},
      Header.clauseFrom clause pos before text = some stop →
      EndsAlike ⟨pos, before, text⟩ ⟨pos', before', text'⟩ stop
        (Header.clauseFrom clause pos' before' text') := by
  induction h with
  | nil => exact fun _ _ _ hbefore _ hread => endsAlike_of_wholeWord hclause .nil hbefore hread
  | @keep c text text' htext ih =>
    intro pos pos' before before' hbefore stop hread
    cases hword : Cursor.wholeWord [clause] ⟨pos, before, c :: text⟩ with
    | some stop' =>
      rw [Header.clauseFrom_of_wholeWord hword] at hread
      cases hread
      exact endsAlike_of_wholeWord hclause (.keep c htext) hbefore hword
    | none =>
      rw [Header.clauseFrom_cons hword] at hread
      rw [Header.clauseFrom_cons (wholeWord_eq_none hclause (.keep c htext) hbefore hword)]
      by_cases hsemicolon : c = ';'
      · rw [if_pos hsemicolon] at hread
        cases hread
      · rw [if_neg hsemicolon] at hread ⊢
        exact (@ih _ (pos' + 1) (c :: before) (c :: before') rfl stop hread).of_reads
          (⟨rfl, rfl, rfl⟩ : Cursor.Reads _ _ [c]) (⟨rfl, rfl, rfl⟩ : Cursor.Reads _ _ [c]) rfl
  | @change gap gap' text text' hne hne' hgap hgap' hsemicolon _ ih =>
    intro pos pos' before before' _ stop hread
    rw [Header.clauseFrom_gap hclause hgap] at hread
    rw [Header.clauseFrom_gap hclause hgap']
    by_cases hmem : ';' ∈ gap
    · rw [if_pos hmem] at hread
      cases hread
    rw [if_neg hmem] at hread
    rw [if_neg fun hmem' => hmem (hsemicolon.mpr hmem')]
    -- No word goes on behind the gaps.
    have hedge : ∀ {gap before : List Char}, gap ≠ [] → (∀ c ∈ gap, isWordChar c = false) →
        startsWithWordChar (gap.reverse ++ before) = false := by
      intro gap before hne hgap
      obtain ⟨c, tail, htail⟩ := exists_cons_of_ne_nil (reverse_ne_nil_iff.mpr hne)
      rw [htail]
      exact hgap c (mem_reverse.mp (htail ▸ mem_cons_self))
    exact (ih _ ((hedge hne hgap).trans (hedge hne' hgap').symm) hread).of_reads
      (⟨rfl, rfl, rfl⟩ : Cursor.Reads _ _ gap) (⟨rfl, rfl, rfl⟩ : Cursor.Reads _ _ gap')
      ((filter_eq_nil hgap').trans (filter_eq_nil hgap).symm)

/-- A header is found, with the same words in it. -/
theorem find {family : Header.Family} (hfamily : family ∈ Header.families) (h : Regapped text text')
    {pos pos' : Nat} {before before' : List Char}
    (hbefore : startsWithWordChar before = startsWithWordChar before') {n : Nat}
    (hfind : Header.find family false ⟨pos, before, text⟩ = some (n, ())) :
    ∃ n', Header.find family false ⟨pos', before', text'⟩ = some (n', ()) ∧
      (text'.take n').filter isWordChar = (text.take n).filter isWordChar := by
  obtain ⟨stop, hread, rfl⟩ := ofReader_eq_some.mp hfind
  obtain ⟨stop, hread, heq⟩ := Option.map_eq_some_iff.mp hread
  cases heq
  obtain ⟨inside, hkeyword, hclause⟩ := Option.bind_eq_some_iff.mp hread
  obtain ⟨word, rest, hne, hreads, rfl, hrest, hkeyword'⟩ :=
    h.wholeWord (Header.keyword_checked hfamily) hbefore hkeyword pos'
  have hedge : startsWithWordChar inside.before = startsWithWordChar (word.reverse ++ before') := by
    rw [hreads.before]
    obtain ⟨c, tail, htail⟩ := exists_cons_of_ne_nil (reverse_ne_nil_iff.mpr hne)
    rw [htail]
    rfl
  obtain ⟨stop', read, read', hclause', hread, hread', hsame⟩ :=
    (hrest.clauseFrom (Header.clause_checked hfamily) (pos' + word.length) hedge hclause).of_reads
      hreads (⟨rfl, rfl, rfl⟩ : Cursor.Reads ⟨pos', before', word ++ rest⟩ _ word) rfl
  refine ⟨read'.length, ?_, ?_⟩
  · refine ofReader_eq_some.mpr ⟨stop', ?_, ?_⟩
    · rw [Header.reader, hkeyword', Option.bind_eq_bind, Option.bind_some, hclause']
      rfl
    · rw [hread'.pos, Nat.add_sub_cancel_left]
  · have htext : text = read ++ stop.after := hread.after
    have htext' : word ++ rest = read' ++ stop'.after := hread'.after
    rw [hread.pos, Nat.add_sub_cancel_left, htext, htext', take_left, take_left, hsame]

/-- The words of both texts are the same. -/
theorem filter_eq (h : Regapped text text') : text'.filter isWordChar = text.filter isWordChar := by
  induction h with
  | nil => rfl
  | keep c _ ih => rw [filter_cons, filter_cons, ih]
  | change _ _ hgap hgap' _ _ ih =>
    rw [filter_append, filter_append, filter_eq_nil hgap, filter_eq_nil hgap', ih]

end Regapped

/-! ## Gaps that change step by step -/

/-- Texts that end with a word are the same if the words in them are, where one starts as the
other. -/
theorem eq_of_filter_eq {first first' rest rest' : List Char} (h : first ++ rest = first' ++ rest')
    (hsame : first.filter isWordChar = first'.filter isWordChar)
    (hlast : ∃ c ∈ first.getLast?, isWordChar c = true)
    (hlast' : ∃ c ∈ first'.getLast?, isWordChar c = true) : first = first' := by
  -- What one of them has behind the other holds no word.
  have hnil : ∀ {first more : List Char},
      first.filter isWordChar = (first ++ more).filter isWordChar →
      (∃ c ∈ (first ++ more).getLast?, isWordChar c = true) → more = [] := by
    intro first more hsame hlast
    by_contra hne
    obtain ⟨c, hc, hword⟩ := hlast
    rw [getLast?_append_of_ne_nil _ hne] at hc
    have hmem : c ∈ more.filter isWordChar := mem_filter.mpr ⟨mem_of_getLast? hc, hword⟩
    rw [filter_append, self_eq_append_right] at hsame
    rw [hsame] at hmem
    cases hmem
  rcases append_eq_append_iff.mp h with ⟨more, rfl, -⟩ | ⟨more, rfl, -⟩
  · rw [hnil hsame hlast', append_nil]
  · rw [hnil hsame.symm hlast, append_nil]

/-- Gaps between words change, step after step. -/
def Regaps : List Char → List Char → Prop :=
  Relation.ReflTransGen Regapped

namespace Regaps

variable {text text' : List Char}

theorem symm (h : Regaps text text') : Regaps text' text := by
  induction h with
  | refl => exact .refl
  | tail _ hstep ih => exact .head hstep.symm ih

theorem append {first first' : List Char} (h : Regaps first first') (htext : Regaps text text') :
    Regaps (first ++ text) (first' ++ text') :=
  (h.lift (· ++ text) fun _ _ hstep => hstep.append (.refl text)).trans
    (htext.lift (first' ++ ·) fun _ _ hstep => (Regapped.refl first').append hstep)

theorem filter_eq (h : Regaps text text') : text'.filter isWordChar = text.filter isWordChar := by
  induction h with
  | refl => rfl
  | tail _ hstep ih => rw [hstep.filter_eq, ih]

section

variable {family : Header.Family} (hfamily : family ∈ Header.families) {pos pos' : Nat}
  {before before' : List Char} (hbefore : startsWithWordChar before = startsWithWordChar before')
include hfamily hbefore

theorem find (h : Regaps text text') {n : Nat}
    (hfind : Header.find family false ⟨pos, before, text⟩ = some (n, ())) :
    ∃ n', Header.find family false ⟨pos', before', text'⟩ = some (n', ()) ∧
      (text'.take n').filter isWordChar = (text.take n).filter isWordChar := by
  induction h with
  | refl => exact (Regapped.refl text).find hfamily hbefore hfind
  | tail _ hstep ih =>
    obtain ⟨n', hfind', hsame⟩ := ih
    obtain ⟨n'', hfind'', hsame'⟩ := hstep.find hfamily rfl hfind'
    exact ⟨n'', hfind'', hsame'.trans hsame⟩

theorem find_eq_none (h : Regaps text text')
    (hfind : Header.find family false ⟨pos, before, text⟩ = none) :
    Header.find family false ⟨pos', before', text'⟩ = none := by
  rw [Option.eq_none_iff_forall_ne_some]
  rintro ⟨n, ⟨⟩⟩ hfound
  obtain ⟨n', hfound', -⟩ := @find _ _ _ hfamily pos' pos _ _ hbefore.symm h.symm n hfound
  rw [hfind] at hfound'
  cases hfound'

/-- A header is found with other gaps in it and behind it, from its first word to its last. -/
theorem find_append {block block' : List Char} (hblock : Regaps block block')
    (htext : Regaps text text') (hlast : ∃ c ∈ block'.getLast?, isWordChar c = true)
    (hfind : Header.find family false ⟨pos, before, block ++ text⟩ = some (block.length, ())) :
    Header.find family false ⟨pos', before', block' ++ text'⟩ = some (block'.length, ()) := by
  obtain ⟨n, hfound, hsame⟩ := (hblock.append htext).find hfamily hbefore hfind
  obtain ⟨found, rest, hsplit, rfl, -, d, hd, hdsign⟩ := Header.reads_find hfamily hfound
  have hsplit : block' ++ text' = found ++ rest := hsplit
  rw [hfound]
  rw [hsplit, take_left, take_left, ← hblock.filter_eq] at hsame
  have hword : isWordChar d = true := by
    rw [isWordSign, Bool.and_eq_true] at hdsign
    exact hdsign.1
  rw [eq_of_filter_eq hsplit hsame.symm hlast ⟨d, hd, hword⟩]

end

end Regaps

end StructuredText
