import StructuredText.Proofs.Settled

/-!
# Words at parentheses

Some rules depend on the word that stands before an opening parenthesis of the code and on whether
blanks are in between, others on the word right behind a closing one. `leads` and `trails` list
these words, so that passes can be compared by them.

Results:
1. `Rewrites.treats`: what a rule on words and parentheses makes of the words before parentheses.
2. `Strip.leads_regap`, `Strip.trails_regap`: the rules on gaps keep the words at parentheses.
-/

namespace StructuredText

open List Literal Spacing

variable {cells gap : List Cell} {item : Item} {following : List Char} {prev : Option Item}
  {strip : Strip}

/-! ## Words before parentheses -/

/-- The word that stands before a place: its cells, nearest first, and whether it ends right
there. -/
structure Lead where
  word : List Cell
  touching : Bool
deriving DecidableEq

namespace Lead

/-- No word stands before the place. -/
def start : Lead :=
  ⟨[], true⟩

/-- What stands before the place behind a cell. -/
def step (lead : Lead) (cell : Cell) : Lead :=
  if cell.isCode && isBlank cell.char then ⟨lead.word, false⟩
  else if isWordChar cell.char then ⟨if lead.touching then cell :: lead.word else [cell], true⟩
  else start

/-- What stands before the place behind some cells. -/
def after (lead : Lead) (cells : List Cell) : Lead :=
  cells.foldl step lead

end Lead

/-- The words before the opening parentheses of the code, from left to right. `lead` stands before
the cells. -/
def leads (lead : Lead) : List Cell → List Lead
  | [] => []
  | cell :: rest =>
      (if cell = ⟨'(', .code⟩ ∧ lead.word ≠ [] then [lead] else []) ++ leads (lead.step cell) rest

section Leads

variable {lead : Lead} {cells first second : List Cell} {cell : Cell}

@[simp] theorem Lead.after_nil : lead.after [] = lead := rfl

@[simp] theorem Lead.after_cons : lead.after (cell :: cells) = (lead.step cell).after cells := rfl

theorem Lead.after_append : lead.after (first ++ second) = (lead.after first).after second :=
  foldl_append

theorem leads_append :
    leads lead (first ++ second) = leads lead first ++ leads (lead.after first) second := by
  induction first generalizing lead with
  | nil => rfl
  | cons cell first ih => rw [cons_append, leads, leads, ih, append_assoc,
      Lead.after_cons]

/-- No word is listed where there is no parenthesis. -/
theorem leads_eq_nil (h : ⟨'(', .code⟩ ∉ cells) : leads lead cells = [] := by
  induction cells generalizing lead with
  | nil => rfl
  | cons cell cells ih =>
    rw [mem_cons, not_or] at h
    rw [leads, if_neg (fun heq => h.1 heq.1.symm), ih h.2]
    rfl

theorem Lead.step_blank (hcode : cell.role = .code) (hblank : isBlank cell.char = true) :
    lead.step cell = ⟨lead.word, false⟩ := by
  rw [step, Cell.isCode_iff.mpr hcode, hblank]
  rfl

theorem Lead.step_word (hword : isWordChar cell.char = true) :
    lead.step cell = ⟨if lead.touching then cell :: lead.word else [cell], true⟩ := by
  have hblank : isBlank cell.char = false := by
    by_contra hblank
    rw [isWordChar_of_isBlank (Bool.not_eq_false _ ▸ hblank)] at hword
    cases hword
  rw [step, hblank, Bool.and_false, if_neg Bool.false_ne_true, if_pos hword]

/-- Behind a sign no word stands. -/
theorem Lead.step_sign (hword : isWordChar cell.char = false)
    (hblank : cell.role = .code → isBlank cell.char = false) : lead.step cell = start := by
  have hnot : (cell.isCode && isBlank cell.char) = false := by
    rw [Bool.and_eq_false_iff]
    by_cases hcode : cell.role = .code
    · exact .inr (hblank hcode)
    · exact .inl (by rw [Bool.eq_false_iff]; exact fun hiff => hcode (Cell.isCode_iff.mp hiff))
  rw [step, hnot, hword, if_neg Bool.false_ne_true, if_neg Bool.false_ne_true]

/-- Cells of a word are added to the word that they go on with. -/
theorem Lead.after_word (hword : ∀ cell ∈ cells, isWordChar cell.char = true) (hne : cells ≠ []) :
    lead.after cells = ⟨cells.reverse ++ if lead.touching then lead.word else [], true⟩ := by
  induction cells generalizing lead with
  | nil => exact absurd rfl hne
  | cons cell cells ih =>
    rw [after_cons, step_word (hword cell mem_cons_self)]
    cases cells with
    | nil => cases lead.touching <;> rfl
    | cons other cells =>
      rw [ih (fun c hc => hword c (mem_cons_of_mem _ hc)) (cons_ne_nil _ _)]
      cases lead.touching <;> simp

/-- A word that starts at a place stands before the place behind it. -/
theorem Lead.after_fresh (hfresh : lead.word = [] ∨ lead.touching = false)
    (hword : ∀ cell ∈ cells, isWordChar cell.char = true) (hne : cells ≠ []) :
    lead.after cells = ⟨cells.reverse, true⟩ := by
  rw [after_word hword hne]
  rcases hfresh with hnil | hparted
  · rw [hnil, ite_self, append_nil]
  · rw [hparted, if_neg Bool.false_ne_true, append_nil]

/-- Blanks of the code part a word from what follows. -/
theorem Lead.after_blanks (hblank : ∀ cell ∈ cells, isBlank cell.char = true)
    (hcode : ∀ cell ∈ cells, cell.role = .code) :
    lead.after cells = ⟨lead.word, lead.touching && cells.isEmpty⟩ := by
  induction cells generalizing lead with
  | nil => simp
  | cons cell cells ih =>
    rw [after_cons, step_blank (hcode cell mem_cons_self) (hblank cell mem_cons_self),
      ih (fun c hc => hblank c (mem_cons_of_mem _ hc)) fun c hc =>
      hcode c (mem_cons_of_mem _ hc)]
    simp

/-- Behind blanks that are not all code no word stands. -/
theorem Lead.word_after_blanks (hblank : ∀ cell ∈ cells, isBlank cell.char = true)
    (hrole : ∃ cell ∈ cells, cell.role ≠ .code) : (lead.after cells).word = [] := by
  have hkept : ∀ {cells : List Cell} {lead : Lead}, (∀ cell ∈ cells, isBlank cell.char = true) →
      lead.word = [] → (lead.after cells).word = [] := by
    intro cells
    induction cells with
    | nil => exact fun _ h => h
    | cons cell cells ih =>
      intro lead hblank hword
      refine ih (fun c hc => hblank c (mem_cons_of_mem _ hc)) ?_
      by_cases hcode : cell.role = .code
      · rw [step_blank hcode (hblank cell mem_cons_self)]
        exact hword
      · rw [step_sign (isWordChar_of_isBlank (hblank cell mem_cons_self))
          fun heq => absurd heq hcode]
        rfl
  obtain ⟨cell, hcell, hcode⟩ := hrole
  obtain ⟨left, right, rfl⟩ := append_of_mem hcell
  rw [after_append, after_cons]
  refine hkept (fun c hc => hblank c (by simp [hc])) ?_
  rw [step_sign (isWordChar_of_isBlank (hblank cell (by simp))) fun heq => absurd heq hcode]
  rfl

end Leads

/-! ## Rules on words before parentheses -/

/-- A rule that reads a word and the parenthesis behind it, with no blanks in between or with some,
and writes `gap` in between. -/
structure ParenRule where
  accepts : List Char → Prop
  touching : Bool
  gap : List Char
  ne_nil : ∀ word, accepts word → word ≠ []
  word : ∀ word, accepts word → ∀ c ∈ word, isWordChar c = true
  blank : ∀ c ∈ gap, isBlank c = true
  gap_eq_nil : gap = [] ↔ touching = false

namespace ParenRule

/-- The rule reads the word and the gap behind `before`. -/
structure Reads (rule : ParenRule) (before word gap : List Char) : Prop where
  accepts : rule.accepts word
  starts : startsWithWordChar before = false
  blank : ∀ c ∈ gap, isBlank c = true
  gap_eq_nil : gap = [] ↔ rule.touching = true

/-- The rule applies to a word before a parenthesis. -/
structure Hits (rule : ParenRule) (lead : Lead) : Prop where
  code : ∀ cell ∈ lead.word, cell.role = .code
  accepts : rule.accepts (chars lead.word).reverse
  touching : lead.touching = rule.touching

/-- What becomes of a word before a parenthesis. -/
inductive Fixes (rule : ParenRule) : Lead → Lead → Prop
  | kept {lead : Lead} : ¬ rule.Hits lead → Fixes rule lead lead
  | fixed {lead : Lead} : rule.Hits lead → Fixes rule lead ⟨lead.word, !rule.touching⟩

/-- `find` and `write` do what the rule says, in texts of at most `bound` code points. -/
structure Follows {α : Type} (rule : ParenRule) (find : Recognizer α) (write : α → List Char)
    (bound : Nat) : Prop where
  sound : ∀ before text n value, find false ⟨before.length, before, text⟩ = some (n, value) →
    ∃ word gap rest, text = word ++ (gap ++ '(' :: rest) ∧ n = (word ++ (gap ++ ['('])).length ∧
      write value = word ++ (rule.gap ++ ['(']) ∧ rule.Reads before word gap
  complete : ∀ before word gap rest, rule.Reads before word gap →
    (word ++ (gap ++ '(' :: rest)).length ≤ bound →
    find false ⟨before.length, before, word ++ (gap ++ '(' :: rest)⟩ ≠ none

end ParenRule

/-- What is known behind a part of a text: nothing was found where the word before the place
starts. -/
structure Missed {α : Type} (find : Recognizer α) (lead : Lead) (before rest : List Char) :
    Prop where
  word : ∀ cell ∈ lead.word, isWordChar cell.char = true
  fresh : lead.word = [] ∨ lead.touching = false → startsWithWordChar before = false
  unfound : lead.word ≠ [] → ∃ gap behind, before = gap ++ (chars lead.word ++ behind) ∧
    (∀ c ∈ gap, isBlank c = true) ∧ (gap = [] ↔ lead.touching = true) ∧
    startsWithWordChar behind = false ∧
    find false ⟨behind.length, behind, (chars lead.word).reverse ++ (gap.reverse ++ rest)⟩ = none

namespace Missed

variable {α : Type} {find : Recognizer α} {lead : Lead} {before rest : List Char}

theorem start (h : startsWithWordChar before = false) : Missed find .start before rest where
  word := by simp [Lead.start]
  fresh := fun _ => h
  unfound := fun hne => absurd rfl hne

/-- A word starts at the place exactly if no word ends there. -/
theorem starts_iff (h : Missed find lead before rest) :
    startsWithWordChar before = false ↔ lead.word = [] ∨ lead.touching = false := by
  refine ⟨fun hstarts => ?_, h.fresh⟩
  by_contra hnot
  rw [not_or, Bool.not_eq_false] at hnot
  obtain ⟨gap, behind, rfl, -, hgap, -, -⟩ := h.unfound hnot.1
  obtain ⟨cell, word, hword⟩ := exists_cons_of_ne_nil hnot.1
  rw [hgap.mpr hnot.2, hword, List.nil_append, chars_cons, cons_append, startsWithWordChar,
    h.word cell (by rw [hword]; exact mem_cons_self)] at hstarts
  cases hstarts

/-- One more code point where nothing is found. -/
theorem step {cell : Cell} (h : Missed find lead before (cell.char :: rest))
    (hfind : find false ⟨before.length, before, cell.char :: rest⟩ = none) :
    Missed find (lead.step cell) (cell.char :: before) rest := by
  by_cases hword : isWordChar cell.char = true
  · by_cases hnew : lead.word = [] ∨ lead.touching = false
    · -- A word starts here.
      have hstep : lead.step cell = ⟨[cell], true⟩ := by
        rw [Lead.step_word hword]
        rcases hnew with hnil | hparted
        · rw [hnil, ite_self]
        · rw [hparted, if_neg Bool.false_ne_true]
      rw [hstep]
      refine ⟨by simpa using hword, by simp, fun _ =>
        ⟨[], before, rfl, by simp, by simp, h.fresh hnew, ?_⟩⟩
      simpa using hfind
    · -- The word goes on.
      have htouching : lead.touching = true := by
        rw [not_or, Bool.not_eq_false] at hnew
        exact hnew.2
      rw [Lead.step_word hword, htouching, if_pos rfl]
      obtain ⟨gap, behind, hbefore, -, hgap, hstarts, hunfound⟩ := h.unfound fun hnil =>
        hnew (.inl hnil)
      rw [hgap.mpr htouching] at hbefore hunfound
      refine ⟨?_, by simp, fun _ => ⟨[], behind, ?_, by simp, by simp, hstarts, ?_⟩⟩
      · simpa using ⟨hword, h.word⟩
      · simpa using hbefore
      · simpa using hunfound
  · rw [Bool.not_eq_true] at hword
    by_cases hblank : cell.role = .code ∧ isBlank cell.char = true
    · rw [Lead.step_blank hblank.1 hblank.2]
      refine ⟨h.word, fun _ => hword, fun hne => ?_⟩
      obtain ⟨gap, behind, rfl, hgap, -, hstarts, hunfound⟩ := h.unfound hne
      refine ⟨cell.char :: gap, behind, rfl, by simpa using ⟨hblank.2, hgap⟩, by simp, hstarts, ?_⟩
      simpa using hunfound
    · rw [Lead.step_sign hword fun hcode => by simpa using fun h => hblank ⟨hcode, h⟩]
      exact start hword

end Missed

/-- Behind a parenthesis no word stands. -/
theorem Lead.after_paren {paren : Cell}
    (hparen : paren.char = '(') (lead : Lead) (block : List Cell) :
    lead.after (block ++ [paren]) = .start := by
  rw [after_append, after_cons, after_nil]
  exact step_sign (by rw [hparen]; decide) fun _ => by rw [hparen]; decide

/-- What is listed for a word, blanks and a parenthesis. -/
theorem leads_block {lead : Lead} {word gap : List Cell} {paren : Cell}
    (hfresh : lead.word = [] ∨ lead.touching = false)
    (hword : ∀ cell ∈ word, isWordChar cell.char = true) (hne : word ≠ [])
    (hgap : ∀ cell ∈ gap, isBlank cell.char = true) (hparen : paren.char = '(') :
    leads lead (word ++ gap ++ [paren]) =
      if (gap ++ [paren]).all Cell.isCode then [⟨word.reverse, gap.isEmpty⟩] else [] := by
  have hnot : ∀ {cells : List Cell} {p : Char → Bool}, (∀ cell ∈ cells, p cell.char = true) →
      p '(' = false → ⟨'(', .code⟩ ∉ cells := by
    intro cells p hall hp hmem
    rw [hall _ hmem] at hp
    cases hp
  rw [leads_append, leads_append, leads_eq_nil (hnot hword (by decide)),
    leads_eq_nil (hnot hgap (by decide)), Lead.after_append, Lead.after_fresh hfresh hword hne,
    List.nil_append, List.nil_append, leads, leads, append_nil, all_append]
  by_cases hcode : gap.all Cell.isCode = true
  · rw [Lead.after_blanks hgap fun cell hcell =>
      Cell.isCode_iff.mp (all_eq_true.mp hcode cell hcell), hcode]
    obtain ⟨c, role⟩ := paren
    obtain rfl : c = '(' := hparen
    simp [Cell.isCode, hne]
  · have hrole : ∃ cell ∈ gap, cell.role ≠ .code := by
      simpa [Cell.isCode] using hcode
    rw [if_neg (fun h => h.2 (Lead.word_after_blanks hgap hrole)), if_neg (by simp [hcode])]

section Rule

variable {α : Type} {rule : ParenRule} {find : Recognizer α} {write : α → List Char} {bound : Nat}

/-- The cells that are found. -/
theorem ParenRule.Follows.block (hfollows : rule.Follows find write bound) {before : List Char}
    {block rest : List Cell} {value : α}
    (hfind : find false ⟨before.length, before, chars block ++ chars rest⟩ =
      some (block.length, value)) :
    ∃ word gap paren, block = word ++ gap ++ [paren] ∧ paren.char = '(' ∧
      rule.Reads before (chars word) (chars gap) ∧ write value = chars word ++
      (rule.gap ++ ['(']) := by
  obtain ⟨word, gap, behind, htext, hlength, hwrite, hreads⟩ := hfollows.sound _ _ _ _ hfind
  have hblock : chars block = word ++ (gap ++ ['(']) := by
    have happend : chars block ++ chars rest = word ++ (gap ++ ['(']) ++ behind := by
      simpa using htext
    exact (append_inj happend (by rw [length_chars, hlength])).1
  obtain ⟨word, tail, rfl, rfl, htail⟩ := chars_eq_append hblock
  obtain ⟨gap, last, rfl, rfl, hlast⟩ := chars_eq_append htail
  obtain ⟨paren, right, rfl, hparen, hright⟩ := map_eq_cons_iff.mp hlast
  obtain rfl := map_eq_nil_iff.mp hright
  exact ⟨word, gap, paren, (append_assoc _ _ _).symm, hparen, hreads, hwrite⟩

theorem isBlank_of_chars (h : ∀ c ∈ chars cells, isBlank c = true) :
    ∀ cell ∈ cells, isBlank cell.char = true :=
  fun _ hcell => h _ (mem_map_of_mem hcell)

theorem ParenRule.word_cells (rule : ParenRule) {word : List Cell} (h : rule.accepts (chars word)) :
    word ≠ [] ∧ ∀ cell ∈ word, isWordChar cell.char = true :=
  ⟨by simpa [chars] using rule.ne_nil _ h, fun _ hcell =>
    rule.word _ h _ (mem_map_of_mem hcell)⟩

/-- No word goes on behind a parenthesis. -/
theorem starts_behind_paren {paren : Cell} (hparen : paren.char = '(') (block : List Cell)
    (before : List Char) :
    startsWithWordChar ((chars (block ++ [paren])).reverse ++ before) = false := by
  rw [chars_append, reverse_append]
  change isWordChar paren.char = false
  rw [hparen]
  decide

/-- What a rule makes of the words before parentheses: it puts its gap behind those that it applies
to. If there are none, it changes nothing. -/
structure ParenRule.Treats (rule : ParenRule) (lead : Lead) (cells out : List Cell) : Prop where
  fixes : List.Forall₂ rule.Fixes (leads lead cells) (leads lead out)
  eq_self : (∀ entry ∈ leads lead cells, ¬ rule.Hits entry) → out = cells

namespace ParenRule.Treats

variable {lead : Lead} {rest out : List Cell}

/-- Cells in which the rule does not apply stay. -/
theorem append {block : List Cell} (h : rule.Treats (lead.after block) rest out)
    (hnot : ∀ entry ∈ leads lead block, ¬ rule.Hits entry) :
    rule.Treats lead (block ++ rest) (block ++ out) where
  fixes := by
    rw [leads_append, leads_append]
    exact rel_append (forall₂_same.mpr fun entry hentry =>
      .kept (hnot entry hentry)) h.fixes
  eq_self := by
    intro hnone
    rw [leads_append] at hnone
    rw [h.eq_self fun entry hentry => hnone entry (mem_append_right _ hentry)]

/-- The gap of the rule takes the place of the one behind a word that the rule applies to. -/
theorem fix {word : List Cell} (h : rule.Treats .start rest out)
    (hfresh : lead.word = [] ∨ lead.touching = false)
    (hhits : rule.Hits ⟨word.reverse, gap.isEmpty⟩)
    (hblank : ∀ cell ∈ gap, isBlank cell.char = true) (hcode : ∀ cell ∈ gap, cell.role = .code) :
    rule.Treats lead (word ++ gap ++ [⟨'(', .code⟩] ++ rest)
      (word ++ codeCells rule.gap ++ [⟨'(', .code⟩] ++ out) := by
  have haccepts : rule.accepts (chars word) := by simpa [chars] using hhits.accepts
  obtain ⟨hne, hword⟩ := rule.word_cells haccepts
  have hleads : ∀ {gap : List Cell}, (∀ cell ∈ gap, isBlank cell.char = true) →
      (∀ cell ∈ gap, cell.role = .code) → ∀ rest,
        leads lead (word ++ gap ++ [⟨'(', .code⟩] ++ rest) =
          ⟨word.reverse, gap.isEmpty⟩ :: leads .start rest := by
    intro gap hblank hcode rest
    have hall : (gap ++ [(⟨'(', .code⟩ : Cell)]).all Cell.isCode = true := by
      simpa [Cell.isCode] using hcode
    rw [@leads_append lead (word ++ gap ++ [(⟨'(', .code⟩ : Cell)]) rest, Lead.after_paren rfl,
      leads_block hfresh hword hne hblank rfl, if_pos hall, singleton_append]
  have hwritten := @hleads (codeCells rule.gap) (isBlank_of_chars (by simpa using rule.blank))
    (fun _ => role_of_mem_codeCells) out
  have hgap : (codeCells rule.gap).isEmpty = !rule.touching := by
    rw [Bool.eq_iff_iff, List.isEmpty_iff, Bool.not_eq_true', ← rule.gap_eq_nil]
    simp [codeCells]
  rw [hgap] at hwritten
  constructor
  · rw [hleads hblank hcode, hwritten]
    exact .cons (.fixed hhits) h.fixes
  · rw [hleads hblank hcode]
    exact fun hnone => absurd hhits (hnone _ mem_cons_self)

end ParenRule.Treats

/-- What a rule makes of the words before parentheses. Where it is not found, it does not apply. -/
theorem Rewrites.treats (hfollows : rule.Follows find write bound) {before : List Char}
    {out : List Cell} (h : Rewrites find write before cells out) :
    ∀ lead, Missed find lead before (chars cells) → before.length + cells.length ≤ bound →
      rule.Treats lead cells out := by
  induction h with
  | nil => exact fun _ _ _ => ⟨.nil, fun _ => rfl⟩
  | @miss before cell rest out hfind _ ih =>
    intro lead hmissed hbound
    have hrest := ih (lead.step cell) (hmissed.step hfind) (by simp at hbound ⊢; omega)
    refine @ParenRule.Treats.append rule lead rest out [cell] hrest fun entry hentry hhits => ?_
    rw [leads, leads, append_nil] at hentry
    split at hentry
    next hparen =>
      obtain rfl := mem_singleton.mp hentry
      -- The rule would have been found where the word starts.
      obtain ⟨gap, behind, rfl, hgap, hgapnil, hstarts, hunfound⟩ := hmissed.unfound hparen.2
      rw [hparen.1, chars_cons] at hunfound
      refine hfollows.complete behind (chars entry.word).reverse gap.reverse (chars rest)
        ⟨hhits.accepts, hstarts, by simpa using hgap, ?_⟩ ?_ hunfound
      · rw [reverse_eq_nil_iff, hgapnil, hhits.touching]
      · simp only [length_append, length_cons, length_reverse,
          length_chars] at hbound ⊢
        omega
    next => cases hentry
  | @blocked before block rest out value hfind hblock _ ih =>
    intro lead hmissed hbound
    obtain ⟨word, gap, paren, rfl, hparen, hreads, -⟩ := hfollows.block hfind
    obtain ⟨hne, hword⟩ := rule.word_cells hreads.accepts
    have hrest := ih .start (.start (starts_behind_paren hparen _ _)) (by simp at hbound ⊢; omega)
    refine .append (by rwa [Lead.after_paren hparen]) fun entry hentry hhits => ?_
    rw [leads_block (hmissed.starts_iff.mp hreads.starts) hword hne (isBlank_of_chars hreads.blank)
      hparen] at hentry
    split at hentry
    next hcode =>
      -- A part of a literal is in the word, so that the rule does not apply to it.
      obtain rfl := mem_singleton.mp hentry
      obtain ⟨cell, hcell, hrole⟩ := hblock
      rw [append_assoc] at hcell
      rcases mem_append.mp hcell with hcell | hcell
      · exact hrole (hhits.code cell (mem_reverse.mpr hcell))
      · exact hrole (Cell.isCode_iff.mp (all_eq_true.mp hcode cell hcell))
    next => cases hentry
  | @hit before block rest out value hfind _ hcode _ ih =>
    intro lead hmissed hbound
    obtain ⟨word, gap, paren, rfl, hparen, hreads, hwrite⟩ := hfollows.block hfind
    have hrest := ih .start (.start (starts_behind_paren hparen _ _)) (by simp at hbound ⊢; omega)
    have hwritten : codeCells (write value) = word ++ codeCells rule.gap ++ [⟨'(', .code⟩] := by
      rw [hwrite, codeCells_append, codeCells_append,
        codeCells_chars fun cell hcell => hcode cell (by simp [hcell]), append_assoc]
      rfl
    obtain rfl : paren = ⟨'(', .code⟩ := by
      obtain ⟨c, role⟩ := paren
      obtain rfl : c = '(' := hparen
      obtain rfl : role = .code := hcode ⟨'(', role⟩ (by simp)
      rfl
    have hhits : rule.Hits ⟨word.reverse, gap.isEmpty⟩ := by
      refine ⟨fun cell hcell => hcode cell (by simp [mem_reverse.mp hcell]), ?_, ?_⟩
      · simpa [chars] using hreads.accepts
      · rw [Bool.eq_iff_iff, List.isEmpty_iff, ← hreads.gap_eq_nil]
        simp [chars]
    rw [hwritten]
    exact hrest.fix (hmissed.starts_iff.mp hreads.starts) hhits (isBlank_of_chars hreads.blank)
      fun cell hcell => hcode cell (by simp [hcell])

end Rule

/-! ## Words before parentheses in rows -/

/-- Whether a word ends right at a place matters only where a word goes on or a parenthesis
opens. -/
theorem Lead.step_congr {word : List Cell} {touching touching' : Bool} {cell : Cell}
    (h : touching = touching' ∨ word = [] ∨ isWordChar cell.char = false ∧ cell ≠ ⟨'(', .code⟩) :
    leads ⟨word, touching⟩ [cell] = leads ⟨word, touching'⟩ [cell] ∧
      step ⟨word, touching⟩ cell = step ⟨word, touching'⟩ cell := by
  rcases h with rfl | rfl | ⟨hword, hparen⟩
  · exact ⟨rfl, rfl⟩
  · refine ⟨by simp [leads], ?_⟩
    rw [step, step, ite_self, ite_self]
  · refine ⟨by simp [leads, hparen], ?_⟩
    rw [step, step, hword]
    rfl

/-- Where no word stands, it does not matter whether blanks do. -/
theorem leads_fresh (touching : Bool) (cells : List Cell) :
    leads ⟨[], touching⟩ cells = leads .start cells := by
  cases cells with
  | nil => rfl
  | cons cell rest =>
    obtain ⟨hleads, hstep⟩ := @Lead.step_congr [] touching true cell (.inr (.inl rfl))
    rw [← singleton_append, leads_append, leads_append, hleads, Lead.after_cons, hstep]
    rfl

/-- The item before a gap lets a rule put a space into it. -/
def fills (prev : Option Item) : Bool :=
  prev.any Item.isSpaced || prev.any Item.isCodeComma

theorem filled_eq (prev next : Option Item) :
    filled prev next = (fills prev || next.any Item.isSpaced) :=
  rfl

/-- The code points of operators are in no word and are no blanks. -/
theorem Item.Fits.sign_chars (h : item.Fits following) (hsign : item.isSign = true) :
    ∀ cell ∈ item.cells,
      isWordChar cell.char = false ∧ isBlank cell.char = false ∧
      cell.char ≠ '(' ∧ cell.char ≠ ')' := by
  cases item with
  | plain cell => cases hsign
  | sign cells spaced =>
    have hnot : ∀ sign ∈ operators, ∀ c ∈ sign,
        isWordChar c = false ∧ isBlank c = false ∧ c ≠ '(' ∧ c ≠ ')' := by decide
    exact fun cell hcell => hnot _ (signAt_eq_some h.1).1 _ (mem_map_of_mem hcell)

/-- Behind an operator or a comma no word stands. -/
theorem Item.Fits.after_eq_start (h : item.Fits following) (hfills : fills (some item) = true)
    (lead : Lead) : lead.after item.cells = .start := by
  have hcells : ∀ cell ∈ item.cells, isWordChar cell.char = false ∧ isBlank cell.char = false := by
    rw [fills, Bool.or_eq_true, Option.any_some, Option.any_some] at hfills
    rcases hfills with hspaced | hcomma
    · have hsign : item.isSign = true := @isSign_of_isSpaced (some item) hspaced
      exact fun cell hcell =>
        ⟨(h.sign_chars hsign cell hcell).1, (h.sign_chars hsign cell hcell).2.1⟩
    · cases item with
      | plain cell =>
        rw [show cell = ⟨',', .code⟩ from beq_iff_eq.mp hcomma]
        decide
      | sign cells spaced => cases hcomma
  obtain ⟨init, cell, hlast⟩ := (eq_nil_or_concat' item.cells).resolve_left h.ne_nil
  have hcell := hcells cell (by rw [hlast]; simp)
  rw [hlast, Lead.after_append, Lead.after_cons, Lead.after_nil]
  exact Lead.step_sign hcell.1 fun _ => hcell.2

/-- A gap is closed before a comma, a line feed or a colon only. -/
theorem head_of_closed (hcode : filled prev (some item) = true → gap.all Cell.isCode = true)
    (hgap : gap ≠ []) (hnil : settle prev gap (some item) = []) :
    ∀ cell ∈ item.cells.head?, cell.char ∈ [',', '\n', ':'] := by
  intro cell hcell
  have hchar : (chars item.cells).head? = some cell.char := by
    rw [chars, head?_map, Option.mem_def.mp hcell, Option.map_some]
  rcases closed_of_settle hcode hgap hnil with hcomma | hends
  · rw [commaNext, Option.any_some, Bool.and_eq_true] at hcomma
    cases item with
    | plain other =>
      cases hcell
      rw [show cell = ⟨',', .code⟩ from beq_iff_eq.mp hcomma.1]
      decide
    | sign cells spaced => cases hcomma.1
  · rw [endsGap, Option.all_some, Option.any_some, Bool.or_eq_true] at hends
    rcases hends with hfeed | hcolon
    · rw [Item.head?_of_isFeed hfeed, Option.some.injEq] at hchar
      rw [← hchar]
      decide
    · rw [Item.head?_of_isColon hcolon, Option.some.injEq] at hchar
      rw [← hchar]
      decide

/-- What follows a gap that a rule opens or closes is in no word and is no parenthesis. -/
theorem head_of_settle (hfits : item.Fits following)
    (hcode : filled prev (some item) = true → gap.all Cell.isCode = true)
    (hchange : gap.isEmpty ≠ (settle prev gap (some item)).isEmpty) (hfills : fills prev = false) :
    ∀ cell ∈ item.cells.head?, isWordChar cell.char = false ∧ cell ≠ ⟨'(', .code⟩ := by
  intro cell hcell
  by_cases hgap : gap = []
  · have hfilled := filled_of_settle hcode hgap fun hnil => hchange (by rw [hnil, hgap])
    rw [filled_eq, hfills, Bool.false_or, Option.any_some] at hfilled
    have hsign : item.isSign = true := @isSign_of_isSpaced (some item) hfilled
    have hcell' := hfits.sign_chars hsign cell (mem_of_head? hcell)
    exact ⟨hcell'.1, fun heq => hcell'.2.2.1 (by rw [heq])⟩
  · have hnil : settle prev gap (some item) = [] := by
      by_contra hne
      refine hchange ?_
      rw [isEmpty_eq_false_iff.mpr hgap, isEmpty_eq_false_iff.mpr hne]
    have hclosers : ∀ c ∈ [',', '\n', ':'], isWordChar c = false ∧ c ≠ '(' := by decide
    obtain ⟨hword, hparen⟩ := hclosers _ (head_of_closed hcode hgap hnil cell hcell)
    exact ⟨hword, fun heq => hparen (by rw [heq])⟩

/-- A gap behind a word, as the rules make it, does the same to what follows. -/
theorem leads_gap (hfits : item.Fits following) (hpads : ∀ cell ∈ gap, isPad cell.char = true)
    (hcode : filled prev (some item) = true ∨ commaNext prev (some item) = true →
      gap.all Cell.isCode = true)
    {lead : Lead} (hlead : fills prev = true → lead.word = []) :
    leads (lead.after (settle prev gap (some item))) item.cells =
      leads (lead.after gap) item.cells ∧
      (lead.after (settle prev gap (some item))).after item.cells = (lead.after gap).after
      item.cells := by
  rcases settle_code hcode with hsame | ⟨hgap, hgap'⟩
  · rw [hsame]
    exact ⟨rfl, rfl⟩
  · obtain ⟨cell, more, hcells⟩ := exists_cons_of_ne_nil hfits.ne_nil
    have hpads' := @isPad_of_mem_settle prev (some item) gap hpads
    rw [Lead.after_blanks (fun cell hcell => isBlank_of_isPad (hpads cell hcell))
        fun cell hcell => Cell.isCode_iff.mp (all_eq_true.mp hgap cell hcell),
      Lead.after_blanks (fun cell hcell => isBlank_of_isPad (hpads' cell hcell))
        fun cell hcell => Cell.isCode_iff.mp (all_eq_true.mp hgap' cell hcell)]
    have hstep : leads ⟨lead.word, lead.touching && (settle prev gap (some item)).isEmpty⟩ [cell] =
          leads ⟨lead.word, lead.touching && gap.isEmpty⟩ [cell] ∧
        Lead.step ⟨lead.word, lead.touching && (settle prev gap (some item)).isEmpty⟩ cell =
          Lead.step ⟨lead.word, lead.touching && gap.isEmpty⟩ cell := by
      refine Lead.step_congr ?_
      by_cases hchange : gap.isEmpty = (settle prev gap (some item)).isEmpty
      · exact .inl (by rw [hchange])
      · cases hfills : fills prev with
        | true => exact .inr (.inl (hlead hfills))
        | false =>
          exact .inr (.inr (head_of_settle hfits (fun h => hcode (.inl h)) hchange hfills cell
            (by rw [hcells]; rfl)))
    rw [hcells, ← singleton_append, leads_append, leads_append, Lead.after_append,
      Lead.after_append, hstep.1]
    simp only [Lead.after_cons, Lead.after_nil, hstep.2]
    exact ⟨trivial, trivial⟩

/-- Gaps have no parentheses. -/
theorem paren_not_mem_gap (h : ∀ cell ∈ gap, isPad cell.char = true) {c : Char}
    (hc : isPad c = false) : ⟨c, .code⟩ ∉ gap := by
  intro hmem
  rw [h _ hmem] at hc
  cases hc

/-- The rules on gaps keep the words before parentheses. -/
theorem Strip.leads_regap (hreads : strip.Reads) :
    ∀ prev lead, (∀ item ∈ prev, ∃ following, item.Fits following) → strip.Clear prev →
      (fills prev = true → lead.word = []) →
      leads lead (strip.regap settle prev).cells = leads lead strip.cells := by
  induction strip with
  | last gap =>
    intro prev lead _ _ _
    rw [Strip.regap, Strip.cells, Strip.cells,
      leads_eq_nil (paren_not_mem_gap (isPad_of_mem_settle hreads) (by decide)),
      leads_eq_nil (paren_not_mem_gap hreads (by decide))]
  | next gap item rest ih =>
    intro prev lead hprev hclear hlead
    obtain ⟨hpads, hfits, hrest⟩ := hreads
    obtain ⟨hitem, hafter⟩ := leads_gap hfits hpads
      (hclear.all_isCode ⟨hpads, hfits, hrest⟩ hprev) hlead
    have hlater := ih hrest (some item) ((lead.after gap).after item.cells)
      (by rintro _ ⟨⟩; exact ⟨_, hfits⟩) hclear.2
      fun hfills => by rw [hfits.after_eq_start hfills]; rfl
    rw [Strip.regap, Strip.cells, Strip.cells, leads_append, leads_append, leads_append,
      leads_append, leads_eq_nil (paren_not_mem_gap (isPad_of_mem_settle hpads) (by decide)),
      leads_eq_nil (paren_not_mem_gap hpads (by decide)), hitem, hafter, hlater]

/-! ## Words behind parentheses -/

/-- The cells of the word that starts a text. -/
def leadingWord (cells : List Cell) : List Cell :=
  cells.takeWhile fun cell => isWordChar cell.char

/-- The words right behind the closing parentheses of the code, from left to right. -/
def trails : List Cell → List (List Cell)
  | [] => []
  | cell :: rest => (if cell = ⟨')', .code⟩ then [leadingWord rest] else []) ++ trails rest

theorem leadingWord_eq_nil (h : ∀ cell ∈ cells.head?, isWordChar cell.char = false) :
    leadingWord cells = [] := by
  cases cells with
  | nil => rfl
  | cons cell cells => exact takeWhile_cons_of_neg (by rw [h cell rfl]; decide)

theorem leadingWord_cons {cell : Cell} (h : isWordChar cell.char = true) (rest : List Cell) :
    leadingWord (cell :: rest) = cell :: leadingWord rest :=
  takeWhile_cons_of_pos h

/-- No word starts with a sign. -/
theorem leadingWord_sign {cell : Cell} (h : isWordChar cell.char = false) (rest : List Cell) :
    leadingWord (cell :: rest) = [] :=
  leadingWord_eq_nil fun _ hcell => by cases hcell; exact h

theorem trails_append_of_not_mem {first : List Cell} (h : ⟨')', .code⟩ ∉ first) (second :
    List Cell) : trails (first ++ second) = trails second := by
  induction first with
  | nil => rfl
  | cons cell first ih =>
    rw [mem_cons, not_or] at h
    rw [cons_append, trails, if_neg (Ne.symm h.1), ih h.2]
    rfl

theorem leadingWord_gap (hpads : ∀ cell ∈ gap, isPad cell.char = true) (hne : gap ≠ [])
    (rest : List Cell) : leadingWord (gap ++ rest) = [] := by
  refine leadingWord_eq_nil fun cell hcell => ?_
  rw [head?_append_of_ne_nil _ hne] at hcell
  exact isWordChar_of_isBlank (isBlank_of_isPad (hpads cell (mem_of_head? hcell)))

theorem Item.Fits.leadingWord_eq_nil (h : item.Fits following)
    (hword : ∀ cell ∈ item.cells.head?, isWordChar cell.char = false) (rest : List Cell) :
    leadingWord (item.cells ++ rest) = [] := by
  refine StructuredText.leadingWord_eq_nil fun cell hcell => hword cell ?_
  rwa [head?_append_of_ne_nil _ h.ne_nil] at hcell

/-- The rules on gaps keep the word that starts a text. -/
theorem Strip.leadingWord_regap (hreads : strip.Reads) :
    ∀ prev, (∀ item ∈ prev, ∃ following, item.Fits following) → strip.Clear prev →
      fills prev = false →
      leadingWord (strip.regap settle prev).cells = leadingWord strip.cells := by
  induction strip with
  | last gap =>
    intro prev _ _ _
    have hnil : ∀ gap : List Cell, (∀ cell ∈ gap, isPad cell.char = true) → leadingWord gap = [] :=
      fun gap hpads => leadingWord_eq_nil fun cell hcell =>
        isWordChar_of_isBlank (isBlank_of_isPad (hpads cell (mem_of_head? hcell)))
    rw [Strip.regap, Strip.cells, Strip.cells, hnil _ (isPad_of_mem_settle hreads), hnil _ hreads]
  | next gap item rest ih =>
    intro prev hprev hclear hfills
    obtain ⟨hpads, hfits, hrest⟩ := hreads
    have hcode : filled prev (some item) = true → gap.all Cell.isCode = true :=
      fun h => hclear.all_isCode ⟨hpads, hfits, hrest⟩ hprev (.inl h)
    rw [Strip.regap, Strip.cells, Strip.cells]
    by_cases hchange : gap.isEmpty = (settle prev gap (some item)).isEmpty
    · by_cases hgap : gap = []
      · have hgap' : settle prev gap (some item) = [] := by
          rw [← List.isEmpty_iff, ← hchange, hgap]
          rfl
        rw [hgap', hgap, List.nil_append, List.nil_append]
        by_cases hword : ∀ cell ∈ item.cells.head?, isWordChar cell.char = false
        · rw [hfits.leadingWord_eq_nil hword, hfits.leadingWord_eq_nil hword]
        · -- The item is a code point of the word.
          cases item with
          | sign cells spaced =>
            exact absurd (fun cell hcell =>
              (hfits.sign_chars rfl cell (mem_of_head? hcell)).1) hword
          | plain cell =>
            have hcell : isWordChar cell.char = true := by
              simpa [Item.cells] using hword
            have hfills' : fills (some (.plain cell)) = false := by
              rw [fills, Option.any_some, Option.any_some, Item.isSpaced, Item.isCodeComma,
                Bool.false_or, beq_eq_false_iff_ne]
              rintro rfl
              exact absurd hcell (by decide)
            have hlater := ih hrest (some (.plain cell)) (by rintro _ ⟨⟩; exact ⟨_, hfits⟩)
              hclear.2 hfills'
            rw [Item.cells, singleton_append, singleton_append, leadingWord_cons hcell,
              leadingWord_cons hcell, hlater]
      · have hgap' : settle prev gap (some item) ≠ [] := by
          rw [← isEmpty_eq_false_iff, ← hchange, isEmpty_eq_false_iff]
          exact hgap
        rw [leadingWord_gap hpads hgap, leadingWord_gap (isPad_of_mem_settle hpads) hgap']
    · have hword : ∀ cell ∈ item.cells.head?, isWordChar cell.char = false :=
        fun cell hcell => (head_of_settle hfits hcode hchange hfills cell hcell).1
      have hnil : ∀ gap : List Cell, (∀ cell ∈ gap, isPad cell.char = true) → ∀ rest,
          leadingWord (gap ++ (item.cells ++ rest)) = [] := by
        intro gap hpads rest
        by_cases hgap : gap = []
        · rw [hgap, List.nil_append, hfits.leadingWord_eq_nil hword]
        · exact leadingWord_gap hpads hgap _
      rw [hnil _ (isPad_of_mem_settle hpads), hnil _ hpads]

/-- The rules on gaps keep the words behind parentheses. -/
theorem Strip.trails_regap (hreads : strip.Reads) :
    ∀ prev, (∀ item ∈ prev, ∃ following, item.Fits following) → strip.Clear prev →
      trails (strip.regap settle prev).cells = trails strip.cells := by
  induction strip with
  | last gap =>
    intro prev _ _
    have hnil : ∀ gap : List Cell, (∀ cell ∈ gap, isPad cell.char = true) → trails gap = [] := by
      intro gap hpads
      rw [← append_nil gap, trails_append_of_not_mem (paren_not_mem_gap hpads (by decide)),
        trails]
    rw [Strip.regap, Strip.cells, Strip.cells, hnil _ (isPad_of_mem_settle hreads), hnil _ hreads]
  | next gap item rest ih =>
    intro prev hprev hclear
    obtain ⟨hpads, hfits, hrest⟩ := hreads
    have hprev' : ∀ other ∈ some item, ∃ following, Item.Fits following other := by
      rintro _ ⟨⟩
      exact ⟨_, hfits⟩
    have hlater := ih hrest (some item) hprev' hclear.2
    rw [Strip.regap, Strip.cells, Strip.cells,
      trails_append_of_not_mem (paren_not_mem_gap (isPad_of_mem_settle hpads) (by decide)),
      trails_append_of_not_mem (paren_not_mem_gap hpads (by decide))]
    by_cases hparen : item = .plain ⟨')', .code⟩
    · subst hparen
      have hword := Strip.leadingWord_regap hrest _ hprev' hclear.2 rfl
      rw [Item.cells, singleton_append, singleton_append, trails, trails, hword, hlater]
    · have hnot : ⟨')', .code⟩ ∉ item.cells := by
        intro hmem
        cases item with
        | plain cell => exact hparen (by rw [mem_singleton.mp hmem])
        | sign cells spaced => exact (hfits.sign_chars rfl _ hmem).2.2.2 rfl
      rw [trails_append_of_not_mem hnot, trails_append_of_not_mem hnot, hlater]

end StructuredText
