import StructuredText.Proofs.BlockDepth
import StructuredText.Proofs.Joining

/-!
# Lines put together

Where blanks are tightened, lines that end in the code are put together, and lines that end inside a
literal stay apart. The words of the code stay, and what the lines start with. So the depth behind
such lines stays too, if no opener and no closer stands on a line that is put behind another one, or
if the first line opens a block that the others close.

Results:
1. `Retold.tightened`: tightening keeps the words between two line feeds of literals.
2. `Retold.depthBehind_eq`: it keeps the depth behind lines of which only the first opens a block.
3. `Recoded.depthBehind_eq`: it keeps the depth behind lines that open and close a block.
-/

namespace StructuredText

open List Literal LineKind

variable {rest cells out line : List Cell} {feed : Cell}

/-! ## Tightened blanks -/

/-- What stands behind the blanks does not matter. -/
theorem Tightens.congr {block rest written : List Char} (h : Tightens block rest written)
    (rest' : List Char) : Tightens block rest' written :=
  ⟨h.signs, h.words, h.nonempty⟩

section

variable {cells out : List Cell}

theorem Patched.append_right {right : List Cell}
    (hright : ∀ cell ∈ right.head?, cell.isInside = false)
    (h : Patched Tightens cells out) : Patched Tightens (cells ++ right) (out ++ right) := by
  induction h with
  | nil =>
    have := Patched.append Tightens right .nil
    rwa [append_nil] at this
  | keep cell _ ih => exact .keep cell ih
  | @change block written rest out hne hhead hhit _ ih =>
    rw [append_assoc, append_assoc]
    refine .change hne ?_ (hhit.congr _) ih
    cases rest with
    | nil => exact hright
    | cons cell rest => exact hhead

/-- A cell of a literal stays between what is before it and what is behind it. -/
theorem Patched.of_append_cons {cell : Cell} (hcell : cell.role ≠ .code)
    (h : Patched Tightens cells out) :
    ∀ {first second : List Cell}, cells = first ++ cell :: second →
      ∃ first' second', out = first' ++ cell :: second' ∧ Patched Tightens first first' ∧
        Patched Tightens second second' := by
  induction h with
  | nil =>
    intro first second heq
    cases (append_eq_nil_iff.mp heq.symm).2
  | @keep other rest out hrest ih =>
    intro first second heq
    cases first with
    | nil =>
      obtain ⟨rfl, rfl⟩ := cons_eq_cons.mp heq
      exact ⟨[], out, rfl, .nil, hrest⟩
    | cons head first =>
      obtain ⟨rfl, rfl⟩ := cons_eq_cons.mp heq
      obtain ⟨first', second', rfl, hfirst, hsecond⟩ := ih rfl
      exact ⟨other :: first', second', rfl, .keep other hfirst, hsecond⟩
  | @change block written rest out hne hhead hhit hrest ih =>
    intro first second heq
    rcases append_eq_append_iff.mp heq with ⟨middle, rfl, rfl⟩ | ⟨middle, hblock, hsecond⟩
    · obtain ⟨first', second', rfl, hfirst, hsecond⟩ := ih rfl
      refine ⟨codeCells written ++ first', second', by rw [append_assoc], ?_, hsecond⟩
      refine .change hne ?_ (hhit.congr _) hfirst
      cases middle with
      | nil => exact nofun
      | cons head middle => exact hhead
    · cases middle with
      | nil =>
        rw [append_nil] at hblock
        rw [nil_append] at hsecond
        obtain ⟨first', second', rfl, hfirst, hsecond⟩ := @ih [] second hsecond.symm
        refine ⟨codeCells written ++ first', second', by rw [append_assoc], ?_, hsecond⟩
        rw [← hblock, ← append_nil (codeCells block)]
        exact .change hne nofun (hhit.congr _) hfirst
      | cons other middle =>
        -- The cell would be one of the block.
        obtain ⟨rfl, -⟩ := cons_eq_cons.mp hsecond
        have hmem : cell ∈ codeCells block := by
          rw [hblock]
          simp
        exact absurd (role_of_mem_codeCells hmem) hcell

/-- Tightening makes and breaks no word. -/
theorem Patched.hasWord_eq {words : List (List Char)} (hwords : AreKeywords words)
    (h : Patched Tightens cells out) : ∀ first : List Char,
    hasWord words (first ++ out.map (veil ' ')) =
      hasWord words (first ++ cells.map (veil ' ')) := by
  induction h with
  | nil => exact fun _ => rfl
  | keep cell _ ih =>
    intro first
    simpa using ih (first ++ [veil ' ' cell])
  | @change block written rest out hne hhead hhit _ ih =>
    intro first
    have hveil : ∀ text, (codeCells text).map (veil ' ') = text := by
      intro text
      rw [codeCells, map_map]
      exact map_id text
    have hblock : ∀ c ∈ block, isWordChar c = false :=
      fun c hc => hhit.words c (mem_append_left _ hc)
    have hwritten : ∀ c ∈ written, isWordChar c = false :=
      fun c hc => hhit.words c (mem_append_right _ hc)
    have hrest := ih []
    rw [map_append, map_append, hveil, hveil, hasWord_gap hwords hhit.nonempty hwritten,
      hasWord_gap hwords hne hblock]
    rw [nil_append, nil_append] at hrest
    rw [hrest]

theorem Patched.codeHas_eq {words : List (List Char)} (hwords : AreKeywords words)
    (h : Patched Tightens cells out) : codeHas words out = codeHas words cells :=
  h.hasWord_eq hwords []

theorem firstSign_codeCells_append (text : List Char) (rest : List Cell) :
    firstSign (codeCells text ++ rest) =
      ((text.filter (!isBlank ·)).head?.map fun c => ⟨c, .code⟩).or (firstSign rest) := by
  induction text with
  | nil => rfl
  | cons c text ih =>
    rw [codeCells_cons, cons_append, firstSign, find?_cons, filter_cons]
    cases hblank : isBlank c with
    | true => simpa [hblank, firstSign] using ih
    | false => simp

/-- Tightening leaves the first sign in its place. -/
theorem Patched.firstSign_eq (h : Patched Tightens cells out) :
    firstSign out = firstSign cells := by
  induction h with
  | nil => rfl
  | keep cell _ ih =>
    rw [firstSign, firstSign, find?_cons, find?_cons]
    split
    · rfl
    · exact ih
  | change _ _ hhit _ ih =>
    rw [firstSign_codeCells_append, firstSign_codeCells_append, hhit.signs, ih]

theorem Patched.dropWhile_isInside (h : Patched Tightens cells out) :
    Patched Tightens (cells.dropWhile Cell.isInside) (out.dropWhile Cell.isInside) := by
  induction h with
  | nil => exact .nil
  | @keep cell rest out hrest ih =>
    by_cases hinside : cell.isInside = true
    · rwa [dropWhile_cons_of_pos hinside, dropWhile_cons_of_pos hinside]
    · rw [dropWhile_cons_of_neg hinside, dropWhile_cons_of_neg hinside]
      exact .keep cell hrest
  | @change block written rest out hne hhead hhit hrest _ =>
    have hkept : ∀ {text : List Char}, text ≠ [] → ∀ cells : List Cell,
        (codeCells text ++ cells).dropWhile Cell.isInside = codeCells text ++ cells := by
      intro text htext cells
      obtain ⟨c, text, rfl⟩ := exists_cons_of_ne_nil htext
      exact dropWhile_cons_of_neg (by simp [Cell.isInside])
    rw [hkept hne, hkept hhit.nonempty]
    exact .change hne hhead hhit hrest

end

/-! ## Between line feeds of literals -/

/-- Cells without a line feed in a literal, and others with the same words in their code that start
alike. -/
structure Recoded (cells out : List Cell) : Prop where
  words : ∀ words, AreKeywords words → codeHas words out = codeHas words cells
  sign : firstSign (out.dropWhile Cell.isInside) = firstSign (cells.dropWhile Cell.isInside)
  feeds : ∀ cell ∈ cells ++ out, cell.char = '\n' → cell.role = .code

/-- Lines that end in a literal stay apart, and what is between their ends is put otherwise. -/
inductive Retold : List Cell → List Cell → Prop
  | last {cells out : List Cell} : Recoded cells out → Retold cells out
  | next {cells out rest rest' : List Cell} {feed : Cell} :
      Recoded cells out → feed.char = '\n' → feed.role ≠ .code → Retold rest rest' →
      Retold (cells ++ feed :: rest) (out ++ feed :: rest')

theorem Recoded.refl (h : ∀ cell ∈ cells, cell.char = '\n' → cell.role = .code) :
    Recoded cells cells :=
  ⟨fun _ _ => rfl, rfl, by simpa using h⟩

theorem Recoded.patched {written : List Cell} (h : Recoded cells out)
    (hpatched : Patched Tightens out written) : Recoded cells written where
  words words hwords := (hpatched.codeHas_eq hwords).trans (h.words words hwords)
  sign := hpatched.dropWhile_isInside.firstSign_eq.trans h.sign
  feeds := by
    intro cell hcell hfeed
    rcases mem_append.mp hcell with hcell | hcell
    · exact h.feeds cell (mem_append_left _ hcell) hfeed
    · rcases hpatched.mem_or_written hcell with hcell | ⟨_, _, _, -, hcell⟩
      · exact h.feeds cell (mem_append_right _ hcell) hfeed
      · exact role_of_mem_codeCells hcell

theorem Retold.refl (cells : List Cell) : Retold cells cells := by
  induction hn : cells.length using Nat.strongRecOn generalizing cells with
  | ind n ih =>
    cases hfind : cells.find? fun cell => cell.char == '\n' && !cell.isCode with
    | none =>
      refine .last (.refl fun cell hcell hfeed => ?_)
      have := find?_eq_none.mp hfind cell hcell
      simpa [hfeed, Cell.isCode] using this
    | some feed =>
      -- Up to the first line feed in a literal, and behind it.
      obtain ⟨hfeed, first, rest, rfl, hfirst⟩ := find?_eq_some_iff_append.mp hfind
      simp only [Bool.and_eq_true, beq_iff_eq, Bool.not_eq_true', Cell.isCode,
        beq_eq_false_iff_ne] at hfeed
      refine .next (.refl fun cell hcell hchar => ?_) hfeed.1 hfeed.2 (ih rest.length ?_ rest rfl)
      · simpa [hchar, Cell.isCode] using hfirst cell hcell
      · rw [← hn, length_append, length_cons]
        omega

theorem Retold.patched {written : List Cell} (h : Retold cells out)
    (hpatched : Patched Tightens out written) : Retold cells written := by
  induction h generalizing written with
  | last h => exact .last (h.patched hpatched)
  | next h hfeed hrole _ ih =>
    obtain ⟨first, second, rfl, hfirst, hsecond⟩ := hpatched.of_append_cons hrole rfl
    exact .next (h.patched hfirst) hfeed hrole (ih hsecond)

/-- Tightening the blanks of a block keeps the words between two line feeds of literals. -/
theorem Retold.tightened {left block right : List Cell}
    (hright : ∀ cell ∈ right.head?, cell.isInside = false) (h : Tightened block line) :
    Retold (left ++ (block ++ right)) (left ++ (line ++ right)) := by
  induction h with
  | refl => exact .refl _
  | tail _ hpatched ih => exact ih.patched (.append Tightens left (hpatched.append_right hright))

/-- On one line no literal breaks a line. -/
theorem Retold.recoded (h : Retold cells out) (hout : '\n' ∉ chars out) : Recoded cells out := by
  cases h with
  | last h => exact h
  | next _ hfeed _ _ => simp [hfeed] at hout

/-! ## Words of lines -/

theorem EndsLine.append {first second : List Cell} (hfirst : EndsLine (chars first))
    (hsecond : EndsLine (chars second)) : EndsLine (chars (first ++ second)) := by
  cases first with
  | nil => exact hsecond
  | cons cell first => exact hfirst

section

variable {words : List (List Char)}

theorem codeHas_append (hwords : AreKeywords words) {first second : List Cell}
    (h : Parted (first.map (veil ' ')) (second.map (veil ' '))) :
    codeHas words (first ++ second) = (codeHas words first || codeHas words second) := by
  rw [codeHas, map_append, hasWord_append hwords h]
  rfl

theorem codeHas_nil (hwords : AreKeywords words) : codeHas words [] = false :=
  hasWord_eq_false hwords (by simp)

theorem isWordChar_veil_feed (h : feed.char = '\n') : isWordChar (veil ' ' feed) = false := by
  rw [veil, h]
  split <;> decide

/-- A line feed is in no word. -/
theorem codeHas_append_feed (hwords : AreKeywords words) (hfeed : feed.char = '\n')
    (first rest : List Cell) :
    codeHas words (first ++ feed :: rest) = (codeHas words first || codeHas words rest) := by
  have hgap := hasWord_gap hwords (cons_ne_nil (veil ' ' feed) [])
    (by simpa using isWordChar_veil_feed hfeed) (first.map (veil ' ')) (rest.map (veil ' '))
  rw [codeHas, map_append, map_cons]
  exact hgap

theorem codeHas_feed (hwords : AreKeywords words) (hfeed : feed.char = '\n') (rest : List Cell) :
    codeHas words (feed :: rest) = codeHas words rest := by
  have := codeHas_append_feed hwords hfeed [] rest
  rwa [codeHas_nil hwords, Bool.false_or] at this

theorem codeHas_append_endsLine (hwords : AreKeywords words) (line : List Cell)
    (hrest : EndsLine (chars rest)) :
    codeHas words (line ++ rest) = (codeHas words line || codeHas words rest) := by
  refine codeHas_append hwords ?_
  cases rest with
  | nil => exact fun _ _ _ hd => nomatch hd
  | cons feed rest =>
    rintro _ _ _ ⟨⟩
    exact .inr (isWordChar_veil_feed (hrest _ rfl))

/-- The cells of a literal that a line starts inside of hold no word. -/
theorem codeHas_dropWhile (hwords : AreKeywords words) (line : List Cell) :
    codeHas words (line.dropWhile Cell.isInside) = codeHas words line := by
  have hinside : ∀ c ∈ (line.takeWhile Cell.isInside).map (veil ' '), isWordChar c = false := by
    intro c hc
    obtain ⟨⟨d, role⟩, hcell, rfl⟩ := mem_map.mp hc
    have := mem_takeWhile_imp hcell
    cases role with
    | code | opening kind => cases this
    | inside kind => rfl
  have hsplit := @codeHas_append words hwords (line.takeWhile Cell.isInside)
    (line.dropWhile Cell.isInside) fun c hc _ _ => .inl (hinside c (mem_of_getLast? hc))
  rw [takeWhile_append_dropWhile] at hsplit
  rw [hsplit, show codeHas words (line.takeWhile Cell.isInside) = false from
    hasWord_eq_false hwords hinside, Bool.false_or]

end

/-! ## Depths of lines -/

/-- The line opens a block, behind the literal that it may start inside of. -/
def raises (line : List Cell) : Bool :=
  opensBlock (line.dropWhile Cell.isInside)

theorem isDecided_dropWhile (h : IsDecided line) : IsDecided (line.dropWhile Cell.isInside) := by
  rwa [IsDecided, codeHas_dropWhile openers_checked, codeHas_dropWhile continuations_checked,
    codeHas_dropWhile closers_checked]

theorem codeHas_of_raises (h : raises line = true) :
    codeHas openers line = true ∧ codeHas closers line = false := by
  rw [raises, opensBlock, codeHas_dropWhile openers_checked, codeHas_dropWhile closers_checked] at h
  simp only [Bool.and_eq_true, Bool.not_eq_true'] at h
  exact ⟨h.1.2, h.2⟩

/-- What stands on a line of a text behind the literal that it may start inside of is marked. -/
theorem Marked.exists_code {left tail : List Cell}
    (h : Marked recognize [] (left ++ (line ++ tail))) : line.dropWhile Cell.isInside = [] ∨
      ∃ before, Marked recognize before (line.dropWhile Cell.isInside ++ tail) := by
  have hsplit := takeWhile_append_dropWhile (p := Cell.isInside) (l := line)
  have hhead := head?_dropWhile_not Cell.isInside line
  generalize line.dropWhile Cell.isInside = code at hsplit hhead
  cases code with
  | nil => exact .inl rfl
  | cons cell code =>
    rw [← hsplit, append_assoc, ← append_assoc left] at h
    refine .inr ⟨_, h.of_append rfl ?_⟩
    rintro other ⟨⟩
    simpa using hhead

theorem not_mem_dropWhile (h : '\n' ∉ chars line) : '\n' ∉ chars (line.dropWhile Cell.isInside) :=
  fun hmem => h (((dropWhile_sublist _).map Cell.char).subset hmem)

section

variable {left line tail : List Cell}

/-- How a line of a text moves the depth whose words decide on its kind. -/
theorem Marked.lineDepth_eq (h : Marked recognize [] (left ++ (line ++ tail)))
    (hline : '\n' ∉ chars line) (htail : EndsLine (chars tail)) (hdecided : IsDecided line)
    (depth : Nat) : lineDepth depth line = if raises line then depth + 1 else depth := by
  rw [lineDepth, raises]
  rcases h.exists_code with hnil | ⟨before, hmarked⟩
  · rw [hnil]
    rfl
  · exact hmarked.depthAfter_ofLine (not_mem_dropWhile hline) htail
      (isDecided_dropWhile hdecided) depth

/-- A line behind which the depth is greater holds an opener. -/
theorem Marked.raises_of_lineDepth (h : Marked recognize [] (left ++ (line ++ tail)))
    (hline : '\n' ∉ chars line) (htail : EndsLine (chars tail)) {depth : Nat}
    (hdepth : lineDepth depth line = depth + 1) : raises line = true := by
  rw [lineDepth] at hdepth
  rw [raises]
  rcases h.exists_code with hnil | ⟨before, hmarked⟩
  · rw [hnil] at hdepth
    exact absurd hdepth (Nat.ne_of_lt (Nat.lt_succ_self depth))
  · refine (hmarked.ofLine_eq_opener_iff (not_mem_dropWhile hline) htail).mp ?_
    cases hkind : ofLine (chars (line.dropWhile Cell.isInside)) with
    | opener => rfl
    | closer =>
      rw [hkind, Indentation.depthAfter] at hdepth
      omega
    | comment | continuation | caseLabel | other =>
      rw [hkind, Indentation.depthAfter] at hdepth
      omega

end

/-- Lines without a closer close no block, and without an opener they open none. -/
theorem Marked.depthBehind_of_codeHas (n : Nat) : ∀ {left cells right : List Cell} (depth : Nat),
    cells.length = n → Marked recognize [] (left ++ (cells ++ right)) → EndsLine (chars right) →
    codeHas closers cells = false →
    depth ≤ depthBehind depth cells ∧
      (codeHas openers cells = false → depthBehind depth cells = depth) := by
  induction n using Nat.strongRecOn with
  | ind n ih =>
    intro left cells right depth hn hmarked hright hclosers
    obtain ⟨line, rest, rfl, hline, hrest⟩ := exists_endsLine cells
    have hlineClosers := hclosers
    rw [codeHas_append_endsLine closers_checked line hrest, Bool.or_eq_false_iff] at hlineClosers
    have hdepth := (show Marked recognize [] (left ++ (line ++ (rest ++ right))) by
      simpa using hmarked).lineDepth_eq hline (hrest.append hright)
        (.inr (.inr hlineClosers.1)) depth
    have hquiet : codeHas openers line = false → lineDepth depth line = depth := by
      intro hopeners
      rw [hdepth, if_neg]
      intro hraises
      rw [(codeHas_of_raises hraises).1] at hopeners
      cases hopeners
    have hle : depth ≤ lineDepth depth line := by
      rw [hdepth]
      split <;> omega
    cases rest with
    | nil =>
      rw [append_nil, depthBehind_line hline]
      exact ⟨hle, hquiet⟩
    | cons feed rest =>
      have hfeed : feed.char = '\n' := hrest _ rfl
      rw [codeHas_append_feed closers_checked hfeed, Bool.or_eq_false_iff] at hclosers
      rw [depthBehind_append_feed hfeed, depthBehind_line hline,
        codeHas_append_feed openers_checked hfeed, Bool.or_eq_false_iff]
      have hlater := ih rest.length (by rw [← hn]; simp; omega) (lineDepth depth line) rfl
        (show Marked recognize [] ((left ++ (line ++ [feed])) ++ (rest ++ right)) by
          simpa using hmarked) hright hclosers.2
      refine ⟨Nat.le_trans hle hlater.1, fun hopeners => ?_⟩
      rw [hlater.2 hopeners.2, hquiet hopeners.1]

/-! ## Depths behind lines put together -/

/-- The words of the first line decide on its kind, no closer stands behind a line feed, and no
opener behind a line feed of the code. -/
structure Quiet (cells : List Cell) : Prop where
  first : ∀ line rest, cells = line ++ rest → '\n' ∉ chars line → EndsLine (chars rest) →
    IsDecided line
  further : ∀ before feed rest, cells = before ++ feed :: rest → feed.char = '\n' →
    codeHas closers rest = false ∧ (feed.role = .code → codeHas openers rest = false)

theorem Quiet.of_append {cells rest : List Cell} {feed : Cell} (h : Quiet (cells ++ feed :: rest))
    (hfeed : feed.char = '\n') : Quiet cells ∧ Quiet rest := by
  obtain ⟨hfirst, hfurther⟩ := h
  refine ⟨⟨fun line tail heq hline htail => ?_, fun before other tail heq hother => ?_⟩,
    ⟨fun line tail heq hline htail => ?_, fun before other tail heq hother => ?_⟩⟩
  · refine hfirst line (tail ++ feed :: rest) (by rw [heq]; simp) hline (htail.append ?_)
    rintro c ⟨⟩
    exact hfeed
  · have hlater := hfurther before other (tail ++ feed :: rest) (by rw [heq]; simp) hother
    simp only [codeHas_append_feed closers_checked hfeed, codeHas_append_feed openers_checked hfeed,
      Bool.or_eq_false_iff] at hlater
    exact ⟨hlater.1.1, fun hcode => (hlater.2 hcode).1⟩
  · have hclosers := (hfurther cells feed rest rfl hfeed).1
    rw [heq, codeHas_append_endsLine closers_checked line htail, Bool.or_eq_false_iff] at hclosers
    exact .inr (.inr hclosers.1)
  · exact hfurther (cells ++ feed :: before) other tail (by rw [heq]; simp) hother

/-- A line with an opener has a sign. -/
theorem firstSign_ne_none (h : codeHas openers cells = true) : firstSign cells ≠ none := by
  intro hnone
  have hblank : ∀ c ∈ cells.map (veil ' '), isWordChar c = false := by
    intro c hc
    obtain ⟨cell, hcell, rfl⟩ := mem_map.mp hc
    have := find?_eq_none.mp hnone cell hcell
    rw [veil]
    split
    · exact isWordChar_of_isBlank (by simpa using this)
    · decide
  rw [codeHas, hasWord_eq_false openers_checked hblank] at h
  cases h

/-- What follows a line with an opener does not change what it starts with. -/
theorem firstSign_append (h : codeHas openers line = true) (rest : List Cell) :
    firstSign ((line ++ rest).dropWhile Cell.isInside) =
      firstSign (line.dropWhile Cell.isInside) := by
  rw [← codeHas_dropWhile openers_checked] at h
  have hsign := firstSign_ne_none h
  have hne : line.dropWhile Cell.isInside ≠ [] := by
    intro hnil
    rw [hnil] at hsign
    exact hsign rfl
  rw [dropWhile_append, if_neg (by simpa using hne), firstSign, find?_append]
  exact Option.or_of_isSome (Option.isSome_iff_ne_none.mpr hsign)

/-- Behind the first line nothing opens or closes a block, so that all of it put on one line opens
one exactly if the first line does. -/
theorem Recoded.raises_eq (h : Recoded (line ++ rest) out) (hrest : EndsLine (chars rest))
    (hopeners : codeHas openers rest = false) (hclosers : codeHas closers rest = false) :
    raises out = raises line := by
  have hwords : ∀ {words}, AreKeywords words → codeHas words rest = false →
      codeHas words out = codeHas words line := by
    intro words hwords hnone
    rw [h.words words hwords, codeHas_append_endsLine hwords line hrest, hnone, Bool.or_false]
  rw [raises, raises, opensBlock, opensBlock, codeHas_dropWhile openers_checked,
    codeHas_dropWhile openers_checked, codeHas_dropWhile closers_checked,
    codeHas_dropWhile closers_checked,
    hwords openers_checked hopeners, hwords closers_checked hclosers]
  cases hline : codeHas openers line with
  | false => simp
  | true => rw [startsComment, startsComment, h.sign, firstSign_append hline]

section

variable {left left' right right' cells out : List Cell}

/-- Lines of which only the first moves the depth can be put on one line. -/
theorem Recoded.depthBehind_of_quiet (h : Recoded cells out) (hflat : '\n' ∉ chars out)
    (hquiet : Quiet cells) (hmarked : Marked recognize [] (left ++ (cells ++ right)))
    (hmarked' : Marked recognize [] (left' ++ (out ++ right'))) (hright : EndsLine (chars right))
    (hright' : EndsLine (chars right')) (depth : Nat) :
    depthBehind depth out = depthBehind depth cells := by
  obtain ⟨line, rest, rfl, hline, hrest⟩ := exists_endsLine cells
  have hdecided := hquiet.first line rest rfl hline hrest
  have hfurther : codeHas openers rest = false ∧ codeHas closers rest = false := by
    cases rest with
    | nil => exact ⟨codeHas_nil openers_checked, codeHas_nil closers_checked⟩
    | cons feed rest =>
      have hfeed : feed.char = '\n' := hrest _ rfl
      have hcode := h.feeds feed (by simp) hfeed
      obtain ⟨hclosers, hopeners⟩ := hquiet.further line feed rest rfl hfeed
      rw [codeHas_feed openers_checked hfeed, codeHas_feed closers_checked hfeed]
      exact ⟨hopeners hcode, hclosers⟩
  have hwords : ∀ {words}, AreKeywords words →
      codeHas words out = (codeHas words line || codeHas words rest) := fun hwords => by
    rw [h.words _ hwords, codeHas_append_endsLine hwords line hrest]
  have hout : IsDecided out := by
    rw [IsDecided, hwords openers_checked, hwords continuations_checked,
      hwords closers_checked, hfurther.2]
    rcases hdecided with hopeners | hcontinuations | hclosers
    · exact .inl (by rw [hopeners, Bool.true_or])
    · exact .inr (.inl (by rw [hcontinuations, Bool.true_or]))
    · exact .inr (.inr (by rw [hclosers, Bool.or_false]))
  rw [append_assoc] at hmarked
  rw [depthBehind_line hflat, hmarked'.lineDepth_eq hflat hright' hout,
    h.raises_eq hrest hfurther.1 hfurther.2,
    ← hmarked.lineDepth_eq hline (hrest.append hright) hdecided]
  cases rest with
  | nil => rw [append_nil, depthBehind_line hline]
  | cons feed rest =>
    have hfeed : feed.char = '\n' := hrest _ rfl
    rw [codeHas_feed openers_checked hfeed, codeHas_feed closers_checked hfeed] at hfurther
    rw [depthBehind_append_feed hfeed, depthBehind_line hline]
    have hlater := Marked.depthBehind_of_codeHas rest.length (lineDepth depth line) rfl
      (show Marked recognize [] ((left ++ (line ++ [feed])) ++ (rest ++ right)) by
        simpa using hmarked) hright hfurther.2
    exact (hlater.2 hfurther.1).symm

theorem Recoded.not_mem_of_flat (h : Recoded cells out) (hflat : Flat out) : '\n' ∉ chars out := by
  intro hmem
  obtain ⟨cell, hcell, hfeed⟩ := mem_map.mp hmem
  exact hflat cell hcell (h.feeds cell (mem_append_right _ hcell) hfeed) hfeed

/-- Lines of which only the first moves the depth, apart from those that end in a literal, can be
put together. -/
theorem Retold.depthBehind_eq (h : Retold cells out) (hflat : Flat out) (hquiet : Quiet cells)
    (hmarked : Marked recognize [] (left ++ (cells ++ right)))
    (hmarked' : Marked recognize [] (left' ++ (out ++ right'))) (hright : EndsLine (chars right))
    (hright' : EndsLine (chars right')) (depth : Nat) :
    depthBehind depth out = depthBehind depth cells := by
  induction h generalizing left left' depth with
  | last h =>
    exact h.depthBehind_of_quiet (h.not_mem_of_flat hflat) hquiet hmarked hmarked' hright
      hright' depth
  | @next cells out rest rest' feed h hfeed hrole _ ih =>
    obtain ⟨hfirst, hrest⟩ := hquiet.of_append hfeed
    have hends : ∀ others : List Cell, EndsLine (chars (feed :: others)) := by
      rintro others c ⟨⟩
      exact hfeed
    have hflat' := h.not_mem_of_flat fun cell hcell => hflat cell (mem_append_left _ hcell)
    rw [append_assoc, cons_append] at hmarked hmarked'
    rw [depthBehind_append_feed hfeed, depthBehind_append_feed hfeed,
      h.depthBehind_of_quiet hflat' hfirst hmarked hmarked' (hends _) (hends _) depth]
    exact @ih (left ++ (cells ++ [feed])) (left' ++ (out ++ [feed]))
      (fun cell hcell => hflat cell (by simp [hcell])) hrest (by simpa using hmarked)
      (by simpa using hmarked') _

/-- Lines that open and close a block can be put on one line. -/
theorem Recoded.depthBehind_of_closed (h : Recoded (line ++ rest) out) (hflat : '\n' ∉ chars out)
    (hline : '\n' ∉ chars line) (hrest : EndsLine (chars rest))
    (hmarked : Marked recognize [] (left ++ (line ++ (rest ++ right))))
    (hmarked' : Marked recognize [] (left' ++ (out ++ right'))) (hright : EndsLine (chars right))
    (hright' : EndsLine (chars right')) {depth : Nat} (hopen : lineDepth depth line = depth + 1)
    (hclosed : depthBehind depth (line ++ rest) = depth) :
    depthBehind depth out = depthBehind depth (line ++ rest) := by
  have hopeners := (codeHas_of_raises
    (hmarked.raises_of_lineDepth hline (hrest.append hright) hopen)).1
  have hclosers : codeHas closers rest = true := by
    by_contra hnone
    rw [Bool.not_eq_true] at hnone
    -- Without a closer the block stays open.
    cases rest with
    | nil =>
      rw [append_nil, depthBehind_line hline, hopen] at hclosed
      omega
    | cons feed rest =>
      have hfeed : feed.char = '\n' := hrest _ rfl
      rw [codeHas_feed closers_checked hfeed] at hnone
      rw [depthBehind_append_feed hfeed, depthBehind_line hline, hopen] at hclosed
      have hlater := (Marked.depthBehind_of_codeHas rest.length (depth + 1) rfl
        (show Marked recognize [] ((left ++ (line ++ [feed])) ++ (rest ++ right)) by
          simpa using hmarked) hright hnone).1
      omega
  have hopeners' : codeHas openers out = true := by
    rw [h.words _ openers_checked, codeHas_append_endsLine openers_checked line hrest, hopeners,
      Bool.true_or]
  have hclosers' : codeHas closers out = true := by
    rw [h.words _ closers_checked, codeHas_append_endsLine closers_checked line hrest, hclosers,
      Bool.or_true]
  rw [hclosed, depthBehind_line hflat, hmarked'.lineDepth_eq hflat hright' (.inl hopeners'), if_neg]
  intro hraises
  rw [(codeHas_of_raises hraises).2] at hclosers'
  cases hclosers'

end

end StructuredText
