import StructuredText.Proofs.LineEnds

/-!
# Line breaks behind blocks

The line breaks that are put behind the ends of blocks are moves: each stands behind the end of a
block or behind a comment, and no word or literal goes on there.

Results:
1. `insertions_respacing`: line feeds at places where no word or literal goes on are moves.
2. `LineBreak.breakBlocks_respaced`: so are those behind the ends of blocks.
3. `LineBreak.breakBlocks_trimmed`: a trimmed text stays trimmed.
-/

namespace StructuredText

open List Literal

variable {α : Type} {left cells : List Cell} {rest block : List Char} {p : Nat}

/-! ## Line feeds in several places -/

/-- No word or literal goes on at offset `cut`, and no space or tab of the code stands before it. -/
def Insertable (cells : List Cell) (cut : Nat) : Prop :=
  ∃ left right, cells = left ++ right ∧ left.length = cut ∧
    (∀ cell ∈ right.head?, cell.isInside = false) ∧ Splits .breaking left right ∧ EndsBare left

/-- The text has the same first cell, or a line feed before it. -/
def LedBy (out rest : List Cell) : Prop :=
  out.head? = rest.head? ∨ out.head? = some ⟨'\n', .code⟩

variable {out : List Cell} {cuts : List Nat} {pos : Nat}

theorem LedBy.head_not_inside {rest : List Cell} (h : LedBy out rest)
    (hrest : ∀ cell ∈ rest.head?, cell.isInside = false) :
    ∀ cell ∈ out.head?, cell.isInside = false := by
  rcases h with h | h
  · rwa [h]
  · rw [h]
    rintro cell ⟨⟩
    rfl

theorem LedBy.splits {rest : List Cell} (h : LedBy out rest) (hrest : Splits .breaking left rest) :
    Splits .breaking left out := by
  rcases h with h | h
  · have hchars : (chars out).head? = (chars rest).head? := by
      rw [chars, chars, head?_map, head?_map, h]
    refine ⟨?_, ?_, ?_, ?_⟩
    · rintro rfl
      exact hrest.code (head?_eq_none_iff.mp h.symm)
    · rw [hchars]
      exact hrest.words
    · rw [hchars]
      exact hrest.signs
    · rw [hchars]
      exact hrest.typed
  · exact .of_head (d := '\n') (by rw [chars, head?_map, h]; rfl) (by decide)
      (fun _ => by decide) fun _ => by decide

theorem append_eq_append_of_length_le {left rest left' right : List α}
    (h : left ++ rest = left' ++ right) (hle : left.length ≤ left'.length) :
    ∃ segment, left' = left ++ segment ∧ rest = segment ++ right := by
  rcases append_eq_append_iff.mp h with ⟨segment, hleft, hrest⟩ | ⟨segment, hleft, hrest⟩
  · exact ⟨segment, hleft, hrest⟩
  · have : segment = [] := by
      rw [hleft, length_append] at hle
      exact eq_nil_of_length_eq_zero (by omega)
    subst this
    exact ⟨[], by simpa using hleft.symm, by simpa using hrest.symm⟩

/-- The cells from offset `pos` on, with a line feed at each of the offsets `cuts`. -/
def fed (cuts : List Nat) (pos : Nat) : List Cell → List Cell
  | [] => if pos ∈ cuts then [feed] else []
  | cell :: rest => (if pos ∈ cuts then [feed] else []) ++ cell :: fed cuts (pos + 1) rest

theorem fed_congr {cuts' : List Nat} {rest : List Cell} :
    ∀ {pos : Nat}, (∀ i, pos ≤ i → (i ∈ cuts ↔ i ∈ cuts')) → fed cuts pos rest =
      fed cuts' pos rest := by
  induction rest with
  | nil =>
    intro pos h
    simp only [fed, h pos (Nat.le_refl pos)]
  | cons cell rest ih =>
    intro pos h
    simp only [fed, h pos (Nat.le_refl pos), ih fun i hi => h i (Nat.le_of_succ_le hi)]

/-- Where no line feed goes, the cells are kept. -/
theorem fed_append {cuts : List Nat} {first second : List Cell} :
    ∀ {pos : Nat}, (∀ cut ∈ cuts, pos ≤ cut → pos + first.length ≤ cut) →
      fed cuts pos (first ++ second) = first ++ fed cuts (pos + first.length) second := by
  induction first with
  | nil => exact fun _ => rfl
  | cons cell first ih =>
    intro pos h
    have hpos : pos ∉ cuts := fun hmem => by
      have := h pos hmem (Nat.le_refl pos)
      rw [length_cons] at this
      omega
    rw [cons_append, fed, if_neg hpos, ih, length_cons, Nat.add_right_comm, Nat.add_assoc]
    · rfl
    · intro cut hcut hle
      have := h cut hcut (by omega)
      rw [length_cons] at this
      omega

theorem fed_cons_self (h : ∀ cut ∈ cuts, pos < cut) (rest : List Cell) :
    fed (pos :: cuts) pos rest = feed :: fed cuts pos rest := by
  have hpos : pos ∉ cuts := fun hmem => Nat.lt_irrefl pos (h pos hmem)
  cases rest with
  | nil => simp [fed, hpos]
  | cons cell rest =>
    have htail : fed (pos :: cuts) (pos + 1) rest = fed cuts (pos + 1) rest :=
      fed_congr fun i hi => by simp [show i ≠ pos by omega]
    simp [fed, hpos, htail]

/-- Line feeds at places where no word or literal goes on are moves. -/
theorem insertions_respacing :
    ∀ (cuts : List Nat) (left rest : List Cell), cells = left ++ rest →
      (∀ cut ∈ cuts, Insertable cells cut ∧ left.length ≤ cut) → cuts.Pairwise (· < ·) →
      ∃ out, applyEditsFrom left.length (cuts.map fun pos => ⟨pos, pos, ['\n']⟩) (chars rest) =
          chars out ∧ Respacing .breaking (left ++ rest) (left ++ out) ∧ LedBy out rest ∧
        (Trimmed (left ++ rest) → Trimmed (left ++ out)) ∧ out = fed cuts left.length rest
  | [], left, rest, _, _, _ => ⟨rest, rfl, .refl, .inl rfl, id, by
      simpa [fed] using (@fed_append [] rest [] left.length (by simp)).symm⟩
  | cut :: cuts, left, rest, hcells, hcuts, hsorted => by
      obtain ⟨⟨left', right, hsplit, hlength, hhead, hsplits, hbare⟩, hle⟩ :=
        hcuts cut mem_cons_self
      obtain ⟨hfirst, hsorted⟩ := pairwise_cons.mp hsorted
      -- The text up to the cut is kept.
      obtain ⟨segment, rfl, rfl⟩ : ∃ segment, left' = left ++ segment ∧ rest = segment ++ right :=
        append_eq_append_of_length_le (hcells.symm.trans hsplit) (by omega)
      obtain ⟨out, hout, hmoves, hled, htrimmed, hfed⟩ :=
        insertions_respacing cuts (left ++ segment) right hsplit
          (fun other hother => ⟨(hcuts other (mem_cons_of_mem _ hother)).1,
            hlength ▸ Nat.le_of_lt (hfirst other hother)⟩) hsorted
      refine ⟨segment ++ feed :: out, ?_, ?_, ?_, fun h => ?_, ?_⟩
      · rw [length_append] at hlength
        have hdrop : cut - left.length = segment.length := by omega
        rw [map_cons, applyEditsFrom, hdrop, chars_append,
          take_left' (length_chars segment), drop_left' (length_chars segment), ← hlength,
          ← length_append, hout]
        simp [feed]
      · have hmove : Move .breaking (left ++ segment ++ codeCells [] ++ out)
            (left ++ segment ++ codeCells ['\n'] ++ out) :=
          .mk (by simp) (by decide) (hled.head_not_inside hhead) (fun _ _ => hled.splits hsplits)
            (fun hne => absurd rfl hne) (by simp)
        have hmoves' : Respacing .breaking (left ++ (segment ++ right)) (left ++
            (segment ++ out)) := by
          simpa using hmoves
        exact .tail hmoves' (by simpa [feed] using hmove)
      · cases segment with
        | nil => exact .inr rfl
        | cons cell segment => exact .inl rfl
      · rw [← append_assoc] at h ⊢
        exact (htrimmed h).insert hbare
      · rw [length_append] at hlength
        rw [hfed, length_append, fed_append, hlength, fed_cons_self hfirst]
        intro other hother _
        rcases mem_cons.mp hother with rfl | hother
        · exact Nat.le_of_eq hlength
        · exact Nat.le_trans (Nat.le_of_eq hlength) (Nat.le_of_lt (hfirst other hother))

/-! ## The order of occurrences -/

/-- Occurrences are in order and apart. -/
theorem occurrencesFrom_pairwise {find : Recognizer α} (proper : find.IsProper) (text : List Char) :
    ∀ pos skip before,
      (occurrencesFrom find pos skip before text).Pairwise fun first second =>
        first.stop ≤ second.start := by
  induction text with
  | nil =>
    intro pos skip before
    cases skip with
    | zero => rw [occurrencesFrom_nil proper]; exact .nil
    | succ skip => exact .nil
  | cons c rest ih =>
    intro pos skip before
    cases skip with
    | succ skip => exact ih _ _ _
    | zero =>
      cases hfind : find false ⟨pos, before, c :: rest⟩ with
      | none =>
        rw [occurrencesFrom_miss hfind]
        exact ih _ _ _
      | some found =>
        obtain ⟨n, value⟩ := found
        obtain ⟨hpos, hle⟩ := proper _ _ _ _ hfind
        obtain ⟨k, rfl⟩ : ∃ k, n = k + 1 := ⟨n - 1, by omega⟩
        rw [occurrencesFrom, hfind]
        refine pairwise_cons.mpr ⟨?_, ih _ _ _⟩
        intro other hother
        simp only [length_cons, Nat.add_le_add_iff_right] at hle
        rw [occurrencesFrom_skip find k _ _ _ hle] at hother
        have := (le_start_of_mem_occurrencesFrom _ _ _ other hother).1
        simp only
        omega

/-- What is found stands where the occurrence says. -/
theorem mem_occurrencesFrom {find : Recognizer α} (proper : find.IsProper) {found : Occurrence α}
    (text : List Char) :
    ∀ pos skip before, found ∈ occurrencesFrom find pos skip before text →
      ∃ gap block last, text = gap ++ (block ++ last) ∧ found.start = pos + gap.length ∧
        found.stop = found.start + block.length ∧
        find false ⟨found.start, gap.reverse ++ before, block ++ last⟩ =
          some (block.length, found.value) := by
  induction text with
  | nil =>
    intro pos skip before hmem
    cases skip with
    | zero =>
      rw [occurrencesFrom_nil proper] at hmem
      cases hmem
    | succ skip => cases hmem
  | cons c rest ih =>
    intro pos skip before hmem
    have hlater : ∀ skip, found ∈ occurrencesFrom find (pos + 1) skip (c :: before) rest →
        ∃ gap block last, c :: rest = gap ++ (block ++ last) ∧ found.start = pos + gap.length ∧
          found.stop = found.start + block.length ∧
          find false ⟨found.start, gap.reverse ++ before, block ++ last⟩ =
            some (block.length, found.value) := by
      intro skip hmem
      obtain ⟨gap, block, last, rfl, hstart, hstop, hfind⟩ := ih _ _ _ hmem
      refine ⟨c :: gap, block, last, rfl, ?_, hstop, ?_⟩
      · rw [hstart, length_cons]
        omega
      · simpa using hfind
    cases skip with
    | succ skip => exact hlater skip hmem
    | zero =>
      cases hfind : find false ⟨pos, before, c :: rest⟩ with
      | none =>
        rw [occurrencesFrom_miss hfind] at hmem
        exact hlater 0 hmem
      | some value =>
        obtain ⟨n, value⟩ := value
        obtain ⟨hpos, hle⟩ := proper _ _ _ _ hfind
        obtain ⟨k, rfl⟩ : ∃ k, n = k + 1 := ⟨n - 1, by omega⟩
        rw [occurrencesFrom, hfind] at hmem
        rcases mem_cons.mp hmem with rfl | hmem
        · have hlength : ((c :: rest).take (k + 1)).length = k + 1 := by
            rw [length_take, Nat.min_eq_left hle]
          refine ⟨[], (c :: rest).take (k + 1), (c :: rest).drop (k + 1), ?_, rfl, ?_, ?_⟩
          · rw [nil_append, take_append_drop]
          · simp only [hlength, Nat.add_assoc]
          · rw [take_append_drop, hlength]
            exact hfind
        · exact hlater k hmem

/-- A span at the start of a text is that of a literal there. -/
theorem Marked.exists_literal {before : List Char} (h : Marked recognize before cells) {span : Span}
    (hmem : span ∈ spansFrom pos cells) (hstart : span.start = pos) :
    ∃ c body rest, cells = literalCells span.kind c body ++ rest ∧
      span.stop = pos + body.length + 1 ∧
      literalAt (c :: (body ++ chars rest)) = some (body.length + 1, span.kind) ∧
      (∀ cell ∈ rest.head?, cell.isInside = false) ∧
      spansFrom pos cells = span :: spansFrom span.stop rest := by
  cases h with
  | nil => cases hmem
  | code _ _ =>
    have := start_of_mem_spansFrom (pos + 1) hmem
    omega
  | @literal _ body c kind rest hfind hrest =>
    rw [spansFrom_literalCells hrest.head?_not_inside] at hmem ⊢
    rcases mem_cons.mp hmem with rfl | hmem
    · exact ⟨c, body, rest, rfl, rfl, hfind, hrest.head?_not_inside, rfl⟩
    · have := start_of_mem_spansFrom _ hmem
      omega

/-! ## Places where a break is due -/

namespace LineBreak

/-- No word goes on between the two texts, and no sign clings. -/
def Parts (left right : List Char) : Prop :=
  ∀ c ∈ left.getLast?, ∀ d ∈ right.head?,
    (isWordChar c = false ∨ isWordChar d = false) ∧ cling c d = false

variable {right : List Cell} {kind : Kind} {c : Char} {body : List Char} {cursor stop : Cursor}

theorem Parts.splits (h : Parts (chars left) (chars right))
    (hcode : right = [] → ∀ cell ∈ left.getLast?, cell.role = .code) :
    Splits .breaking left right :=
  ⟨fun hnil cell hcell => congrArg Role.untype (hcode hnil cell hcell),
    fun c hc d hd => (h c hc d hd).1, fun _ c hc d hd => (h c hc d hd).2, nofun⟩

/-- All code from offset `start` up to offset `stop` are spaces and tabs. -/
def OnlyPads (cells : List Cell) (start stop : Nat) : Prop :=
  ∀ i cell, start ≤ i → i < stop → cells[i]? = some cell → cell.role = .code →
    isPad cell.char = true

/-- A break is due at once, or behind the comment that follows. -/
theorem breakPoint_cases {document : List Char} {cut : Nat} {afterComment : Bool}
    {comments : List Span} (h : breakPoint document cut afterComment comments = some p) :
    (p = cut ∧ (document.drop cut = [] → afterComment = false)) ∨
      ∃ span later, comments = span :: later ∧
        span.start = cut + ((document.drop cut).takeWhile isPad).length ∧
        span.kind ≠ .lineComment ∧ breakPoint document span.stop true later = some p := by
  rw [breakPoint.eq_def] at h
  simp only at h
  split at h
  next hnil =>
    split at h
    · cases h
    next hafter =>
      cases h
      exact .inl ⟨rfl, fun _ => Bool.eq_false_iff.mpr hafter⟩
  next => cases h
  next hsome _ =>
    have hne : document.drop cut = [] → afterComment = false := by
      intro hnil
      rw [hnil] at hsome
      exact absurd rfl hsome
    split at h
    · cases h
      exact .inl ⟨rfl, hne⟩
    next span later =>
      split at h
      next hstart =>
        split at h
        · cases h
        next hkind => exact .inr ⟨span, later, rfl, hstart, hkind, h⟩
      next =>
        cases h
        exact .inl ⟨rfl, hne⟩

/-- A break where the end of a block or a comment ends. -/
theorem insertable_here (hcells : cells = left ++ right)
    (hhead : ∀ cell ∈ right.head?, cell.isInside = false)
    (hparts : Parts (chars left) (chars right)) (hbare : EndsBare left)
    (hcode : right = [] → ∀ cell ∈ left.getLast?, cell.role = .code) :
    Insertable cells left.length ∧ left.length ≤ left.length ∧
      OnlyPads cells left.length left.length :=
  ⟨⟨left, right, hcells, rfl, hhead, hparts.splits hcode, hbare⟩, Nat.le_refl _,
    fun _ _ hle hlt => absurd hlt (Nat.not_lt.mpr hle)⟩

theorem onlyPads_append {rest : List Cell} {pads : List Char} (hpads : ∀ d ∈ pads, isPad d = true)
    (h : OnlyPads (left ++ (codeCells pads ++ (literalCells kind c body ++ rest)))
      (left ++ (codeCells pads ++ literalCells kind c body)).length p) :
    OnlyPads (left ++ (codeCells pads ++ (literalCells kind c body ++ rest))) left.length p := by
  intro i cell hle hlt hcell hrole
  by_cases hi : i < (left ++ (codeCells pads ++ literalCells kind c body)).length
  · have hmem : cell ∈ codeCells pads ++ literalCells kind c body := by
      rw [length_append] at hi
      rw [getElem?_append_right hle, ← append_assoc,
        getElem?_append_left (by omega)] at hcell
      exact mem_of_getElem? hcell
    rcases mem_append.mp hmem with hmem | hmem
    · obtain ⟨d, hd, rfl⟩ := mem_map.mp hmem
      exact hpads d hd
    · exact absurd hrole (role_of_mem_literalCells hmem)
  · exact h i cell (by omega) hlt hcell hrole

/-- A comment that does not end the text is closed, and nothing goes on behind its closing sign. -/
theorem parts_of_comment (hliteral : literalAt (c :: (body ++ rest)) = some (body.length + 1, kind))
    (hcomment : kind.isComment = true) (hkind : kind ≠ .lineComment) (left : List Char) :
    Parts (left ++ c :: body) rest := by
  intro d hd e he
  have hne : rest ≠ [] := by
    rintro rfl
    cases he
  rw [getLast?_append, getLast?_cons] at hd
  have hlast : d = ')' ∨ d = '/' := by
    rcases getLast?_of_literalAt hliteral hne hcomment hkind with hlast | hlast
    all_goals
      rw [hlast] at hd
      cases hd
      simp
  rcases hlast with rfl | rfl
  all_goals exact ⟨.inl (by decide), cling_eq_false (by decide) (by decide) e⟩

/-- Breaks are due where no word or literal goes on, behind comments only. -/
theorem breakPoint_insertable (hmarked : Marked recognize [] cells) (comments : List Span) :
    ∀ (left right : List Cell) (afterComment : Bool),
      cells = left ++ right → (∀ cell ∈ right.head?, cell.isInside = false) →
      comments = (spansFrom left.length right).filter (·.kind.isComment) →
      Parts (chars left) (chars right) → EndsBare left →
      (afterComment = false → ∀ cell ∈ left.getLast?, cell.role = .code) →
      breakPoint (chars cells) left.length afterComment comments = some p →
      Insertable cells p ∧ left.length ≤ p ∧ OnlyPads cells left.length p := by
  induction comments with
  | nil =>
    intro left right afterComment hcells hhead _ hparts hbare hcode h
    obtain ⟨rfl, hend⟩ | ⟨span, later, hnil, -⟩ := breakPoint_cases h
    · refine insertable_here hcells hhead hparts hbare fun hnil => hcode (hend ?_)
      rw [hcells, hnil, append_nil, ← length_chars, drop_length]
    · cases hnil
  | cons span later ih =>
    intro left right afterComment hcells hhead hcomments hparts hbare hcode h
    have hdrop : (chars cells).drop left.length = chars right := by
      rw [hcells, chars_append, drop_left' (length_chars left)]
    obtain ⟨rfl, hend⟩ | ⟨_, _, ⟨⟩, hstart, hkind, h⟩ := breakPoint_cases h
    · refine insertable_here hcells hhead hparts hbare fun hnil => hcode (hend ?_)
      rw [hdrop, hnil, chars_nil]
    rw [hdrop] at hstart
    have hmarked' := hmarked.of_append hcells hhead
    -- The comment stands behind the spaces and tabs.
    obtain ⟨behind, hbehind, -⟩ := hmarked'.takeWhile_code fun c => @isBlank_of_isPad c
    generalize hpads : (chars right).takeWhile isPad = pads at hstart hbehind
    subst hbehind
    have hpadded : ∀ c ∈ pads, isPad c = true := hpads ▸ isPad_of_mem_takeWhile
    have hhead' := hmarked'.head?_of_codeCells
    rw [spansFrom_append hhead', spansFrom_codeCells, nil_append, codeCells,
      length_map] at hcomments
    have hmem : span ∈ (spansFrom (left.length + pads.length) behind).filter
        (·.kind.isComment) := by
      rw [← hcomments]
      exact mem_cons_self
    obtain ⟨hspan, hcomment⟩ := mem_filter.mp hmem
    obtain ⟨c, body, rest, rfl, hstop, hliteral, hrest, hspans⟩ :=
      (hmarked'.of_append rfl hhead').exists_literal hspan hstart
    simp only [hspans, filter_cons, hcomment, if_true] at hcomments
    obtain ⟨-, hlater⟩ := cons_eq_cons.mp hcomments
    have hlength : (left ++ (codeCells pads ++ literalCells span.kind c body)).length =
        span.stop := by
      rw [hstop]
      simp [codeCells]
      omega
    have hnext := ih (left ++ (codeCells pads ++ literalCells span.kind c body)) rest true
      (by simp [hcells]) hrest (by rw [hlength]; exact hlater) ?_ ?_ (by simp)
      (by rw [hlength]; exact h)
    · obtain ⟨hinsert, hle, honly⟩ := hnext
      refine ⟨hinsert, ?_, ?_⟩
      · rw [length_append] at hle
        omega
      · rw [hcells] at honly ⊢
        exact onlyPads_append hpadded honly
    · rw [chars_append, chars_append, chars_literalCells, ← append_assoc]
      exact parts_of_comment hliteral hcomment hkind _
    · intro cell hcell hrole
      rw [← append_assoc, literalCells,
        getLast?_append_of_ne_nil _ (cons_ne_nil _ _)] at hcell
      exact absurd hrole (role_of_mem_literalCells (mem_of_getLast? hcell))

/-! ## Ends of blocks -/

/-- The end of a declaration, up to case. -/
def declarationEnd : List Char :=
  "END_VAR".toList.map foldChar

/-- What the end of a block looks like: word characters but no digits, and semicolons; no word goes
on behind it. Only declarations end without a semicolon. -/
structure EndsBlock (block rest : List Char) : Prop where
  nonempty : block ≠ []
  closes : block.getLast? = some ';' ∨ block.map foldChar = declarationEnd
  signs : ∀ c ∈ block, isWordSign c = true ∨ c = ';'
  parts : ∀ c ∈ block.getLast?, ∀ d ∈ rest.head?, isWordChar c = false ∨ isWordChar d = false

theorem endsBlock_concat {word : List Char} (hword : ∀ c ∈ word, isWordSign c = true) :
    EndsBlock (word ++ [';']) rest where
  nonempty := by simp
  closes := .inl getLast?_concat
  signs := by
    intro c hc
    rcases mem_append.mp hc with hc | hc
    · exact .inl (hword c hc)
    · exact .inr (mem_singleton.mp hc)
  parts := by
    intro c hc
    simp only [getLast?_append, getLast?_singleton, Option.some_or, Option.mem_some] at hc
    subst hc
    exact fun _ _ => .inl (by decide)

theorem ends_checked :
    ∀ text ∈ closedEnds ++ ["END_VAR".toList], ∀ c ∈ text, c.toNat < 128 ∧ isWordSign c = true := by
  decide

/-- The end of a block is a word at a boundary, with a semicolon or, for declarations, with none. -/
theorem terminator_eq_some (h : terminator cursor = some stop) :
    cursor.atBoundary = true ∧ ∃ text ∈ closedEnds ++ ["END_VAR".toList], ∃ word behind,
      List.Forall₂ (fun c d => sameUpToCase c d = true) text word ∧ cursor.Reads behind word ∧
      (behind.char ';' = some stop ∨
        text = "END_VAR".toList ∧ behind = stop ∧ stop.atBoundary = true ∧
        stop.char ';' = none) := by
  obtain ⟨first, hfirst, hrest⟩ := Option.bind_eq_some_iff.mp h
  obtain ⟨rfl, hstart⟩ := Cursor.reads_boundary hfirst
  refine ⟨hstart, ?_⟩
  split at hrest
  next stop' hclosed =>
    cases hrest
    obtain ⟨behind, hone, hchar⟩ := Option.bind_eq_some_iff.mp hclosed
    obtain ⟨text, htext, hword⟩ := Cursor.reads_oneOf hone
    obtain ⟨word, hreads, hsame⟩ := Cursor.reads_word hword
    exact ⟨text, mem_append_left _ htext, word, behind, hsame, hreads, .inl hchar⟩
  next =>
    obtain ⟨behind, hword, hbehind⟩ := Option.bind_eq_some_iff.mp hrest
    obtain ⟨behind', hbound, hlast⟩ := Option.bind_eq_some_iff.mp hbehind
    obtain ⟨rfl, hbound⟩ := Cursor.reads_boundary hbound
    obtain ⟨word, hreads, hsame⟩ := Cursor.reads_word hword
    refine ⟨_, mem_append_right _ mem_cons_self, word, behind', hsame, hreads, ?_⟩
    cases hlast
    cases hchar : behind'.char ';' with
    | some last => exact .inl (by rw [Cursor.optionally, hchar]; rfl)
    | none =>
      rw [Cursor.optionally, hchar]
      exact .inr ⟨rfl, rfl, hbound, hchar⟩

theorem terminator_endsBlock (h : terminator cursor = some stop) :
    ∃ block, cursor.Reads stop block ∧ EndsBlock block stop.after := by
  obtain ⟨-, text, htext, read, behind, hsame, hreads, hends⟩ := terminator_eq_some h
  have hread : ∀ c ∈ read, isWordSign c = true :=
    forall_of_sameUpToCase isWordSign_checked (ends_checked text htext) hsame
  rcases hends with hchar | ⟨rfl, rfl, hbound, -⟩
  · exact ⟨_, hreads.trans (Cursor.reads_char hchar), endsBlock_concat hread⟩
  · refine ⟨read, hreads, ?_, .inr (map_foldChar_eq (hsame.imp fun _ _ => beq_iff_eq.mp)),
      fun c hc => .inl (hread c hc), ?_⟩
    · rintro rfl
      cases hsame
    · -- A word ends behind the keyword, so that none goes on.
      intro c hc d hd
      have hword : isWordChar c = true := by
        have := hread c (mem_of_getLast? hc)
        rw [isWordSign, Bool.and_eq_true] at this
        exact this.1
      refine .inr (Cursor.isWordChar_of_atBoundary hbound ?_ hd hword)
      rw [hreads.before, head?_append, head?_reverse, Option.mem_def.mp hc]
      rfl

/-- The recogniser of the ends of blocks. -/
def findEnd : Recognizer Unit :=
  .ofReader fun cursor => (terminator cursor).map (·, ())

theorem findEnd_eq_some {advance : Bool} {n : Nat} (h : findEnd advance cursor = some (n, ())) :
    ∃ stop block, cursor.Reads stop block ∧ EndsBlock block stop.after ∧ n = block.length := by
  obtain ⟨stop, hread, rfl⟩ := ofReader_eq_some.mp h
  obtain ⟨stop', hterminator, heq⟩ := Option.map_eq_some_iff.mp hread
  cases heq
  obtain ⟨block, hreads, hends⟩ := terminator_endsBlock hterminator
  exact ⟨_, block, hreads, hends, by rw [hreads.pos, Nat.add_sub_cancel_left]⟩

theorem findEnd_isProper : findEnd.IsProper := by
  rintro advance cursor n ⟨⟩ h
  obtain ⟨stop, block, hreads, hends, rfl⟩ := findEnd_eq_some h
  refine ⟨length_pos_iff.mpr hends.nonempty, ?_⟩
  rw [hreads.after, length_append]
  omega

theorem EndsBlock.not_opens (h : EndsBlock block rest) :
    ∀ c ∈ block, ∀ next, opensLiteral c next = false := by
  intro c hc
  rcases h.signs c hc with hsign | rfl
  · rw [isWordSign, Bool.and_eq_true] at hsign
    exact opensLiteral_of_isTypedChar (isTypedChar_of_isWordChar hsign.1)
  · exact opensLiteral_eq_false (by decide)

theorem EndsBlock.isPad_eq_false (h : EndsBlock block rest) : ∀ c ∈ block, isPad c = false := by
  intro c hc
  rcases h.signs c hc with hsign | rfl
  · rw [Bool.eq_false_iff]
    intro hpad
    rw [isWordSign, isWordChar_of_isBlank (isBlank_of_isPad hpad)] at hsign
    cases hsign
  · decide

theorem EndsBlock.parts_append (h : EndsBlock block rest) (before : List Char) :
    Parts (before ++ block) rest := by
  intro c hc d hd
  have hlast : block.getLast? = some c := by
    rw [getLast?_append] at hc
    obtain ⟨last, hlast⟩ := Option.ne_none_iff_exists'.mp
      (fun hnil => h.nonempty (getLast?_eq_none_iff.mp hnil))
    rw [hlast] at hc ⊢
    exact hc
  refine ⟨h.parts c hlast d hd, ?_⟩
  rcases h.signs c (mem_of_getLast? hlast) with hsign | rfl
  · rw [isWordSign, Bool.and_eq_true, Bool.not_eq_true'] at hsign
    refine cling_eq_false hsign.2 ?_ d
    intro hmem
    simp only [mem_cons, not_mem_nil, or_false] at hmem
    rcases hmem with rfl | rfl | rfl | rfl | rfl <;> revert hsign <;> decide
  · exact cling_eq_false (by decide) (by decide) d

/-- The comments from a place on where no literal goes on. -/
theorem dropWhile_comments {left right : List Cell}
    (hhead : ∀ cell ∈ right.head?, cell.isInside = false) :
    (((spansFrom 0 (left ++ right)).filter (·.kind.isComment)).dropWhile
        fun span => decide (span.start < left.length)) =
      (spansFrom left.length right).filter (·.kind.isComment) := by
  rw [spansFrom_append hhead, filter_append, Nat.zero_add, dropWhile_append_of_pos]
  · rw [dropWhile_eq_self_iff]
    intro hlength
    have hmem := getElem_mem hlength
    have := start_of_mem_spansFrom _ (mem_filter.mp hmem).1
    simp only [decide_eq_true_eq]
    omega
  · intro span hspan
    have := start_lt_of_mem_spansFrom _ (mem_filter.mp hspan).1
    simpa using this

section

variable (hmarked : Marked recognize [] cells)
include hmarked

variable {found : Occurrence Unit}

/-- The end of a block stands in the code. -/
theorem exists_endsBlock (hfound : found ∈ occurrences findEnd (chars cells))
    (hfree : isProtected (spansFrom 0 cells).toArray found.start = false) :
    ∃ before block right, cells = before ++ (codeCells block ++ right) ∧
      EndsBlock block (chars right) ∧ found.start = before.length ∧
      found.stop = before.length + block.length := by
  obtain ⟨gap, block, last, htext, hstart, hstop, hfind⟩ :=
    mem_occurrencesFrom findEnd_isProper (chars cells) 0 0 [] hfound
  obtain ⟨stop, read, hreads, hends, hlength⟩ := findEnd_eq_some hfind
  obtain ⟨rfl, hafter⟩ := append_inj hreads.after hlength
  rw [← hafter] at hends
  obtain ⟨before, behind, rfl, rfl, hbehind⟩ := chars_eq_append htext
  obtain ⟨ending, right, rfl, rfl, rfl⟩ := chars_eq_append hbehind
  rw [length_chars, Nat.zero_add] at hstart
  rw [length_chars, hstart] at hstop
  obtain ⟨cell, ending, rfl⟩ : ∃ cell cells, ending = cell :: cells :=
    exists_cons_of_ne_nil (by rintro rfl; exact hends.nonempty rfl)
  -- The end of the block starts in the code, so that all of it is code.
  have hrole : cell.role = .code := by
    by_contra hrole
    have hcovered := (hmarked.covered_iff before.length).mpr ⟨cell, by simp, hrole⟩
    simp only [length_nil, Nat.zero_add] at hcovered
    rw [Bool.eq_false_iff, hstart, ne_eq, isProtected_iff (spansFrom_ordered _ 0)] at hfree
    obtain ⟨span, hspan, hle, hlt⟩ := hcovered
    exact hfree ⟨span, hspan, by omega, by omega⟩
  obtain ⟨c, role⟩ := cell
  cases hrole
  have hmarked' := hmarked.of_append rfl (by rintro cell ⟨⟩; rfl)
  have hcode := hmarked'.codeCells_of_not_opens rfl hends.not_opens
  rw [hcode]
  exact ⟨before, _, right, rfl, hends, hstart, by rw [hstop, length_chars]⟩

/-- Where the end of a block stands, and where a break is due behind it. -/
theorem breakPoint_of_mem (hfound : found ∈ occurrences findEnd (chars cells))
    (hfree : isProtected (spansFrom 0 cells).toArray found.start = false) :
    (∃ c, cells[found.start]? = some ⟨c, .code⟩ ∧ isPad c = false) ∧ found.start < found.stop ∧
      ∀ p, breakPoint (chars cells) found.stop false
          (((spansFrom 0 cells).filter (·.kind.isComment)).dropWhile
            fun span => decide (span.start < found.stop)) = some p →
        Insertable cells p ∧ found.stop ≤ p ∧ OnlyPads cells found.stop p := by
  obtain ⟨before, block, right, rfl, hends, hstart, hstop⟩ := exists_endsBlock hmarked hfound hfree
  obtain ⟨c, block, rfl⟩ := exists_cons_of_ne_nil hends.nonempty
  have hhead := (hmarked.of_append rfl (by rintro cell ⟨⟩; rfl)).head?_of_codeCells
  refine ⟨⟨c, by simp [hstart], hends.isPad_eq_false c mem_cons_self⟩, by
    simp only [hstart, hstop, length_cons]
    omega, ?_⟩
  · intro p hp
    have hlength : (before ++ codeCells (c :: block)).length = found.stop := by
      simp [hstop, codeCells]
    have hdrop := @dropWhile_comments (before ++ codeCells (c :: block)) right hhead
    rw [append_assoc, hlength] at hdrop
    rw [hdrop, ← hlength] at hp
    rw [← hlength]
    have hlast : ∀ cell ∈ (before ++ codeCells (c :: block)).getLast?,
        cell ∈ codeCells (c :: block) := by
      intro cell hcell
      rw [codeCells_cons, getLast?_append_of_ne_nil _ (cons_ne_nil _ _)] at hcell
      exact mem_of_getLast? hcell
    refine breakPoint_insertable hmarked _ _ right false (by simp) hhead rfl ?_ ?_ ?_ hp
    · rw [chars_append, chars_codeCells]
      exact hends.parts_append _
    · exact fun cell hcell => isPad_of_codeCells hends.isPad_eq_false cell (hlast cell hcell)
    · exact fun _ cell hcell => role_of_mem_codeCells (hlast cell hcell)

theorem breakPoints_eq :
    breakPoints (chars cells) = (occurrences findEnd (chars cells)).filterMap fun found =>
      if isProtected (spansFrom 0 cells).toArray found.start then none
      else breakPoint (chars cells) found.stop false
        (((spansFrom 0 cells).filter (·.kind.isComment)).dropWhile
          fun span => decide (span.start < found.stop)) := by
  rw [breakPoints, hmarked.scan_eq]
  rfl

theorem breakPoints_sorted :
    (breakPoints (chars cells)).Pairwise (· < ·) := by
  rw [breakPoints_eq hmarked, pairwise_filterMap]
  refine List.Pairwise.imp_of_mem ?_
    (occurrencesFrom_pairwise findEnd_isProper (chars cells) 0 0 [])
  intro first second hfirst hsecond hle p hp q hq
  split at hp
  · cases hp
  next hfree =>
    split at hq
    · cases hq
    next hfree' =>
      obtain ⟨-, -, hbreak⟩ := breakPoint_of_mem hmarked hfirst (Bool.eq_false_iff.mpr hfree)
      obtain ⟨⟨c, hcell, hpad⟩, hstart, hbreak'⟩ :=
        breakPoint_of_mem hmarked hsecond (Bool.eq_false_iff.mpr hfree')
      obtain ⟨-, -, honly⟩ := hbreak p hp
      obtain ⟨-, hle', -⟩ := hbreak' q hq
      -- The second end starts no earlier than the first break.
      by_contra hlt
      have := honly second.start _ hle (by omega) hcell rfl
      rw [hpad] at this
      cases this

/-- A break goes behind the end of a block, with nothing but comments in between. -/
theorem insertable_of_mem_breakPoints {cut : Nat} (hcut : cut ∈ breakPoints (chars cells)) :
    Insertable cells cut ∧ ∃ before block right, cells = before ++ (codeCells block ++ right) ∧
      EndsBlock block (chars right) ∧ before.length + block.length ≤ cut ∧
      OnlyPads cells (before.length + block.length) cut := by
  rw [breakPoints_eq hmarked, mem_filterMap] at hcut
  obtain ⟨found, hfound, hcut⟩ := hcut
  split at hcut
  · cases hcut
  next hfree =>
    rw [Bool.not_eq_true] at hfree
    obtain ⟨-, -, hbreak⟩ := breakPoint_of_mem hmarked hfound hfree
    obtain ⟨hinsert, hle, honly⟩ := hbreak cut hcut
    obtain ⟨before, block, right, hcells, hends, -, hstop⟩ := exists_endsBlock hmarked hfound hfree
    rw [hstop] at hle honly
    exact ⟨hinsert, before, block, right, hcells, hends, hle, honly⟩

/-- The breaks behind blocks are moves, and keep a text trimmed. -/
theorem exists_broken :
    ∃ out, chars out = breakBlocks (chars cells) ∧ Respacing .breaking cells out ∧
      (Trimmed cells → Trimmed out) := by
  obtain ⟨out, hout, hmoves, -, htrimmed, -⟩ :=
    insertions_respacing (breakPoints (chars cells)) [] cells rfl
      (fun cut hcut => ⟨(insertable_of_mem_breakPoints hmarked hcut).1, Nat.zero_le cut⟩)
      (breakPoints_sorted hmarked)
  exact ⟨out, hout.symm, hmoves, htrimmed⟩

end

theorem breakBlocks_respaced (text : List Char) : Respaced .breaking text (breakBlocks text) := by
  rintro cells hmarked rfl
  obtain ⟨out, hout, hmoves, -⟩ := exists_broken hmarked
  exact ⟨out, hout, hmoves⟩

theorem breakBlocks_trimmed {text : List Char} (h : MarkedAs Trimmed text) :
    MarkedAs Trimmed (breakBlocks text) := by
  obtain ⟨cells, rfl, hmarked, htrimmed⟩ := h
  obtain ⟨out, hout, hmoves, hkeeps⟩ := exists_broken hmarked
  exact ⟨out, hout, hmoves.marked hmarked, hkeeps htrimmed⟩

end LineBreak

end StructuredText
