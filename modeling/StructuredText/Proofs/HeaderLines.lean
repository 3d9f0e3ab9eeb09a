import StructuredText.Proofs.Merging

/-!
# The lines of headers

A header that is put on one line starts with a word that opens or continues a block, and no further
line of it opens a block, apart from one that closes a block too.

Results:
1. `Header.exists_spot`: where the headers stand that are put on one line.
2. `Spot.codeHas_line`: the line that a header starts on holds its keyword.
3. `Spot.quiet`: of the lines of a header without closers, only the first moves the depth.
-/

namespace StructuredText

open List Literal LineKind

/-! ## Where headers stand -/

/-- A header of a family that is put on one line, with what stands before and behind it. -/
structure Spot (family : Header.Family) (left block right : List Cell) : Prop where
  member : family ∈ Header.families
  header : IsHeader block
  outside : ∀ cell ∈ right.head?, cell.isInside = false
  before : ∀ cell ∈ left.getLast?, isWordChar (veil ' ' cell) = false
  behind : ∀ cell ∈ right.head?, isWordChar (veil ' ' cell) = false
  keyword : ∃ read rest, block = codeCells read ++ rest ∧ Spells [family.keyword] read ∧
    ∀ cell ∈ rest.head?, isWordChar (veil ' ' cell) = false
  joinable : Header.isJoinable (block.map (veil '\x00')) = true

theorem isWordChar_veil (cell : Cell) :
    isWordChar (veil '\x00' cell) = isWordChar (veil ' ' cell) := by
  rw [veil, veil]
  split
  · rfl
  · decide

namespace Header

/-- A header starts with a word that opens or continues a block. -/
theorem keyword_mem : ∀ family ∈ families,
    family.keyword ∈ openers ∨ family.keyword ∈ continuations := by
  decide

variable {family : Family}

theorem keyword_checked (hfamily : family ∈ families) :
    AreKeywords [family.keyword] := by
  intro word hword
  rw [mem_singleton.mp hword]
  exact families_checked family hfamily _ mem_cons_self

/-- What is read for a header, up to the boundary behind it. -/
theorem reads_header (hfamily : family ∈ families) {cursor stop : Cursor}
    (h : reader family cursor = some stop) :
    ∃ read rest, cursor.Reads stop (read ++ rest) ∧
      Spells [family.keyword] read ∧ (∀ c ∈ read, isWordSign c = true) ∧ cursor.atBoundary = true ∧
      (∀ c ∈ (rest ++ stop.after).head?, isWordChar c = false) ∧ stop.atBoundary = true := by
  obtain ⟨inside, hkeyword, hclause⟩ := Option.bind_eq_some_iff.mp h
  obtain ⟨hstart, hinside, word, hword, hread⟩ := Cursor.reads_wholeWord hkeyword
  rw [mem_singleton.mp hword] at hread
  obtain ⟨read, hreads, hsame⟩ := Cursor.reads_word hread
  have hspells : Spells [family.keyword] read := ⟨family.keyword, mem_cons_self, hsame⟩
  obtain ⟨hne, hchars⟩ := hspells.isWordChar (keyword_checked hfamily)
  have hsigns := forall_of_sameUpToCase isWordSign_checked
    (families_checked family hfamily family.keyword (by simp)).2 hsame
  obtain ⟨gap, middle, hgap, hlast⟩ := reads_clauseFrom _ _ _ hclause
  obtain ⟨-, hstop, clause, -, hclause⟩ := Cursor.reads_wholeWord hlast
  obtain ⟨last, hlast, -⟩ := Cursor.reads_word hclause
  have hrest : inside.Reads stop (gap ++ last) := hgap.trans hlast
  refine ⟨read, gap ++ last, hreads.trans hrest, hspells, hsigns, hstart, ?_, hstop⟩
  rw [Cursor.atBoundary, hreads.before, atWordBoundary_behind_iff hne hchars,
    hrest.after] at hinside
  exact hinside

/-- A header that is put on one line stands in its spot. -/
theorem exists_spot (hfamily : family ∈ families) {cells : List Cell}
    (hmarked : Marked recognize [] cells) {found : Occurrence Unit}
    (hfound : found ∈ wanted family cells) :
    ∃ left block right, cells = left ++ (block ++ right) ∧ left.length = found.start ∧
      (left ++ block).length = found.stop ∧ Spot family left block right := by
  obtain ⟨left, block, right, rfl, hstart, hstop, hheader, hhead⟩ :=
    headerAt_of_mem_wanted hfamily hmarked hfound
  obtain ⟨hmem, hcondition⟩ := mem_filter.mp hfound
  rw [Bool.and_eq_true] at hcondition
  obtain ⟨gap, code, last, hcode, hgap, hlength, hfind⟩ :=
    mem_occurrencesFrom (find_isProper hfamily) _ _ _ _ hmem
  -- What is found is the header.
  rw [length_append] at hstop
  rw [map_append, map_append] at hcode
  have hleft : (left.map (veil '\x00')).length = gap.length := by
    rw [length_map]
    omega
  have hblock : (block.map (veil '\x00')).length = code.length := by
    rw [length_map]
    omega
  obtain ⟨rfl, htext⟩ := append_inj hcode hleft
  obtain ⟨rfl, rfl⟩ := append_inj htext hblock
  refine ⟨left, block, right, rfl, hstart, by rw [length_append]; exact hstop, ?_⟩
  obtain ⟨stop, hread, hsize⟩ := ofReader_eq_some.mp hfind
  obtain ⟨stop', hread, heq⟩ := Option.map_eq_some_iff.mp hread
  cases heq
  obtain ⟨read, rest, hreads, hspells, hsigns, hbefore, hrest, hbehind⟩ :=
    reads_header hfamily hread
  obtain ⟨hne, hchars⟩ := hspells.isWordChar (keyword_checked hfamily)
  obtain ⟨hblock, hafter⟩ := hreads.eq_of_append rfl hsize.symm
  rw [hafter] at hrest
  obtain ⟨first, second, rfl, hfirst, rfl⟩ := map_eq_append_iff.mp hblock.symm
  -- The keyword is code.
  obtain rfl : first = codeCells read := by
    have hroles : ∀ cell ∈ first, cell = ⟨veil '\x00' cell, .code⟩ := by
      intro cell hcell
      exact eq_of_isWordSign_veil rfl (hsigns _ (hfirst ▸ mem_map_of_mem hcell))
    rw [← hfirst, codeCells, map_map]
    exact (map_id first).symm.trans (map_congr_left hroles)
  refine ⟨hfamily, hheader, hhead, ?_, ?_, ⟨read, second, rfl, hspells, ?_⟩, ?_⟩
  · intro cell hcell
    rw [← isWordChar_veil]
    rw [Cursor.atBoundary, append_nil, map_append, hfirst, append_assoc,
      atWordBoundary_before_iff hne hchars] at hbefore
    refine hbefore _ ?_
    rw [getLast?_map, Option.mem_def.mp hcell]
    rfl
  · intro cell hcell
    rw [← isWordChar_veil]
    obtain ⟨d, hd, hdsign⟩ := hheader.last
    rw [isWordSign, Bool.and_eq_true] at hdsign
    refine Cursor.isWordChar_of_atBoundary hbehind ?_ ?_ hdsign.1
    · rw [hreads.before, hblock, head?_append, head?_reverse, getLast?_map, hd]
      rfl
    · rw [hafter, head?_map, Option.mem_def.mp hcell]
      rfl
  · intro cell hcell
    rw [← isWordChar_veil]
    refine hrest _ ?_
    rw [head?_append, head?_map, Option.mem_def.mp hcell]
    rfl
  · rw [← slice_map (veil '\x00') left _ right, hstart, length_append, hstop]
    exact hcondition.1

end Header

/-! ## The lines of a header -/

theorem lines_append_feed (first rest : List Char) :
    lines (first ++ '\n' :: rest) = lines first ++ lines rest := by
  induction first with
  | nil => rfl
  | cons c first ih =>
    by_cases hc : c = '\n'
    · rw [cons_append, lines, lines, if_pos hc, if_pos hc, ih, cons_append]
    · rw [cons_append, lines, lines, if_neg hc, if_neg hc, ih]
      cases hlines : lines first with
      | nil => exact absurd hlines (lines_ne_nil first)
      | cons line others => rfl

/-- A line behind a line feed is a further line. -/
theorem mem_tail_lines {line tail : List Char} (hline : '\n' ∉ line) (htail : EndsLine tail)
    (first : List Char) : line ∈ (lines (first ++ '\n' :: (line ++ tail))).tail := by
  obtain ⟨others, hothers⟩ := Indentation.lines_line_append hline htail
  rw [lines_append_feed, hothers]
  cases hlines : lines first with
  | nil => exact absurd hlines (lines_ne_nil first)
  | cons start more => simp

theorem Header.isStructural_of_mem {masked line : List Char} (h : isJoinable masked = true)
    (hline : line ∈ (lines masked).tail) : isStructural line = false := by
  rw [isJoinable] at h
  split at h
  · cases h
  · cases h
  · next first further hne hlines =>
    rw [hlines] at hline
    simp only [Bool.not_eq_true', any_eq_false] at h
    simpa using h line hline

variable {before : List Char} {cells second : List Cell} {words : List (List Char)}

/-- Masked code holds no literal. -/
theorem Marked.codeCells_veil {before' : List Char} :
    ∀ {first : List Cell}, Marked recognize before (first ++ (cells ++ second)) →
      Marked recognize before' (codeCells (cells.map (veil '\x00'))) := by
  induction cells generalizing before' with
  | nil => exact fun _ => .nil
  | cons cell cells ih =>
    intro first h
    rw [map_cons, codeCells_cons]
    refine .code (literalAt_eq_none_iff.mpr ?_) (@ih _ (first ++ [cell]) (by simpa using h))
    rw [chars_codeCells]
    by_cases hcode : cell.role = .code
    · obtain ⟨c, role⟩ := cell
      cases hcode
      have hopens := h.opensLiteral_of_code
      cases cells with
      | nil => exact opensLiteral_congr hopens nofun nofun
      | cons next cells =>
        by_cases hnext : next.role = .code
        · simpa [veil, Cell.isCode, hnext] using hopens
        · refine opensLiteral_congr hopens ?_ ?_ <;> simp [veil, Cell.isCode, hnext]
    · exact opensLiteral_eq_false (by simp [veil, Cell.isCode, hcode]) _

theorem startsComment_codeCells (text : List Char) : startsComment (codeCells text) = false := by
  rw [startsComment, Option.any_eq_false]
  intro cell hcell
  rw [Cell.opensComment, role_of_mem_codeCells (mem_of_find?_eq_some hcell)]

theorem hasWord_map_veil (hwords : AreKeywords words) (cells : List Cell) :
    hasWord words (cells.map (veil '\x00')) = codeHas words cells := by
  refine hasWord_map_congr hwords (fun cell => ?_) cells []
  rw [veil, veil]
  split
  · exact .inl rfl
  · exact .inr (by decide)

theorem shade_feed {feed : Cell} (h : feed.char = '\n') : shade feed = '\n' := by
  simp [shade, h]

theorem hasWord_map_shade (hwords : AreKeywords words) (cells : List Cell) :
    hasWord words (cells.map shade) = codeHas words cells := by
  refine hasWord_map_congr hwords (fun cell => ?_) cells []
  by_cases hfeed : cell.char = '\n'
  · refine .inr ⟨?_, isWordChar_veil_feed hfeed⟩
    rw [shade_feed hfeed]
    decide
  · exact .inl (shade_eq_veil hfeed)

/-- A line that may become part of a header and holds no closer holds no opener. -/
theorem codeHas_of_isStructural {first : List Cell}
    (h : Marked recognize before (first ++ (cells ++ second)))
    (hline : '\n' ∉ cells.map (veil '\x00'))
    (hstructural : Header.isStructural (cells.map (veil '\x00')) = false)
    (hclosers : codeHas closers cells = false) : codeHas openers cells = false := by
  have hmarked : Marked recognize [] (codeCells (cells.map (veil '\x00')) ++ []) := by
    rw [append_nil]
    exact h.codeCells_veil
  have hopener := hmarked.ofLine_eq_opener_iff (by rwa [chars_codeCells]) (by rintro c ⟨⟩)
  have hwords : ∀ {words}, AreKeywords words →
      codeHas words (codeCells (cells.map (veil '\x00'))) = codeHas words cells := by
    intro words hwords
    rw [← hasWord_map_veil hwords cells, codeHas, codeCells, map_map]
    exact congrArg _ (map_id _)
  rw [chars_codeCells, opensBlock, startsComment_codeCells, hwords openers_checked,
    hwords closers_checked, hclosers] at hopener
  rw [Bool.eq_false_iff]
  intro hopeners
  rw [Header.isStructural, hopener.mpr (by rw [hopeners]; rfl)] at hstructural
  cases hstructural

/-- Cells are one line of the masked text, or the code ends a line in them. -/
theorem exists_codeLine (cells : List Cell) : '\n' ∉ cells.map (veil '\x00') ∨
    ∃ line rest, cells = line ++ ⟨'\n', .code⟩ :: rest ∧ '\n' ∉ line.map (veil '\x00') := by
  rcases exists_line (cells.map (veil '\x00')) with hline | ⟨text, others, hline, htext⟩
  · exact .inl hline
  · obtain ⟨line, behind, rfl, rfl, hbehind⟩ := map_eq_append_iff.mp htext
    obtain ⟨feed, rest, rfl, hfeed, rfl⟩ := map_eq_cons_iff.mp hbehind
    refine .inr ⟨line, rest, ?_, hline⟩
    obtain ⟨c, role⟩ := feed
    cases role with
    | code => rw [show c = '\n' from hfeed]
    | opening kind | inside kind => cases hfeed

/-- Behind a line feed of the code, a header that is put on one line holds no opener, if it holds no
closer there. -/
theorem Spot.codeHas_openers {family : Header.Family} {left block right : List Cell}
    (h : Spot family left block right) (n : Nat) :
    ∀ {first rest : List Cell}, rest.length = n → block = first ++ ⟨'\n', .code⟩ :: rest →
      codeHas closers rest = false → codeHas openers rest = false := by
  induction n using Nat.strongRecOn with
  | ind n ih =>
    intro first rest hn hblock hclosers
    have hmarked := h.header.marked
    have hjoinable := h.joinable
    rw [hblock, map_append, map_cons] at hjoinable
    rcases exists_codeLine rest with hline | ⟨line, tail, rfl, hline⟩
    · have hmem := @mem_tail_lines _ [] hline (by rintro c ⟨⟩) (first.map (veil '\x00'))
      rw [append_nil] at hmem
      have hmarked : Marked recognize [] ((first ++ [⟨'\n', .code⟩]) ++ (rest ++ [])) := by
        simpa [hblock] using hmarked
      exact codeHas_of_isStructural hmarked hline (Header.isStructural_of_mem hjoinable hmem)
        hclosers
    · rw [codeHas_append_feed closers_checked rfl, Bool.or_eq_false_iff] at hclosers
      rw [codeHas_append_feed openers_checked rfl, Bool.or_eq_false_iff]
      have hmarked : Marked recognize []
          ((first ++ [⟨'\n', .code⟩]) ++ (line ++ ⟨'\n', .code⟩ :: tail)) := by
        simpa [hblock] using hmarked
      rw [map_append] at hjoinable
      have hmem := mem_tail_lines hline
        (show EndsLine ((⟨'\n', .code⟩ :: tail : List Cell).map (veil '\x00')) by
          rintro c ⟨⟩
          rfl) (first.map (veil '\x00'))
      have hlater := @ih tail.length (by rw [← hn]; simp; omega)
        (first ++ ⟨'\n', .code⟩ :: line) tail rfl (by rw [hblock]; simp) hclosers.2
      exact ⟨codeHas_of_isStructural hmarked hline (Header.isStructural_of_mem hjoinable hmem)
        hclosers.1, hlater⟩

/-- A line holds what comes before its end. -/
theorem exists_append_of_endsLine {first line rest : List Cell} (hfirst : '\n' ∉ chars first)
    (hrest : EndsLine (chars rest)) (h : first ++ second = line ++ rest) :
    ∃ more, line = first ++ more ∧ second = more ++ rest := by
  rcases append_eq_append_iff.mp h with ⟨more, rfl, rfl⟩ | ⟨more, rfl, rfl⟩
  · exact ⟨more, rfl, rfl⟩
  · cases more with
    | nil => exact ⟨[], by simp, rfl⟩
    | cons feed more =>
      have hfeed : feed.char = '\n' := hrest _ rfl
      simp [hfeed] at hfirst

/-- What is behind some line feed is behind the first one. -/
theorem hasWord_of_dropWhile (hwords : AreKeywords words) {first second third : List Char}
    (h : hasWord words
      ((first ++ '\n' :: second).dropWhile (· != '\n') ++ third) = false) :
    hasWord words (second ++ third) = false := by
  obtain ⟨more, hmore⟩ : ∃ more,
      (first ++ '\n' :: second).dropWhile (· != '\n') = more ++ '\n' :: second := by
    rw [dropWhile_append]
    split
    · exact ⟨[], rfl⟩
    · exact ⟨_, rfl⟩
  have hgap := hasWord_gap hwords (cons_ne_nil '\n' []) (by decide) more (second ++ third)
  rw [hmore, append_assoc, cons_append, ← singleton_append, hgap,
    Bool.or_eq_false_iff] at h
  exact h.2

section

variable {family : Header.Family} {first start block behind right : List Cell}

/-- The line that a header starts on holds its keyword. -/
theorem Spot.codeHas_line (h : Spot family (first ++ start) block right)
    (hstart : '\n' ∉ chars start)
    {line rest : List Cell} (hline : start ++ (block ++ right) = line ++ rest)
    (hrest : EndsLine (chars rest)) : codeHas [family.keyword] line = true := by
  obtain ⟨read, others, rfl, hspells, hothers⟩ := h.keyword
  have hwords := Header.keyword_checked h.member
  obtain ⟨-, hread⟩ := hspells.isWordChar hwords
  have hfeeds : '\n' ∉ chars (start ++ codeCells read) := by
    rw [chars_append, chars_codeCells, mem_append, not_or]
    refine ⟨hstart, fun hfeed => ?_⟩
    cases hread _ hfeed
  obtain ⟨more, rfl, hmore⟩ := exists_append_of_endsLine hfeeds hrest
    (show (start ++ codeCells read) ++ (others ++ right) = line ++ rest by simpa using hline)
  refine (hasWord_iff hwords).mpr
    ⟨start.map (veil ' '), read, more.map (veil ' '), ?_, hspells, ?_, ?_⟩
  · rw [map_append, map_append, append_assoc, codeCells, map_map]
    exact congrArg _ (congrArg (· ++ _) (map_id read))
  · intro c hc
    rw [getLast?_map, Option.mem_def, Option.map_eq_some_iff] at hc
    obtain ⟨cell, hcell, rfl⟩ := hc
    exact h.before cell (by rw [getLast?_append, Option.mem_def.mp hcell]; rfl)
  · intro c hc
    rw [head?_map, Option.mem_def, Option.map_eq_some_iff] at hc
    obtain ⟨cell, hcell, rfl⟩ := hc
    have hhead : cell ∈ (others ++ right).head? := by
      rw [hmore, head?_append, Option.mem_def.mp hcell]
      rfl
    cases others with
    | nil => exact h.behind cell hhead
    | cons other others => exact hothers cell hhead

/-- Without closers on the further lines of a header, and without openers behind it, only its first
line moves the depth. -/
theorem Spot.quiet (h : Spot family (first ++ start) block (behind ++ right))
    (hstart : '\n' ∉ chars start) (hbehind : '\n' ∉ chars behind) (hright : EndsLine (chars right))
    (hopeners : codeHas openers behind = false)
    (hclosers : hasWord closers
      ((block.map shade).dropWhile (· != '\n') ++ behind.map shade) = false) :
    Quiet (start ++ (block ++ behind)) := by
  refine ⟨fun line rest hcells hline hrest => ?_, fun before feed rest hcells hfeed => ?_⟩
  · have hhas := h.codeHas_line hstart
      (show start ++ (block ++ (behind ++ right)) = line ++ (rest ++ right) by
        rw [← append_assoc line, ← hcells]
        simp) (hrest.append hright)
    have hwords := Header.keyword_checked h.member
    rcases Header.keyword_mem family h.member with hmem | hmem
    · exact .inl (hasWord_mono hwords openers_checked (by simpa using hmem) hhas)
    · exact .inr (.inl (hasWord_mono hwords continuations_checked (by simpa using hmem) hhas))
  · obtain ⟨init, last, hblock, rfl⟩ :
        ∃ init last, block = init ++ feed :: last ∧ rest = last ++ behind := by
      obtain ⟨init, -, hinit⟩ := exists_append_of_endsLine hstart
        (show EndsLine (chars (feed :: rest)) by rintro c ⟨⟩; exact hfeed) hcells
      rcases append_eq_append_iff.mp hinit with ⟨more, -, rfl⟩ | ⟨more, rfl, hmore⟩
      · simp [hfeed] at hbehind
      · cases more with
        | nil =>
          rw [← show feed :: rest = behind from hmore] at hbehind
          simp [hfeed] at hbehind
        | cons other more =>
          obtain ⟨rfl, rfl⟩ := cons_eq_cons.mp hmore
          exact ⟨init, more, rfl, rfl⟩
    have hparted : Parted (last.map (veil ' ')) (behind.map (veil ' ')) := by
      intro _ _ d hd
      rw [head?_map, Option.mem_def, Option.map_eq_some_iff] at hd
      obtain ⟨cell, hcell, rfl⟩ := hd
      exact .inr (h.behind cell (by rw [head?_append, hcell]; rfl))
    have hnone : codeHas closers (last ++ behind) = false := by
      rw [hblock, map_append, map_cons, shade_feed hfeed] at hclosers
      rw [← hasWord_map_shade closers_checked, map_append]
      exact hasWord_of_dropWhile closers_checked hclosers
    refine ⟨hnone, fun hcode => ?_⟩
    rw [codeHas_append closers_checked hparted, Bool.or_eq_false_iff] at hnone
    obtain ⟨c, role⟩ := feed
    cases hfeed
    cases hcode
    rw [codeHas_append openers_checked hparted, h.codeHas_openers last.length rfl hblock hnone.1,
      hopeners]
    rfl

end

end StructuredText
