import StructuredText.Proofs.LineBreaks
import StructuredText.Proofs.LiteralEdits

/-!
# Headers on one line

A header starts and ends with a keyword and holds no line comment, so that its line breaks may go.

Results:
1. `joined_tightened`: putting a header on one line is a sequence of moves, and tightens its blanks.
2. `Header.joinAll_respaced`: so is putting all headers of a text on one line each.
-/

namespace StructuredText

open List Literal

variable {left block out cells rest : List Cell} {c sign : Char} {stop cursor : Cursor}

/-! ## Stretches that start and end with a keyword -/

/-- A stretch of a text that starts and ends in a keyword and holds no line comment. -/
structure IsHeader (block : List Cell) : Prop where
  first : ∃ c, block.head? = some ⟨c, .code⟩ ∧ isWordSign c = true
  last : ∃ c, block.getLast? = some ⟨c, .code⟩ ∧ isWordSign c = true
  marked : Marked recognize [] block
  plain : ∀ cell ∈ block, cell.role ≠ .opening .lineComment ∧ cell.role ≠ .inside .lineComment

/-- No line comment ends before the place. -/
def behindNoComment (left : List Cell) : Prop :=
  endsInLineComment left.reverse = false

theorem behindNoComment_append_codeCells (h : behindNoComment left) (text : List Char) :
    behindNoComment (left ++ codeCells text) := by
  unfold behindNoComment at h ⊢
  rw [reverse_append, codeCells_reverse, Bool.eq_false_iff]
  intro hends
  rcases endsInLineComment_append_cases hends with hcode | ⟨hleft, -⟩
  · generalize text.reverse = text at hcode
    induction text with
    | nil => cases hcode
    | cons c text ih =>
      rw [codeCells_cons, endsInLineComment, Bool.and_eq_true] at hcode
      exact ih hcode.2
  · rw [h] at hleft
    cases hleft

theorem behindNoComment_concat {cell : Cell} (h : behindNoComment left)
    (hcell : cell.role ≠ .opening .lineComment ∧ cell.role ≠ .inside .lineComment) :
    behindNoComment (left ++ [cell]) := by
  unfold behindNoComment at h ⊢
  obtain ⟨c, role⟩ := cell
  rw [reverse_append, reverse_singleton, singleton_append]
  cases role with
  | code => rw [endsInLineComment, h, Bool.and_false]
  | opening kind => simpa [endsInLineComment] using hcell
  | inside kind => simpa [endsInLineComment] using hcell

/-- `out` is a header again, and comes from the header `block` by moves in every context. -/
structure RespacesHeader (block out : List Cell) : Prop where
  header : IsHeader out
  head : out.head? = block.head?
  moves : ∀ left right, behindNoComment left → (∀ cell ∈ right.head?, cell.isInside = false) →
    Respacing .closing (left ++ (block ++ right)) (left ++ (out ++ right))

theorem RespacesHeader.trans {first second third : List Cell} (h : RespacesHeader first second)
    (h' : RespacesHeader second third) : RespacesHeader first third where
  header := h'.header
  head := h'.head.trans h.head
  moves left right hleft hright :=
    (h.moves left right hleft hright).trans (h'.moves left right hleft hright)

theorem Patched.respacesHeader {hit : List Char → List Char → List Char → Prop}
    (hmoves : ∀ tail, Respaces .closing behindNoComment tail hit)
    (hsign : ∀ block rest written, hit block rest written → ∀ c ∈ block, isWordSign c = false)
    (hblock : IsHeader block) (h : Patched hit block out) :
    RespacesHeader block out := by
  have hrespacing : ∀ left right, behindNoComment left →
      (∀ cell ∈ right.head?, cell.isInside = false) →
      Respacing .closing (left ++ (block ++ right)) (left ++ (out ++ right)) :=
    fun left right hleft hright => h.respacing (hmoves right)
      (fun _ _ written _ _ hknown => behindNoComment_append_codeCells hknown written) hright left
      (fun cell hcell _ hknown => behindNoComment_concat hknown (hblock.plain cell hcell)) hleft
  obtain ⟨c, hc, hcsign⟩ := hblock.first
  obtain ⟨d, hd, hdsign⟩ := hblock.last
  have hhead := h.head?_eq hsign hc hcsign
  refine ⟨⟨⟨c, hhead, hcsign⟩, ⟨d, h.getLast?_eq hsign hd hdsign, hdsign⟩, ?_, ?_⟩,
    hhead.trans hc.symm, hrespacing⟩
  · have := hrespacing [] [] rfl (by simp)
    simp only [nil_append, append_nil] at this
    exact this.marked hblock.marked
  · intro cell hcell
    rcases h.mem_or_written hcell with hcell | ⟨_, _, _, -, hcell⟩
    · exact hblock.plain cell hcell
    · rw [role_of_mem_codeCells hcell]
      exact ⟨nofun, nofun⟩

theorem isWordSign_of_isBlank (h : isBlank c = true) : isWordSign c = false := by
  rw [isWordSign, isWordChar_of_isBlank h]
  rfl

theorem closesBefore_isWordSign (hsign : isWordSign sign = false) (block rest written : List Char)
    (h : ClosesBefore sign block rest written) :
    ∀ c ∈ block, isWordSign c = false := by
  obtain ⟨gap, rfl, -, hgap, -⟩ := h
  intro c hc
  rcases mem_append.mp hc with hc | hc
  · exact isWordSign_of_isBlank (isBlank_of_isPad (hgap c hc))
  · rwa [mem_singleton.mp hc]

theorem closesBefore_not_mem (hsign : sign ≠ '\n') (block rest written : List Char)
    (h : ClosesBefore sign block rest written) : '\n' ∉ written := by
  obtain ⟨gap, -, -, -, rfl⟩ := h
  simpa using Ne.symm hsign

theorem isBlank_of_isWordSign (h : isWordSign c = true) : isBlank c = false := by
  rw [Bool.eq_false_iff]
  intro hblank
  rw [isWordSign_of_isBlank hblank] at h
  cases h

/-- A header starts and ends with no blank. -/
theorem IsHeader.trim_eq (h : IsHeader block) : trim (chars block) = chars block := by
  obtain ⟨c, hc, hcsign⟩ := h.first
  obtain ⟨d, hd, hdsign⟩ := h.last
  have hleft : trimLeft (chars block) = chars block := by
    obtain ⟨rest, rfl⟩ := head?_eq_some_iff.mp hc
    rw [chars_cons, trimLeft, dropWhile_cons_of_neg]
    rw [isBlank_of_isWordSign hcsign]
    exact Bool.false_ne_true
  rw [trim, hleft]
  refine trimRight_eq_self fun e he => ?_
  rw [chars, getLast?_map, hd] at he
  cases he
  exact isBlank_of_isWordSign hdsign

/-! ## One line -/

/-- No line ends in the code. -/
def Flat (cells : List Cell) : Prop :=
  ∀ cell ∈ cells, cell.role = .code → cell.char ≠ '\n'

/-- A walk that writes a space for all blanks in a row ends no line. -/
theorem Rewrites.flat {before : List Char}
    (h : Rewrites (.ofReader Header.blankRun) id before cells out) :
    ∀ first, Marked recognize [] (first ++ cells) → Flat out := by
  induction h with
  | nil => exact fun _ _ _ hcell => absurd hcell not_mem_nil
  | @miss before cell rest out hfind _ ih =>
    intro first hmarked other hother
    rcases mem_cons.mp hother with rfl | hother
    · rintro - hfeed
      simp [Recognizer.ofReader, Header.blankRun, Cursor.someRun, Cursor.next, hfeed,
        show isBlank '\n' = true from rfl] at hfind
    · exact ih (first ++ [cell]) (by simpa using hmarked) other hother
  | @blocked before block rest out value hfind hnot _ ih =>
    intro first hmarked other hother hcode
    have hblank := (Header.blankRun_spec.holds (hfind.trans (by rw [length_chars]))).1
    rcases mem_append.mp hother with hother | hother
    · -- With one code point in a literal, all blanks are in it.
      obtain ⟨cell, hcell, hrole⟩ := hnot
      rcases hmarked.code_or_not_code hblank with hall | hnone
      · exact absurd (hall cell hcell) hrole
      · exact absurd hcode (hnone other hother)
    · exact ih (first ++ block) (by simpa using hmarked) other hother hcode
  | @hit before block rest out value hfind _ _ _ ih =>
    intro first hmarked other hother hcode
    obtain ⟨-, hwritten⟩ := Header.blankRun_spec.holds (hfind.trans (by rw [length_chars]))
    rcases mem_append.mp hother with hother | hother
    · rw [id, hwritten] at hother
      rw [mem_singleton.mp hother]
      decide
    · exact ih (first ++ block) (by simpa using hmarked) other hother hcode

theorem Patched.flat {hit : List Char → List Char → List Char → Prop}
    (hhit : ∀ block rest written, hit block rest written → '\n' ∉ written)
    (h : Patched hit cells out)
    (hflat : Flat cells) : Flat out := by
  intro cell hcell hcode
  rcases h.mem_or_written hcell with hcell | ⟨block, rest, written, hwritten, hcell⟩
  · exact hflat cell hcell hcode
  · obtain ⟨c, hc, rfl⟩ := mem_map.mp hcell
    rintro rfl
    exact hhit block rest written hwritten hc

/-- A block of blanks, with a separator behind them or not, is written with other blanks before the
separator. -/
structure Tightens (block _rest written : List Char) : Prop where
  signs : written.filter (!isBlank ·) = block.filter (!isBlank ·)
  words : ∀ c ∈ block ++ written, isWordChar c = false
  nonempty : written ≠ []

theorem tightens_of_isBlank {block rest written : List Char}
    (h : (∀ c ∈ block, isBlank c = true) ∧ written = [' ']) : Tightens block rest written := by
  obtain ⟨hblank, rfl⟩ := h
  have hnone : block.filter (!isBlank ·) = [] :=
    filter_eq_nil_iff.mpr fun c hc => by simp [hblank c hc]
  refine ⟨hnone.symm, fun c hc => ?_, by simp⟩
  rcases mem_append.mp hc with hc | hc
  · exact isWordChar_of_isBlank (hblank c hc)
  · rw [mem_singleton.mp hc]
    decide

theorem tightens_of_closesBefore (hsign : isBlank sign = false ∧ isWordChar sign = false)
    {block rest written : List Char} (h : ClosesBefore sign block rest written) :
    Tightens block rest written := by
  obtain ⟨gap, rfl, -, hgap, rfl⟩ := h
  have hblank : ∀ c ∈ gap, isBlank c = true := fun c hc => isBlank_of_isPad (hgap c hc)
  have hnone : gap.filter (!isBlank ·) = [] :=
    filter_eq_nil_iff.mpr fun c hc => by simp [hblank c hc]
  refine ⟨by rw [filter_append, hnone, nil_append], fun c hc => ?_, by simp⟩
  simp only [mem_append, mem_singleton] at hc
  rcases hc with (hc | rfl) | rfl
  · exact isWordChar_of_isBlank (hblank c hc)
  · exact hsign.2
  · exact hsign.2

/-- Blanks are tightened, pass after pass. -/
def Tightened : List Cell → List Cell → Prop :=
  Relation.ReflTransGen (Patched Tightens)

/-- Putting a header on one line is a sequence of moves, and tightens its blanks. -/
theorem joined_tightened (hblock : IsHeader block) :
    ∃ out, Header.joined (chars block) = chars out ∧ RespacesHeader block out ∧ Flat out ∧
      Tightened block out := by
  obtain ⟨single, hwalk, hsingle⟩ := Rule.apply_rewrites Header.blankRun_spec hblock.marked
  have hflat := hwalk.flat [] hblock.marked
  have hblanks : Patched (fun block _ written => (∀ c ∈ block, isBlank c = true) ∧ written = [' '])
      block single :=
    hwalk.patched (fun _ _ _ _ => Header.blankRun_spec.holds) [] hblock.marked
  have hfirst := hblanks.respacesHeader (fun _ => Header.blankRun_respaces)
    (fun _ _ _ hhit c hc => isWordSign_of_isBlank (hhit.1 c hc)) hblock
  obtain ⟨commas, hcommas, hbeforeComma⟩ :=
    Rule.applyTyped_patched_untype Spacing.beforeComma_spec hfirst.header.marked
  have hflat := hbeforeComma.flat (closesBefore_not_mem (by decide)) hflat
  have hsecond := hbeforeComma.respacesHeader (fun _ => closesBefore_respaces rfl)
    (closesBefore_isWordSign (by decide)) hfirst.header
  obtain ⟨out, hout, hbeforeColon⟩ :=
    Rule.applyTyped_patched_untype Spacing.beforeColon_spec hsecond.header.marked
  have hflat := hbeforeColon.flat (fun block rest written hhit =>
    closesBefore_not_mem (by decide) block rest written hhit.1) hflat
  have hthird := hbeforeColon.respacesHeader
    (fun _ block rest written hne hhit => closesBefore_respaces rfl block rest written hne hhit.1)
    (fun block rest written hhit => closesBefore_isWordSign (by decide) block rest written hhit.1)
    hsecond.header
  refine ⟨out, ?_, (hfirst.trans hsecond).trans hthird, hflat, ?_⟩
  · rw [Header.joined, Spacing.closeSeparators, hsingle, hfirst.header.trim_eq, hcommas, hout]
  · have hblanks : Tightened block single :=
      .single (hblanks.imp fun _ _ _ => tightens_of_isBlank)
    have hcommas : Tightened block commas :=
      hblanks.tail (hbeforeComma.imp fun _ _ _ => tightens_of_closesBefore (by decide))
    exact hcommas.tail
      (hbeforeColon.imp fun _ _ _ hhit => tightens_of_closesBefore (by decide) hhit.1)

/-! ## Headers of a text -/

/-- The stretch from offset `start` up to offset `stop` is a header. -/
def HeaderAt (cells : List Cell) (start stop : Nat) : Prop :=
  ∃ left block right, cells = left ++ (block ++ right) ∧ left.length = start ∧
    (left ++ block).length = stop ∧ IsHeader block ∧
    ∀ cell ∈ right.head?, cell.isInside = false

theorem slice_map (f : Cell → Char) (left block right : List Cell) :
    slice ((left ++ (block ++ right)).map f) left.length (left ++ block).length = block.map f := by
  rw [slice, map_append, drop_left' (length_map f), map_append,
    take_left' (by rw [length_map, length_append, Nat.add_sub_cancel_left])]

/-- A header starts with no blank, so that no line comment ends before it. -/
theorem IsHeader.behindNoComment {right : List Cell} (hblock : IsHeader block)
    (h : Marked recognize [] (left ++ (block ++ right))) : behindNoComment left := by
  obtain ⟨c, hc, hcsign⟩ := hblock.first
  obtain ⟨rest, rfl⟩ := head?_eq_some_iff.mp hc
  rw [StructuredText.behindNoComment, Bool.eq_false_iff]
  intro hends
  have hblank := h.blankToLineEnd_of_ends rfl (by simp [Cell.isInside]) hends
  have hline : c ≠ '\n' := by
    rintro rfl
    cases hcsign
  have : isBlank c = true := hblank c (by simp [hline])
  rw [isBlank_of_isWordSign hcsign] at this
  cases this

/-- One header is put on one line. -/
inductive HeaderJoin : List Cell → List Cell → Prop
  | mk {left block line right : List Cell} :
      IsHeader block → IsHeader line → Flat line → line.head? = block.head? →
      HeaderJoin (left ++ (block ++ right)) (left ++ (line ++ right))

/-- Headers are put on one line each. -/
def HeaderJoins : List Cell → List Cell → Prop :=
  Relation.ReflTransGen HeaderJoin

/-- Headers at places behind `left` are put on one line each. -/
inductive JoinedAt : List Cell → List (Nat × Nat) → List Cell → List Cell → Prop
  | nil (left rest : List Cell) : JoinedAt left [] rest rest
  | cons {left segment block line right out : List Cell} {places : List (Nat × Nat)} :
      IsHeader block → (∀ cell ∈ right.head?, cell.isInside = false) →
      Header.joined (chars block) = chars line → RespacesHeader block line → Flat line →
      Tightened block line → JoinedAt (left ++ segment ++ block) places right out →
      JoinedAt left (((left ++ segment).length, (left ++ segment ++ block).length) :: places)
        (segment ++ (block ++ right)) (segment ++ (line ++ out))

/-- What is edited where headers stand that are in order and apart. -/
theorem exists_joinedAt :
    ∀ (places : List (Nat × Nat)) (left rest : List Cell), cells = left ++ rest →
      (∀ place ∈ places, HeaderAt cells place.1 place.2 ∧ left.length ≤ place.1) →
      places.Pairwise (fun first second => first.2 ≤ second.1) →
      ∃ out, applyEditsFrom left.length (places.map fun place =>
            ⟨place.1, place.2, Header.joined (slice (chars cells) place.1 place.2)⟩) (chars rest) =
          chars out ∧ JoinedAt left places rest out
  | [], left, rest, _, _, _ => ⟨rest, rfl, .nil left rest⟩
  | (start, stop) :: places, left, rest, hcells, hplaces, hsorted => by
      obtain ⟨⟨left', block, right, hsplit, rfl, rfl, hblock, hhead⟩, hle⟩ :=
        hplaces _ mem_cons_self
      obtain ⟨hfirst, hothers⟩ := pairwise_cons.mp hsorted
      -- The text up to the header is kept.
      obtain ⟨segment, rfl, rfl⟩ :
          ∃ segment, left' = left ++ segment ∧ rest = segment ++ (block ++ right) :=
        append_eq_append_of_length_le (hcells.symm.trans hsplit) hle
      obtain ⟨out, hout, hjoined⟩ := exists_joinedAt places (left ++ segment ++ block) right
        (by rw [hsplit]; simp)
        (fun other hother => ⟨(hplaces other (mem_cons_of_mem _ hother)).1,
          hfirst other hother⟩) hothers
      obtain ⟨line, hline, hrespaces, hflat, htightened⟩ := joined_tightened hblock
      refine ⟨segment ++ (line ++ out), ?_,
        .cons hblock hhead hline hrespaces hflat htightened hjoined⟩
      have hslice : slice (chars cells) (left ++ segment).length (left ++ segment ++ block).length =
          chars block := by
        rw [hsplit]
        exact slice_map Cell.char (left ++ segment) block right
      have htake : (left ++ segment).length - left.length = segment.length := by
        rw [length_append]
        omega
      have hdrop : (left ++ segment ++ block).length - left.length = (segment ++ block).length := by
        simp only [length_append]
        omega
      rw [map_cons, applyEditsFrom, hslice, hline, htake, hdrop, ← append_assoc segment,
        chars_append (segment ++ block), drop_left' (length_chars _), chars_append segment,
        append_assoc (chars segment), take_left' (length_chars segment), hout]
      simp

theorem JoinedAt.head?_eq {places : List (Nat × Nat)} (h : JoinedAt left places rest out) :
    out.head? = rest.head? := by
  cases h with
  | nil => rfl
  | @cons _ segment _ _ _ _ _ hblock _ _ hrespaces _ _ _ =>
    cases segment with
    | nil =>
      obtain ⟨c, hc, -⟩ := hblock.first
      simp [hrespaces.head, hc]
    | cons cell segment => rfl

/-- Putting headers on one line each is a sequence of moves. -/
theorem JoinedAt.respacing {places : List (Nat × Nat)} (h : JoinedAt left places rest out)
    (hmarked : Marked recognize [] (left ++ rest)) :
    Respacing .closing (left ++ rest) (left ++ out) := by
  induction h with
  | nil => exact .refl
  | @cons left segment block line right out places hblock hhead _ hrespaces _ _ hjoined ih =>
    have hlater : Respacing .closing (left ++ (segment ++ (block ++ right)))
        (left ++ (segment ++ (block ++ out))) := by
      simpa using ih (by simpa using hmarked)
    have hnoComment : behindNoComment (left ++ segment) :=
      hblock.behindNoComment (by simpa using hmarked)
    have hnow : Respacing .closing (left ++ (segment ++ (block ++ out)))
        (left ++ (segment ++ (line ++ out))) := by
      simpa using hrespaces.moves (left ++ segment) out hnoComment (by rwa [hjoined.head?_eq])
    exact hlater.trans hnow

theorem JoinedAt.headerJoins {places : List (Nat × Nat)} (h : JoinedAt left places rest out) :
    HeaderJoins (left ++ rest) (left ++ out) := by
  induction h with
  | nil => exact .refl
  | @cons left segment block line right out places hblock _ _ hrespaces hflat _ _ ih =>
    have hlater : HeaderJoins (left ++ (segment ++ (block ++ right)))
        (left ++ (segment ++ (block ++ out))) := by
      simpa using ih
    have hnow := @HeaderJoin.mk (left ++ segment) block line out hblock hrespaces.header hflat
      hrespaces.head
    exact hlater.tail (by simpa using hnow)

/-! ## Reading headers -/

namespace Header

variable {family : Family}

theorem reads_clauseFrom {clause : List Char} (after : List Char) :
    ∀ pos before, clauseFrom clause pos before after = some stop →
      ∃ gap middle, Cursor.Reads ⟨pos, before, after⟩ middle gap ∧
        middle.wholeWord [clause] = some stop := by
  induction after with
  | nil => exact fun pos before h => ⟨[], _, .refl _, h⟩
  | cons c rest ih =>
    intro pos before h
    rw [clauseFrom] at h
    split at h
    next stop' hword =>
      cases h
      exact ⟨[], _, .refl _, hword⟩
    next =>
      split at h
      · cases h
      · obtain ⟨gap, middle, hreads, hword⟩ := ih _ _ h
        have hnext : Cursor.Reads ⟨pos, before, c :: rest⟩ ⟨pos + 1, c :: before, rest⟩ [c] :=
          ⟨rfl, rfl, rfl⟩
        exact ⟨c :: gap, middle, hnext.trans hreads, hword⟩

/-- The keywords of headers are made of ASCII letters. -/
theorem families_checked : ∀ family ∈ families, ∀ word ∈ [family.keyword, family.clause],
    word ≠ [] ∧ ∀ c ∈ word, c.toNat < 128 ∧ isWordSign c = true := by
  decide

theorem reads_keyword (hfamily : family ∈ families) {word : List Char}
    (hword : word ∈ [family.keyword, family.clause]) (h : cursor.wholeWord [word] = some stop) :
    ∃ read, cursor.Reads stop read ∧ read ≠ [] ∧ ∀ c ∈ read, isWordSign c = true := by
  obtain ⟨-, -, _, htext, hread⟩ := Cursor.reads_wholeWord h
  rw [mem_singleton.mp htext] at hread
  obtain ⟨hne, hsigns⟩ := families_checked family hfamily word hword
  obtain ⟨read, hreads, hlength, hread⟩ := Cursor.reads_word_isWordSign hsigns hread
  refine ⟨read, hreads, ?_, hread⟩
  rintro rfl
  exact hne (eq_nil_of_length_eq_zero hlength.symm)

/-- A header starts and ends in a keyword. -/
theorem reads_reader (hfamily : family ∈ families) (h : reader family cursor = some stop) :
    ∃ block, cursor.Reads stop block ∧ (∃ c ∈ block.head?, isWordSign c = true) ∧
      ∃ c ∈ block.getLast?, isWordSign c = true := by
  obtain ⟨inside, hkeyword, hclause⟩ := Option.bind_eq_some_iff.mp h
  obtain ⟨first, hfirst, hne, hsigns⟩ := reads_keyword hfamily (by simp) hkeyword
  obtain ⟨gap, middle, hgap, hword⟩ := reads_clauseFrom _ _ _ hclause
  obtain ⟨last, hlast, hne', hsigns'⟩ := reads_keyword hfamily (by simp) hword
  refine ⟨first ++ (gap ++ last), hfirst.trans (hgap.trans hlast), ?_, ?_⟩
  · obtain ⟨c, first, rfl⟩ := exists_cons_of_ne_nil hne
    exact ⟨c, rfl, hsigns c mem_cons_self⟩
  · refine ⟨last.getLast hne', ?_, hsigns' _ (getLast_mem hne')⟩
    rw [getLast?_append_of_ne_nil, getLast?_append_of_ne_nil,
      getLast?_eq_some_getLast hne']
    · rfl
    · exact hne'
    · simp [hne']

/-- A word sign of the masked text is one of the code. -/
theorem eq_of_isWordSign_veil {cell : Cell} (h : veil '\x00' cell = c)
    (hsign : isWordSign c = true) : cell = ⟨c, .code⟩ := by
  obtain ⟨d, role⟩ := cell
  cases role with
  | code =>
    cases h
    rfl
  | opening kind =>
    cases h
    cases hsign
  | inside kind =>
    cases h
    cases hsign

def find (family : Family) : Recognizer Unit :=
  .ofReader fun cursor => (reader family cursor).map (·, ())

theorem reads_find (hfamily : family ∈ families) {advance : Bool} {n : Nat} {value : Unit}
    (h : find family advance cursor = some (n, value)) :
    ∃ block rest, cursor.after = block ++ rest ∧ n = block.length ∧
      (∃ c ∈ block.head?, isWordSign c = true) ∧ ∃ c ∈ block.getLast?, isWordSign c = true := by
  obtain ⟨stop, hread, rfl⟩ := ofReader_eq_some.mp h
  obtain ⟨stop', hread', heq⟩ := Option.map_eq_some_iff.mp hread
  cases heq
  obtain ⟨block, hreads, hfirst, hlast⟩ := reads_reader hfamily hread'
  refine ⟨block, stop.after, hreads.after, ?_, hfirst, hlast⟩
  rw [hreads.pos, Nat.add_sub_cancel_left]

theorem find_isProper (hfamily : family ∈ families) : (find family).IsProper := by
  intro advance cursor n value h
  obtain ⟨block, rest, hafter, rfl, ⟨c, hc, -⟩, -⟩ := reads_find hfamily h
  obtain ⟨tail, rfl⟩ := head?_eq_some_iff.mp hc
  rw [hafter, length_append, length_cons]
  omega

end Header

/-- What stands behind a word sign of the code can be cut off. -/
theorem Marked.truncate {before : List Char} {right : List Cell}
    (h : Marked recognize before (block ++ right)) (hlast : block.getLast? = some ⟨c, .code⟩)
    (hsign : isWordSign c = true) : Marked recognize before block := by
  have := h.replace rfl (h.head?_of_getLast? hlast) .nil ?_ (fun _ => .inl rfl) ?_
  · rwa [append_nil] at this
  · intro d hd
    rw [hlast] at hd
    cases hd
    rw [isWordSign, Bool.and_eq_true] at hsign
    exact opensLiteral_of_isTypedChar (isTypedChar_of_isWordChar hsign.1) _
  · intro _ d hd
    cases hd

/-- What is found in the masked text is a header, if no line comment starts there. -/
theorem headerAt_of_mem {family : Header.Family} (hfamily : family ∈ Header.families)
    (hmarked : Marked recognize [] cells) {found : Occurrence Unit}
    (hfound : found ∈ occurrences (Header.find family) (cells.map (veil '\x00')))
    (hplain : ∀ span ∈ spansFrom 0 cells, span.kind = .lineComment → found.start ≤ span.start →
      ¬ span.start < found.stop) :
    HeaderAt cells found.start found.stop := by
  obtain ⟨gap, code, last, hcode, hstart, hstop, hfind⟩ :=
    mem_occurrencesFrom (Header.find_isProper hfamily) _ _ _ _ hfound
  obtain ⟨_, _, hsplit, hlength, hfirst, hlast⟩ := Header.reads_find hfamily hfind
  obtain ⟨rfl, -⟩ := append_inj hsplit hlength
  obtain ⟨left, rest, rfl, rfl, hrest⟩ := map_eq_append_iff.mp hcode
  obtain ⟨block, right, rfl, rfl, -⟩ := map_eq_append_iff.mp hrest
  rw [length_map, Nat.zero_add] at hstart
  rw [length_map] at hstop
  -- The ends of what is found are word signs, so that they belong to the code.
  obtain ⟨c, hc, hcsign⟩ := hfirst
  rw [head?_map, Option.mem_def, Option.map_eq_some_iff] at hc
  obtain ⟨first, hfirst, hveil⟩ := hc
  rw [Header.eq_of_isWordSign_veil hveil hcsign] at hfirst
  obtain ⟨d, hd, hdsign⟩ := hlast
  rw [getLast?_map, Option.mem_def, Option.map_eq_some_iff] at hd
  obtain ⟨final, hlast, hveil⟩ := hd
  rw [Header.eq_of_isWordSign_veil hveil hdsign] at hlast
  have hmarked' := hmarked.of_append rfl (by
    obtain ⟨tail, rfl⟩ := head?_eq_some_iff.mp hfirst
    simp [Cell.isInside])
  have hblock : Marked recognize [] block := (hmarked'.truncate hlast hdsign).rebase
  have hopening : ∀ cell ∈ block, cell.role ≠ .opening .lineComment := by
    rintro ⟨e, role⟩ hcell hrole
    cases hrole
    obtain ⟨init, tail, rfl⟩ := append_of_mem hcell
    obtain ⟨span, hspan, hspanstart, hkind⟩ :=
      @mem_spansFrom_of_opening e .lineComment (tail ++ right) (left ++ init) 0
    refine hplain span (by simpa using hspan) hkind ?_ ?_
    · rw [hspanstart, length_append]
      omega
    · simp only [length_append, length_cons] at hspanstart hstop
      omega
  refine ⟨left, block, right, rfl, hstart.symm, by rw [length_append]; omega,
    ⟨⟨c, hfirst, hcsign⟩, ⟨d, hlast, hdsign⟩, hblock, fun cell hcell => ⟨hopening cell hcell, ?_⟩⟩,
    hmarked'.head?_of_getLast? hlast⟩
  intro hrole
  obtain ⟨other, hother, hrole'⟩ := hblock.opening_of_inside hcell hrole
  exact hopening other hother hrole'

/-! ## All headers -/

namespace Header

variable {family : Family}

/-- The headers of a family that are put on one line. -/
def wanted (family : Family) (cells : List Cell) : List (Occurrence Unit) :=
  (occurrences (find family) (cells.map (veil '\x00'))).filter fun found =>
    isJoinable (slice (cells.map (veil '\x00')) found.start found.stop) &&
      !(spansFrom 0 cells).any fun span =>
        span.kind == .lineComment && found.start ≤ span.start && span.start < found.stop

/-- The edit that puts a stretch of a text on one line. -/
def editAt (document : List Char) (place : Nat × Nat) : Edit :=
  ⟨place.1, place.2, joined (slice document place.1 place.2)⟩

/-- Where the headers stand that are put on one line. -/
def places (family : Family) (cells : List Cell) : List (Nat × Nat) :=
  (wanted family cells).map fun found => (found.start, found.stop)

theorem edits_eq (hmarked : Marked recognize [] cells) (family : Family) :
    edits family (chars cells) = (places family cells).map (editAt (chars cells)) := by
  have hmasked : masked (spansFrom 0 cells) (chars cells) = cells.map (veil '\x00') :=
    maskSpans_eq hmarked '\x00'
  rw [places, map_map, ← filterMap_eq_map, wanted, filterMap_filter]
  simp only [edits, hmarked.scan_eq, hmasked]
  rfl

theorem headerAt_of_mem_wanted (hfamily : family ∈ families) (hmarked : Marked recognize [] cells)
    {found : Occurrence Unit} (hfound : found ∈ wanted family cells) :
    HeaderAt cells found.start found.stop := by
  obtain ⟨hmem, hcondition⟩ := mem_filter.mp hfound
  refine headerAt_of_mem hfamily hmarked hmem ?_
  intro span hspan hkind hle hlt
  simp only [Bool.and_eq_true, Bool.not_eq_true', any_eq_false, beq_iff_eq,
    decide_eq_true_eq] at hcondition
  exact hcondition.2 span hspan ⟨⟨hkind, hle⟩, hlt⟩

theorem places_pairwise (hfamily : family ∈ families) (cells : List Cell) :
    (places family cells).Pairwise fun first second => first.2 ≤ second.1 :=
  pairwise_map.mpr ((occurrencesFrom_pairwise (find_isProper hfamily) _ 0 0 []).filter _)

/-- The headers of a family are put on one line each. -/
theorem join_joinedAt (hfamily : family ∈ families) (hmarked : Marked recognize [] cells) :
    ∃ out, chars out = join family (chars cells) ∧ JoinedAt [] (places family cells) cells out := by
  have hplaces : ∀ place ∈ places family cells,
      HeaderAt cells place.1 place.2 ∧ ([] : List Cell).length ≤ place.1 := by
    intro place hplace
    obtain ⟨found, hfound, rfl⟩ := mem_map.mp hplace
    exact ⟨headerAt_of_mem_wanted hfamily hmarked hfound, Nat.zero_le _⟩
  obtain ⟨out, hout, hjoined⟩ :=
    exists_joinedAt _ [] cells rfl hplaces (places_pairwise hfamily cells)
  refine ⟨out, ?_, hjoined⟩
  rw [join, edits_eq hmarked, ← hout]
  rfl

/-- Putting the headers of a family on one line each is a sequence of moves. -/
theorem exists_joined (hfamily : family ∈ families) (hmarked : Marked recognize [] cells) :
    ∃ out, chars out = join family (chars cells) ∧ Respacing .closing cells out ∧
      HeaderJoins cells out := by
  obtain ⟨out, hout, hjoined⟩ := join_joinedAt hfamily hmarked
  exact ⟨out, hout, hjoined.respacing hmarked, hjoined.headerJoins⟩

/-- So is putting the headers of several families on one line each. -/
theorem exists_joinedAll {chosen : List Family} (hchosen : ∀ family ∈ chosen, family ∈ families)
    (hmarked : Marked recognize [] cells) :
    ∃ out, chars out = joinAll chosen (chars cells) ∧ Respacing .closing cells out ∧
      HeaderJoins cells out := by
  induction chosen generalizing cells with
  | nil => exact ⟨cells, rfl, .refl, .refl⟩
  | cons family chosen ih =>
    obtain ⟨middle, hmiddle, hmoves, hjoins⟩ :=
      exists_joined (hchosen family mem_cons_self) hmarked
    obtain ⟨out, hout, hmoves', hjoins'⟩ :=
      ih (fun other hother => hchosen other (mem_cons_of_mem _ hother)) (hmoves.marked hmarked)
    refine ⟨out, ?_, hmoves.trans hmoves', Relation.ReflTransGen.trans hjoins hjoins'⟩
    rw [hout, hmiddle]
    rfl

theorem joinAll_respaced (text : List Char) :
    Respaced .closing text (joinAll families text) := by
  rintro cells hmarked rfl
  obtain ⟨out, hout, hmoves, -⟩ := exists_joinedAll (fun _ hfamily => hfamily) hmarked
  exact ⟨out, hout, hmoves⟩

end Header

end StructuredText
