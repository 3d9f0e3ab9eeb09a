import StructuredText.Proofs.Pipeline

/-!
# The layout of lines

A formatted line is empty, or has tabs before its first code point that is not blank, and no space
or tab at its end. Lines that start inside a literal, and blanks at the end of a line that are in
one, are left as they are.

Results:
1. `Relined.tidyLines`: indentation puts nothing but tabs before the content of a line.
2. `HeaderJoin.tidyLines`, `HeaderJoin.trimmed`: putting a header on one line keeps the layout.
3. `Format.canonical_layout`: the lines of a formatted text are laid out so.
-/

namespace StructuredText

open List Literal

variable {rest cells out line : List Cell} {c : Char}

/-! ## The starts of lines -/

/-- The text starts with the end of a line, or with tabs and a code point that is not blank. -/
def StartsTidy (text : List Char) : Prop :=
  EndsLine text ∨ ∃ c ∈ (text.dropWhile (· == '\t')).head?, isBlank c = false

/-- Every line that does not start inside a literal is tidy there. -/
def TidyLines (cells : List Cell) : Prop :=
  ∀ left right, cells = left ++ right → StartsLine left →
    (∀ cell ∈ right.head?, cell.isInside = false) → StartsTidy (chars right)

theorem startsTidy_tabs {level : Nat} {rest : List Char} (hc : isBlank c = false) :
    StartsTidy (List.replicate level '\t' ++ c :: rest) := by
  refine .inr ⟨c, ?_, hc⟩
  have htab : c ≠ '\t' := by
    rintro rfl
    cases hc
  rw [dropWhile_append_of_pos]
  · simp [htab]
  · intro d hd
    rw [eq_of_mem_replicate hd]
    rfl

variable {first text : List Char} {cell : Cell}

theorem head?_dropWhile_append_cons (hc : c ≠ '\t') (rest : List Char) :
    ((first ++ c :: rest).dropWhile (· == '\t')).head? =
      ((first ++ [c]).dropWhile (· == '\t')).head? := by
  induction first with
  | nil => simp [hc]
  | cons d first ih =>
    by_cases hd : d = '\t'
    · simpa [hd] using ih
    · simp [hd]

/-- The start of a line is told by what comes up to a code point that is no tab. -/
theorem startsTidy_congr {rest rest' : List Char} (hc : c ≠ '\t')
    (h : StartsTidy (first ++ c :: rest)) : StartsTidy (first ++ c :: rest') := by
  unfold StartsTidy at h ⊢
  rw [head?_dropWhile_append_cons hc] at h ⊢
  refine h.imp_left fun hline d hd => hline d ?_
  cases first with
  | nil | cons e first => exact hd

theorem startsLine_append_cons {first : List Cell} :
    StartsLine (first ++ cell :: rest) ↔ StartsLine (cell :: rest) := by
  rw [StartsLine, chars_append, chars_cons, getLast?_append_cons]
  rfl

theorem StartsLine.of_append_cons {first : List Cell} (h : StartsLine (first ++ cell :: rest)) :
    StartsLine rest := by
  intro c hc
  refine startsLine_append_cons.mp h c ?_
  rw [chars_cons, getLast?_cons, Option.mem_def.mp hc]
  rfl

/-- Nothing but the start of the text starts a line where no line feed stands before. -/
theorem StartsLine.eq_nil {left : List Cell} (h : StartsLine left) (hleft : '\n' ∉ chars left) :
    left = [] := by
  by_contra hne
  have hlast := getLast?_eq_some_getLast (by simpa [chars] using hne : chars left ≠ [])
  refine hleft ?_
  rw [← h _ hlast]
  exact getLast_mem _

/-! ## Lines after indentation -/

section Relaid

variable {tail line out right : List Cell}

theorem Relaid.not_mem (h : Relaid tail line out) (hline : '\n' ∉ chars line) :
    '\n' ∉ chars out := by
  cases h with
  | carried _ => exact hline
  | placed _ _ _ _ _ _ =>
    simp only [chars_append, chars_codeCells, mem_append, not_or] at hline ⊢
    refine ⟨fun hmem => ?_, hline.2.1⟩
    cases eq_of_mem_replicate hmem

theorem Relaid.startsTidy (h : Relaid tail line out) (hsame : right.head? = tail.head?)
    (hright : EndsLine (chars right))
    (hhead : ∀ cell ∈ (out ++ right).head?, cell.isInside = false) :
    StartsTidy (chars (out ++ right)) := by
  cases h with
  | carried hinside =>
    obtain ⟨cell, hcell, htrue⟩ := hinside
    rw [head?_append, ← hsame, ← head?_append] at hcell
    rw [hhead cell hcell] at htrue
    cases htrue
  | @placed gap trailing content level _ _ hfirst _ hlevel _ =>
    cases content with
    | nil =>
      rw [hlevel rfl]
      exact .inl hright
    | cons cell content =>
      rw [append_assoc, chars_append, chars_codeCells]
      exact startsTidy_tabs (hfirst cell rfl)

theorem Relaid.endsBare (h : Relaid tail line out) (hline : EndsBare line) : EndsBare out := by
  cases h with
  | carried _ => exact hline
  | @placed gap trailing content level _ _ _ hlast hlevel _ =>
    intro cell hcell hcode
    rw [Bool.eq_false_iff]
    intro hpad
    rcases eq_nil_or_concat content with rfl | ⟨init, final, rfl⟩
    · rw [hlevel rfl] at hcell
      cases hcell
    · rw [concat_eq_append, ← append_assoc, getLast?_concat] at hcell
      cases hcell
      have := hlast cell (by simp) hcode
      rw [isBlank_of_isPad hpad] at this
      cases this

end Relaid

/-- Indentation puts nothing but tabs before the content of a line. -/
theorem Relined.tidyLines (h : Relined cells out) : TidyLines out := by
  induction h with
  | @last line out hline hrelaid =>
    intro left right hout hleft hhead
    have hfree := hrelaid.not_mem hline
    rw [hout, chars_append, mem_append, not_or] at hfree
    cases hleft.eq_nil hfree.1
    have hnil : right = right ++ [] := (append_nil right).symm
    rw [nil_append] at hout
    subst hout
    rw [hnil] at hhead ⊢
    exact hrelaid.startsTidy rfl (by rintro c ⟨⟩) hhead
  | @next line out rest rest' ending hline hending hrelaid _ ih =>
    intro left right hout hleft hhead
    have hfree := hrelaid.not_mem hline
    -- A line starts at the start of the text or behind a line feed of an earlier line.
    have hfirst : ∀ middle, out = left ++ middle → right = middle ++ ending :: rest' →
        StartsTidy (chars right) := by
      rintro middle rfl rfl
      rw [chars_append, mem_append, not_or] at hfree
      cases hleft.eq_nil hfree.1
      exact hrelaid.startsTidy rfl (by rintro c ⟨⟩; exact hending) hhead
    rcases append_eq_append_iff.mp hout with ⟨middle, rfl, hmiddle⟩ | ⟨middle, hsplit, hright⟩
    · cases middle with
      | nil => exact hfirst [] (by simp) (by simpa using hmiddle.symm)
      | cons cell middle =>
        obtain ⟨-, hrest⟩ := cons_eq_cons.mp hmiddle
        exact ih middle right hrest hleft.of_append_cons hhead
    · exact hfirst middle hsplit hright

/-- In a line, only the last code point can be at its end. -/
theorem isChain_line {tail : List Cell} (hline : '\n' ∉ chars line)
    (htail : ∃ ending ∈ tail.head?, ending.char = '\n') :
    (line ++ tail).IsChain Fits ↔ EndsBare line ∧ tail.IsChain Fits := by
  have hinside : line.IsChain Fits := by
    induction line with
    | nil => exact .nil
    | cons cell line ih =>
      rw [chars_cons, mem_cons, not_or] at hline
      refine isChain_cons.mpr ⟨fun next hnext _ _ hfeed => hline.2 ?_, ih hline.2⟩
      rw [← hfeed]
      exact mem_map_of_mem (mem_of_head? hnext)
  obtain ⟨ending, hending, hfeed⟩ := htail
  rw [isChain_append]
  constructor
  · rintro ⟨-, hrest, hseam⟩
    refine ⟨fun cell hcell hcode => ?_, hrest⟩
    rw [Bool.eq_false_iff]
    exact fun hpad => hseam cell hcell ending hending hcode hpad hfeed
  · rintro ⟨hbare, hrest⟩
    refine ⟨hinside, hrest, fun cell hcell _ _ hcode hpad => ?_⟩
    rw [hbare cell hcell hcode] at hpad
    cases hpad

theorem trimmed_last (hline : '\n' ∉ chars line) : Trimmed line ↔ EndsBare line := by
  rw [Trimmed, isChain_line hline ⟨feed, rfl, rfl⟩]
  exact and_iff_left (isChain_singleton _)

theorem trimmed_line {ending : Cell} (hline : '\n' ∉ chars line) (hending : ending.char = '\n') :
    Trimmed (line ++ ending :: rest) ↔ EndsBare line ∧ Trimmed rest := by
  rw [Trimmed, append_assoc, isChain_line hline ⟨ending, rfl, hending⟩]
  refine and_congr_right fun _ => ?_
  change Trimmed (ending :: rest) ↔ _
  rw [trimmed_cons, and_iff_right]
  rw [hending]
  exact fun _ hpad => absurd hpad (by decide)

/-- Indentation puts no space or tab at the end of a line. -/
theorem Relined.trimmed (h : Relined cells out) (htrimmed : Trimmed cells) : Trimmed out := by
  induction h with
  | last hline hrelaid =>
    rw [trimmed_last hline] at htrimmed
    rw [trimmed_last (hrelaid.not_mem hline)]
    exact hrelaid.endsBare htrimmed
  | next hline hending hrelaid _ ih =>
    rw [trimmed_line hline hending] at htrimmed
    rw [trimmed_line (hrelaid.not_mem hline) hending]
    exact ⟨hrelaid.endsBare htrimmed.1, ih htrimmed.2⟩

/-! ## Headers on one line -/

/-- Where no line ends in the code, no space or tab of the code ends a line. -/
theorem Marked.isChain_of_flat {before : List Char} (h : Marked recognize before cells)
    (hflat : Flat cells) : cells.IsChain Fits := by
  induction h with
  | nil => exact .nil
  | @code before c rest _ hrest ih =>
    have hlater := ih fun cell hcell => hflat cell (mem_cons_of_mem _ hcell)
    refine isChain_cons.mpr ⟨?_, hlater⟩
    rintro ⟨d, role⟩ hnext - -
    obtain ⟨tail, rfl⟩ := head?_eq_some_iff.mp hnext
    cases role with
    | code => exact hflat ⟨d, .code⟩ (by simp) rfl
    | opening kind =>
      rintro rfl
      cases @Marked.isBlank_of_opening _ [] _ _ _ hrest
    | inside kind => cases hrest.head_not_inside
  | @literal before body c kind rest _ _ ih =>
    have hlater := ih fun cell hcell => hflat cell (mem_append_right _ hcell)
    exact isChain_append_of_isPad hlater fun cell hcell hcode =>
      absurd hcode (role_of_mem_literalCells hcell)

theorem isPad_of_isWordSign (h : isWordSign c = true) : isPad c = false := by
  rw [Bool.eq_false_iff]
  intro hpad
  have := isBlank_of_isWordSign h
  rw [isBlank_of_isPad hpad] at this
  cases this

/-- Putting a header on one line puts no space or tab at the end of a line. -/
theorem HeaderJoin.trimmed (h : HeaderJoin cells out) (htrimmed : Trimmed cells) : Trimmed out := by
  cases h with
  | @mk left block line right _ hline hflat hhead =>
    simp only [Trimmed, append_assoc] at htrimmed ⊢
    obtain ⟨hleft, hrest, hseam⟩ := isChain_append.mp htrimmed
    have hright := (isChain_append.mp hrest).2.1
    obtain ⟨c, hlast, hsign⟩ := hline.last
    refine isChain_append.mpr ⟨hleft, isChain_append.mpr
      ⟨hline.marked.isChain_of_flat hflat, hright, ?_⟩, ?_⟩
    · intro cell hcell next _ _ hpad
      rw [hlast] at hcell
      cases hcell
      rw [isPad_of_isWordSign hsign] at hpad
      cases hpad
    · intro cell hcell next hnext
      rw [head?_append, hhead, ← head?_append] at hnext
      exact hseam cell hcell next hnext

/-- No line starts in a header that is on one line, nor right behind it. -/
theorem IsHeader.not_startsLine {left first second : List Cell} (hline : IsHeader (first ++ second))
    (hflat : Flat (first ++ second)) (hne : first ≠ [])
    (hsecond : ∀ cell ∈ second.head?, cell.isInside = false) : ¬ StartsLine (left ++ first) := by
  intro hstarts
  obtain ⟨init, ⟨c, role⟩, rfl⟩ := (eq_nil_or_concat first).resolve_left hne
  simp only [concat_eq_append] at hline hflat hstarts
  obtain rfl : c = '\n' := hstarts c (by simp)
  -- A line feed in a literal is not its end.
  have hrole : role = .code := by
    rcases eq_nil_or_concat second with rfl | hcons
    · obtain ⟨d, hlast, -⟩ := hline.last
      rw [append_nil, getLast?_concat] at hlast
      cases hlast
      rfl
    · have hmarked := hline.marked
      rw [append_assoc] at hmarked
      have hcode := hmarked.codeCells_of_head rfl (by simp; decide)
        (by obtain ⟨_, _, rfl⟩ := hcons; simp) hsecond
      simpa using hcode
  exact hflat ⟨'\n', role⟩ (by simp) hrole rfl

/-- Putting a header on one line leaves the lines tidy. -/
theorem HeaderJoin.tidyLines (h : HeaderJoin cells out) (htidy : TidyLines cells) :
    TidyLines out := by
  cases h with
  | @mk left block line right _ hline hflat hhead =>
    intro first second hsplit hstarts hsecond
    -- Lines that start before the header.
    have hbefore : ∀ middle, left = first ++ middle → second = middle ++ (line ++ right) →
        StartsTidy (chars second) := by
      rintro middle rfl rfl
      have hold := htidy first (middle ++ (block ++ right)) (by simp) hstarts (by
        rwa [head?_append, head?_append, ← hhead, ← head?_append,
          ← head?_append])
      obtain ⟨c, hc, hsign⟩ := hline.first
      rw [hc] at hhead
      obtain ⟨tail, rfl⟩ := head?_eq_some_iff.mp hc
      obtain ⟨tail', rfl⟩ := head?_eq_some_iff.mp hhead.symm
      simp only [cons_append, chars_append, chars_cons] at hold ⊢
      refine startsTidy_congr ?_ hold
      rintro rfl
      cases hsign
    rcases append_eq_append_iff.mp hsplit with ⟨middle, rfl, hmiddle⟩ | ⟨middle, hleft, hright⟩
    · rcases append_eq_append_iff.mp hmiddle with ⟨rest, rfl, rfl⟩ | ⟨rest, rfl, rfl⟩
      · cases rest with
        | nil =>
          have hne : line ≠ [] := by
            rintro rfl
            obtain ⟨c, hc, -⟩ := hline.first
            cases hc
          rw [append_nil] at hstarts
          exact absurd hstarts (@IsHeader.not_startsLine left line [] (by rwa [append_nil])
            (by rwa [append_nil]) hne (by simp))
        | cons cell rest =>
          refine htidy (left ++ (block ++ cell :: rest)) second (by simp) ?_ hsecond
          rw [← append_assoc, startsLine_append_cons] at hstarts ⊢
          exact hstarts
      · by_cases hne : middle = []
        · subst hne
          exact hbefore [] (by simp) rfl
        · refine absurd hstarts (hline.not_startsLine hflat hne ?_)
          cases rest with
          | nil => simp
          | cons cell rest => exact hsecond
    · exact hbefore middle hleft hright

/-! ## The layout of formatted texts -/

/-- The lines of the text are laid out. -/
def LaidOut (cells : List Cell) : Prop :=
  Trimmed cells ∧ TidyLines cells

theorem Indentation.apply_laidOut (h : MarkedAs Trimmed text) :
    MarkedAs LaidOut (apply text) := by
  obtain ⟨cells, rfl, hmarked, htrimmed⟩ := h
  obtain ⟨out, hout, hmoves, hrelined⟩ := exists_indented hmarked
  exact ⟨out, hout, hmoves.marked hmarked, hrelined.trimmed htrimmed, hrelined.tidyLines⟩

/-- What putting one header on one line keeps, putting all of them on one line keeps. -/
theorem Header.joinAll_markedAs {inv : List Cell → Prop}
    (hinv : ∀ {cells out}, HeaderJoin cells out → inv cells → inv out) (h : MarkedAs inv text) :
    MarkedAs inv (joinAll families text) := by
  obtain ⟨cells, rfl, hmarked, hcells⟩ := h
  obtain ⟨out, hout, hmoves, hjoins⟩ := exists_joinedAll (fun _ hfamily => hfamily) hmarked
  refine ⟨out, hout, hmoves.marked hmarked, ?_⟩
  clear hout hmoves
  induction hjoins with
  | refl => exact hcells
  | tail _ hjoin ih => exact hinv hjoin ih

namespace Format

theorem finish_laidOut (text : List Char) : MarkedAs LaidOut (finish text) := by
  have htrimmed := Spacing.trimLineEnds_trimmed (Spacing.spaceOperators text)
  have hbroken := LineBreak.breakBlocks_trimmed (Spacing.tightenColons_trimmed htrimmed)
  have hindented := Indentation.apply_laidOut (LineBreak.reduceBlankLines_trimmed hbroken)
  exact Header.joinAll_markedAs (fun hjoin hlaid =>
    ⟨hjoin.trimmed hlaid.1, hjoin.tidyLines hlaid.2⟩) hindented

end Format

/-! ## Lines of a text -/

/-- `line` is the line of the text that starts at the offset `start`. -/
def LineAt (text : List Char) (start : Nat) (line : List Char) : Prop :=
  ∃ before after, text = before ++ (line ++ after) ∧ before.length = start ∧ '\n' ∉ line ∧
    EndsLine before.reverse ∧ EndsLine after

/-- The line is empty, or has nothing but tabs before a code point that is not blank. -/
def IsIndented (line : List Char) : Prop :=
  line = [] ∨ ∃ level c rest, line = List.replicate level '\t' ++ c :: rest ∧ isBlank c = false

/-- A line that starts tidily is indented. -/
theorem StartsTidy.isIndented {line after : List Char} (h : StartsTidy (line ++ after))
    (hline : '\n' ∉ line) (hafter : EndsLine after) : IsIndented line := by
  rcases h with hends | ⟨c, hc, hblank⟩
  · cases line with
    | nil => exact .inl rfl
    | cons c line =>
      rw [hends c rfl] at hline
      exact absurd mem_cons_self hline
  · have hsplit := takeWhile_append_dropWhile (p := (· == '\t')) (l := line)
    have htabs : ∀ d ∈ line.takeWhile (· == '\t'), d = '\t' := fun d hd => by
      simpa using mem_takeWhile_imp hd
    cases hdrop : line.dropWhile (· == '\t') with
    | nil =>
      -- The line is made of tabs, so that the code point would stand behind it.
      rw [dropWhile_eq_nil_iff] at hdrop
      rw [dropWhile_append_of_pos hdrop] at hc
      cases after with
      | nil => cases hc
      | cons d after =>
        cases hafter d rfl
        cases hc
        cases hblank
    | cons d rest =>
      have hhead : (line ++ after).dropWhile (· == '\t') = d :: (rest ++ after) := by
        rw [dropWhile_append, hdrop]
        rfl
      rw [hhead] at hc
      cases hc
      rw [eq_replicate_of_mem htabs, hdrop] at hsplit
      exact .inr ⟨_, c, rest, hsplit.symm, hblank⟩

namespace Format

/-- Formatting lays out every line. A line of the formatted text that does not start inside a
literal is empty, or has nothing but tabs before its first code point that is not blank; and a space
or tab at the end of a line is in a literal. -/
theorem canonical_layout [Host] (file : String) (text : List Char) :
    ∃ formatted, canonical Vocabulary.standard file text = .ok formatted ∧
      ∀ start line, LineAt formatted.text start line →
        ((¬ ∃ span ∈ scan formatted.text, span.start < start ∧ start < span.stop) →
          IsIndented line) ∧
        ∀ init c, line = init ++ [c] → isPad c = true →
          ∃ span ∈ scan formatted.text,
            span.start ≤ start + init.length ∧ start + init.length < span.stop := by
  obtain ⟨parted, -, hpasses⟩ := runPasses_finish (normalizeNewlines text)
  obtain ⟨formatted, hformatted, htext⟩ := canonical_of_runPasses hpasses file
  refine ⟨formatted, hformatted, ?_⟩
  obtain ⟨cells, hcells, hmarked, htrimmed, htidy⟩ := finish_laidOut (Spacing.padComments parted)
  rw [htext, ← hcells, hmarked.scan_eq]
  rintro start line ⟨before, after, hsplit, rfl, hline, hbefore, hafter⟩
  obtain ⟨left, rest, rfl, rfl, hrest⟩ := chars_eq_append hsplit
  obtain ⟨middle, right, rfl, rfl, rfl⟩ := chars_eq_append hrest
  rw [length_chars]
  refine ⟨fun hnone => ?_, ?_⟩
  · have hstarts : StartsLine left := fun c hc => hbefore c (by rwa [head?_reverse])
    have hhead : ∀ cell ∈ (middle ++ right).head?, cell.isInside = false := fun cell hcell =>
      Bool.eq_false_iff.mpr fun hinside => hnone (hmarked.exists_span_of_inside hcell hinside)
    have := htidy left (middle ++ right) rfl hstarts hhead
    rw [chars_append] at this
    exact this.isIndented hline hafter
  · intro init c hinit hpad
    obtain ⟨first, last, rfl, rfl, hlast⟩ := chars_eq_append hinit
    obtain ⟨cell, rfl, rfl⟩ := map_eq_singleton_iff.mp hlast
    have hat : (left ++ (first ++ [cell] ++ right))[left.length + first.length]? = some cell := by
      simp
    rw [length_chars, hmarked.covered_iff_role hat]
    intro hcode
    simp only [append_assoc, singleton_append] at htrimmed
    exact (trimmed_cons.mp htrimmed.of_append.of_append).1 hcode hpad hafter

end Format

end StructuredText
