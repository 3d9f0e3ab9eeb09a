import Mathlib.Data.List.Chain
import StructuredText.Proofs.Preservation

/-!
# Blanks at the ends of lines

A text is trimmed if no space or tab of its code ends a line. Spacing trims every text, and the
rules that run later keep it trimmed.

Results:
1. `Marked.code_or_not_code`: blanks in a row are all code or all in a literal.
2. `Spacing.trimLineEnds_trimmed`: trimming the ends of lines leaves no space or tab there.
3. `Spacing.tightenColons_trimmed`, `LineBreak.reduceBlankLines_trimmed`: later rules put none
   there.
-/

namespace StructuredText

open List Literal

variable {rest cells out : List Cell} {c : Char} {text : List Char}
  {hit : List Char → List Char → List Char → Prop}

/-- The text, when its literals are marked, has the property `inv`. -/
def MarkedAs (inv : List Cell → Prop) (text : List Char) : Prop :=
  ∃ cells, chars cells = text ∧ Marked recognize [] cells ∧ inv cells

theorem MarkedAs.and {inv inv' : List Cell → Prop} (h : MarkedAs inv text)
    (h' : MarkedAs inv' text) : MarkedAs (fun cells => inv cells ∧ inv' cells) text := by
  obtain ⟨cells, hcells, hmarked, hinv⟩ := h
  obtain ⟨cells', hcells', hmarked', hinv'⟩ := h'
  obtain rfl := hmarked.unique hmarked' (hcells.trans hcells'.symm)
  exact ⟨cells, hcells, hmarked, hinv, hinv'⟩

/-! ## Blanks in literals and in code -/

/-- No literal opens with a blank. -/
theorem Marked.isBlank_of_opening {before : List Char} {first rest : List Cell} {c : Char}
    {kind : Kind} (h : Marked recognize before (first ++ ⟨c, .opening kind⟩ :: rest)) :
    isBlank c = false := by
  have hopening := h.of_append rfl (by simp [Cell.isInside])
  generalize hcells : (⟨c, .opening kind⟩ :: rest : List Cell) = cells at hopening
  cases hopening with
  | nil | code _ _ => cases hcells
  | literal hfind _ =>
    cases hcells
    by_contra hblank
    rw [Bool.not_eq_false] at hblank
    rw [recognize, literalAt_eq_none_iff.mpr (opensLiteral_of_isBlank hblank _)] at hfind
    cases hfind

/-- Blanks in a row are all code or all in a literal. -/
theorem Marked.code_or_not_code {before : List Char} {first block : List Cell}
    (h : Marked recognize before (first ++ (block ++ rest)))
    (hblank : ∀ c ∈ chars block, isBlank c = true) :
    (∀ cell ∈ block, cell.role = .code) ∨ ∀ cell ∈ block, cell.role ≠ .code := by
  induction block using List.reverseRecOn generalizing rest with
  | nil => exact .inl (by simp)
  | append_singleton init cell ih =>
    obtain ⟨c, role⟩ := cell
    have hinit : ∀ d ∈ chars init, isBlank d = true := fun d hd =>
      hblank d (by rw [chars_append]; exact mem_append_left _ hd)
    cases role with
    | code =>
      have hcode := h.codeCells_of_last hblank (by simp)
      rw [hcode]
      exact .inl fun _ => role_of_mem_codeCells
    | opening kind =>
      simp only [append_assoc, singleton_append] at h
      rw [← append_assoc] at h
      have := h.isBlank_of_opening
      rw [hblank c (by simp)] at this
      cases this
    | inside kind =>
      simp only [append_assoc, singleton_append] at h
      -- Before a cell inside a literal stands a cell of that literal.
      have hnone : ∀ other ∈ init, other.role ≠ .code := by
        rcases ih h hinit with hcode | hnone
        · rcases eq_nil_or_concat init with rfl | ⟨init, last, rfl⟩
          · simp
          rw [← append_assoc] at h
          obtain ⟨d, role, hlast, hrole⟩ := h.getLast?_of_inside rfl
          rw [concat_eq_append, ← append_assoc, getLast?_concat] at hlast
          cases hlast
          obtain rfl : role = .code := hcode ⟨d, role⟩ (by simp)
          simp at hrole
        · exact hnone
      refine .inr fun other hother => ?_
      rcases mem_append.mp hother with hother | hother
      · exact hnone other hother
      · rw [mem_singleton.mp hother]
        exact nofun

/-! ## Trimmed texts -/

/-- A line feed of the code. -/
def feed : Cell :=
  ⟨'\n', .code⟩

/-- `first` is no space or tab of the code at the end of a line. -/
def Fits (first second : Cell) : Prop :=
  first.role = .code → isPad first.char = true → second.char ≠ '\n'

/-- No space or tab of the code ends a line. -/
def Trimmed (cells : List Cell) : Prop :=
  (cells ++ [feed]).IsChain Fits

theorem trimmed_cons {cell : Cell} :
    Trimmed (cell :: rest) ↔
      (cell.role = .code → isPad cell.char = true → ¬ EndsLine (chars rest)) ∧ Trimmed rest := by
  rw [Trimmed, cons_append, isChain_cons]
  refine and_congr_left fun _ => ?_
  cases rest with
  | nil => simp [Fits, feed, EndsLine]
  | cons next rest => simp [Fits, EndsLine]

/-- Cells of which none is a space or tab of the code fit before all others. -/
theorem isChain_append_of_isPad {block : List Cell} (h : rest.IsChain Fits)
    (hblock : ∀ cell ∈ block, cell.role = .code → isPad cell.char = false) :
    (block ++ rest).IsChain Fits := by
  induction block with
  | nil => exact h
  | cons cell block ih =>
    refine isChain_cons.mpr ⟨fun _ _ hcode hpad => ?_,
      ih fun other hother => hblock other (mem_cons_of_mem _ hother)⟩
    rw [hblock cell mem_cons_self hcode] at hpad
    cases hpad

theorem Trimmed.append {block rest : List Cell} (h : Trimmed rest)
    (hblock : ∀ cell ∈ block, cell.role = .code → isPad cell.char = false) :
    Trimmed (block ++ rest) := by
  rw [Trimmed, append_assoc]
  exact isChain_append_of_isPad h hblock

theorem Trimmed.of_append {block rest : List Cell} (h : Trimmed (block ++ rest)) :
    Trimmed rest := by
  rw [Trimmed, append_assoc] at h
  exact h.right_of_append

/-- The text does not end in a space or tab of the code. -/
def EndsBare (left : List Cell) : Prop :=
  ∀ cell ∈ left.getLast?, cell.role = .code → isPad cell.char = false

/-- A line may end where no space or tab stands. -/
theorem Trimmed.insert {left : List Cell} (h : Trimmed (left ++ rest)) (hleft : EndsBare left) :
    Trimmed (left ++ feed :: rest) := by
  rw [Trimmed, append_assoc, isChain_append] at h ⊢
  refine ⟨h.1, isChain_cons.mpr ⟨?_, h.2.1⟩, ?_⟩
  · exact fun _ _ _ hpad => absurd hpad (by decide)
  · intro cell hcell _ _ hcode hpad
    rw [hleft cell hcell hcode] at hpad
    cases hpad

theorem isPad_of_codeCells {written : List Char} (h : ∀ c ∈ written, isPad c = false) :
    ∀ cell ∈ codeCells written, cell.role = .code → isPad cell.char = false := by
  intro cell hcell _
  obtain ⟨c, hc, rfl⟩ := mem_map.mp hcell
  exact h c hc

/-! ## Trimming -/

theorem atLineEnd_iff {cursor : Cursor} : cursor.atLineEnd = true ↔ EndsLine cursor.after := by
  refine ⟨endsLine_of_atLineEnd, fun h => ?_⟩
  unfold Cursor.atLineEnd
  split
  · rfl
  next c rest hafter => exact beq_iff_eq.mpr (h c (by rw [hafter]; rfl))

/-- Nothing but spaces and tabs stands before the end of the line. -/
def PadsEndLine (text : List Char) : Prop :=
  EndsLine (text.dropWhile isPad)

theorem EndsLine.padsEndLine (h : EndsLine text) : PadsEndLine text := by
  cases text with
  | nil => exact h
  | cons c rest =>
    rw [PadsEndLine, dropWhile_cons_of_neg]
    · exact h
    · rw [h c rfl]
      decide

theorem padsEndLine_cons {rest : List Char} (hc : isPad c = true) :
    PadsEndLine (c :: rest) ↔ PadsEndLine rest := by
  rw [PadsEndLine, dropWhile_cons_of_pos hc, PadsEndLine]

theorem padsEndLine_append {pads rest : List Char} (hpads : ∀ c ∈ pads, isPad c = true) :
    PadsEndLine (pads ++ rest) ↔ PadsEndLine rest := by
  rw [PadsEndLine, dropWhile_append_of_pos hpads, PadsEndLine]

theorem padsEndLine_cons_congr {rest rest' : List Char} (hc : isPad c = false) :
    PadsEndLine (c :: rest) ↔ PadsEndLine (c :: rest') := by
  have hneg : ¬ isPad c = true := by simp [hc]
  rw [PadsEndLine, PadsEndLine, dropWhile_cons_of_neg hneg, dropWhile_cons_of_neg hneg,
    EndsLine, EndsLine, head?_cons, head?_cons]

/-- Where the rule reads nothing, spaces and tabs do not end a line. -/
theorem Spacing.not_padsEndLine_of_lineEnd {cursor : Cursor} {rest : List Char}
    (h : lineEnd cursor = none) (hafter : cursor.after = c :: rest) (hc : isPad c = true) :
    ¬ PadsEndLine rest := by
  intro hends
  obtain ⟨stop, hrun⟩ : ∃ stop, cursor.someRun isPad = some stop := by
    simp [Cursor.someRun, Cursor.next, hafter, hc]
  have hstop := (Cursor.reads_someRun hrun).2.2
  rw [hafter, dropWhile_cons_of_pos hc] at hstop
  have hline : stop.atLineEnd = true := by
    rw [atLineEnd_iff, hstop]
    exact hends
  simp [lineEnd, hrun, hline] at h

/-- A walk that drops the spaces and tabs at the ends of lines trims. -/
theorem Rewrites.trimmed {before : List Char}
    (h : Rewrites (.ofReader Spacing.lineEnd) id before cells out) :
    ∀ first, Marked recognize [] (first ++ cells) →
      Trimmed out ∧ (PadsEndLine (chars out) → PadsEndLine (chars cells)) := by
  induction h with
  | nil => exact fun _ _ => ⟨isChain_singleton _, id⟩
  | @miss before cell rest out hfind _ ih =>
    intro first hmarked
    obtain ⟨htrimmed, hends⟩ := ih (first ++ [cell]) (by simpa using hmarked)
    by_cases hpad : isPad cell.char = true
    · have hread := Option.map_eq_none_iff.mp hfind
      have hnot := Spacing.not_padsEndLine_of_lineEnd hread rfl hpad
      refine ⟨trimmed_cons.mpr ⟨fun _ _ hline => hnot (hends hline.padsEndLine), htrimmed⟩, ?_⟩
      rw [chars_cons, chars_cons, padsEndLine_cons hpad, padsEndLine_cons hpad]
      exact hends
    · refine ⟨trimmed_cons.mpr ⟨fun _ hpad' => absurd hpad' hpad, htrimmed⟩, ?_⟩
      exact (padsEndLine_cons_congr (Bool.eq_false_iff.mpr hpad)).mp
  | @blocked before block rest out value hfind hnot _ ih =>
    intro first hmarked
    obtain ⟨hpads, hline, -⟩ := Spacing.lineEnd_spec.holds
      (hfind.trans (by rw [length_chars]))
    obtain ⟨htrimmed, -⟩ := ih (first ++ block) (by simpa using hmarked)
    -- With one code point in a literal, all spaces and tabs are in it.
    have hnone : ∀ cell ∈ block, cell.role ≠ .code := by
      rcases hmarked.code_or_not_code fun c hc => isBlank_of_isPad (hpads c hc) with hcode | hnone
      · obtain ⟨cell, hcell, hrole⟩ := hnot
        exact absurd (hcode cell hcell) hrole
      · exact hnone
    refine ⟨htrimmed.append fun cell hcell hcode => absurd hcode (hnone cell hcell), fun _ => ?_⟩
    rw [chars_append, padsEndLine_append hpads]
    exact hline.padsEndLine
  | @hit before block rest out value hfind _ _ _ ih =>
    intro first hmarked
    obtain ⟨hpads, hline, hwritten⟩ := Spacing.lineEnd_spec.holds
      (hfind.trans (by rw [length_chars]))
    obtain ⟨htrimmed, -⟩ := ih (first ++ block) (by simpa using hmarked)
    rw [id, hwritten, codeCells_nil, nil_append]
    refine ⟨htrimmed, fun _ => ?_⟩
    rw [chars_append, padsEndLine_append hpads]
    exact hline.padsEndLine

/-- Applying a rule is a walk over the cells. -/
theorem Rule.apply_rewrites {rule : Rule} (spec : rule.Spec hit) (h : Marked recognize [] cells) :
    ∃ out, Rewrites (.ofReader rule) id [] cells out ∧ rule.apply (chars cells) = chars out := by
  rw [Rule.apply, h.scan_eq]
  exact replaceOutside_rewrites spec.isProper h id

/-- Patches made of moves leave every string and comment where it is. -/
theorem Patched.marked (h : Patched hit cells out) (licence : Licence)
    (hmoves : Respaces licence (fun _ => True) [] hit) (hmarked : Marked recognize [] cells) :
    Marked recognize [] out :=
  (h.respacing_all hmoves).marked hmarked

/-- Trimming the ends of lines leaves no space or tab there. -/
theorem Spacing.trimLineEnds_trimmed (text : List Char) : MarkedAs Trimmed (trimLineEnds text) := by
  obtain ⟨cells, rfl, hmarked⟩ := exists_marked_recognize text
  obtain ⟨out, hwalk, hout⟩ := Rule.apply_rewrites lineEnd_spec hmarked
  have hpatched := hwalk.patched (fun _ _ _ _ => lineEnd_spec.holds) [] hmarked
  exact ⟨out, hout.symm, hpatched.marked .strict dropsPads_respaces hmarked,
    (hwalk.trimmed [] hmarked).1⟩

/-! ## Rules on trimmed texts -/

/-- A replacement by a text without spaces and tabs that starts no earlier with a line feed. -/
def KeepsTrimmed (hit : List Char → List Char → List Char → Prop) : Prop :=
  ∀ block rest written, block ≠ [] → hit block rest written → (∀ c ∈ written, isPad c = false) ∧
    ∃ c, written.head? = some c ∧ (c = '\n' → block.head? = some '\n')

theorem Patched.trimmed (hhit : KeepsTrimmed hit) (h : Patched hit cells out)
    (htrimmed : Trimmed cells) :
    Trimmed out ∧ (EndsLine (chars out) → EndsLine (chars cells)) := by
  induction h with
  | nil => exact ⟨htrimmed, id⟩
  | keep cell _ ih =>
    obtain ⟨hfits, hrest⟩ := trimmed_cons.mp htrimmed
    obtain ⟨hout, hends⟩ := ih hrest
    refine ⟨trimmed_cons.mpr ⟨fun hcode hpad hline => hfits hcode hpad (hends hline), hout⟩, ?_⟩
    exact fun hline c hc => hline c hc
  | @change block written rest out hne _ hchange _ ih =>
    obtain ⟨hpads, c, hc, hfirst⟩ := hhit _ _ _ hne hchange
    refine ⟨(ih htrimmed.of_append).1.append (isPad_of_codeCells hpads), fun hline => ?_⟩
    obtain ⟨tail, rfl⟩ := head?_eq_some_iff.mp hc
    have hfeed : c = '\n' := hline c (by simp)
    obtain ⟨tail', hblock⟩ := head?_eq_some_iff.mp (hfirst hfeed)
    intro d hd
    rw [hblock] at hd
    cases hd
    rfl

theorem closesBefore_keepsTrimmed {sign : Char} (hpad : isPad sign = false) (hfeed : sign ≠ '\n') :
    KeepsTrimmed (ClosesBefore sign) := by
  rintro block rest written - ⟨gap, -, -, -, rfl⟩
  exact ⟨by simpa using hpad, sign, rfl, fun h => absurd h hfeed⟩

namespace Spacing

/-- What takes out blanks before colons puts no blank at the end of a line. -/
theorem tightenColons_trimmed (h : MarkedAs Trimmed text) :
    MarkedAs Trimmed (tightenColons text) := by
  obtain ⟨cells, rfl, hmarked, htrimmed⟩ := h
  obtain ⟨middle, hmiddle, hpatched⟩ := Rule.applyTyped_patched_untype beforeColon_spec hmarked
  have htrimmed' := (hpatched.trimmed (fun block rest written hne hhit =>
    closesBefore_keepsTrimmed (by decide) (by decide) block rest written hne hhit.1) htrimmed).1
  have hmarked' := hpatched.marked .closing (fun block rest written hne hhit =>
    closesBefore_respaces rfl block rest written hne hhit.1) hmarked
  obtain ⟨out, hout, hpatched'⟩ := Rule.apply_patched finalSemicolon_spec hmarked'
  refine ⟨out, ?_, ?_, ?_⟩
  · rw [tightenColons, hmiddle, hout]
  · exact hpatched'.marked .strict finalSemicolon_respaces hmarked'
  · refine (hpatched'.trimmed ?_ htrimmed').1
    rintro block rest written - ⟨-, rfl, -⟩
    exact ⟨by decide, ';', rfl, fun h => absurd h (by decide)⟩

end Spacing

/-- In a trimmed text, no spaces and tabs can go from the ends of lines. -/
theorem Patched.eq_of_trimmed (h : Patched DropsPads cells out) (htrimmed : Trimmed cells) :
    out = cells := by
  induction h with
  | nil => rfl
  | keep cell _ ih => rw [ih (trimmed_cons.mp htrimmed).2]
  | @change block written rest out hne _ hhit _ _ =>
    obtain ⟨hpads, hline, -⟩ := hhit
    obtain ⟨init, c, rfl⟩ := (eq_nil_or_concat block).resolve_left hne
    rw [concat_eq_append, codeCells_append, append_assoc] at htrimmed
    exact absurd hline ((trimmed_cons.mp htrimmed.of_append).1 rfl (hpads c (by simp)))

namespace LineBreak

theorem blankLine_eq_of_trimmed (h : MarkedAs Trimmed text) : blankLine.apply text = text := by
  obtain ⟨cells, rfl, hmarked, htrimmed⟩ := h
  obtain ⟨out, hout, hpatched⟩ := Rule.apply_patched blankLine_spec hmarked
  rw [hout, hpatched.eq_of_trimmed htrimmed]

/-- Fewer blank lines put no blank at the end of a line. -/
theorem reduceBlankLines_trimmed (h : MarkedAs Trimmed text) :
    MarkedAs Trimmed (reduceBlankLines text) := by
  rw [reduceBlankLines, blankLine_eq_of_trimmed h]
  obtain ⟨cells, rfl, hmarked, htrimmed⟩ := h
  obtain ⟨out, hout, hpatched⟩ := Rule.apply_patched lineFeeds_spec hmarked
  refine ⟨out, hout.symm, ?_, ?_⟩
  · exact hpatched.marked .strict lineFeeds_respaces hmarked
  · refine (hpatched.trimmed ?_ htrimmed).1
    rintro block rest written hne ⟨hfeeds, -, -, rfl⟩
    obtain ⟨c, block, rfl⟩ := exists_cons_of_ne_nil hne
    exact ⟨by decide, '\n', rfl, fun _ => congrArg some (hfeeds c mem_cons_self)⟩

end LineBreak

end StructuredText
