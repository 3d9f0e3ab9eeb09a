import StructuredText.Document
import StructuredText.Proofs.Rewriting
import StructuredText.Proofs.Totality

/-!
# Edits that replace a whole document

The range of a document is found between its line breaks as they are given, while formatting starts
by writing all of them as line feeds. Both see the same lines. So the range ends where the document
ends, and an editor that makes the edit is left with the formatted text and nothing else.

Results:
1. `linesOf_eq`: the lines between line breaks are those of the normalised text.
2. `replaceAll_replaceAll`: normalising line breaks is two replacements, one after the other.
3. `offset?_last_range`: the range of a document ends at its end.
4. `edits_replace`: what becomes of a document when its edit is made.
-/

namespace StructuredText

open List

theorem of_mem_lines {text line : List Char} {c : Char} (hline : line ∈ lines text)
    (hc : c ∈ line) : c ≠ '\n' ∧ c ∈ text := by
  induction text generalizing line with
  | nil =>
    rw [mem_singleton.mp hline] at hc
    cases hc
  | cons d rest ih =>
    by_cases hd : d = '\n'
    · rw [lines, if_pos hd] at hline
      rcases mem_cons.mp hline with rfl | hline
      · cases hc
      · exact (ih hline hc).imp_right (mem_cons_of_mem d)
    · obtain ⟨head, others, hlines⟩ := exists_cons_of_ne_nil (lines_ne_nil rest)
      rw [lines_cons hd, hlines] at hline
      rw [hlines] at ih
      rcases mem_cons.mp hline with rfl | hline
      · rcases mem_cons.mp hc with rfl | hc
        · exact ⟨hd, mem_cons_self⟩
        · exact (ih mem_cons_self hc).imp_right (mem_cons_of_mem d)
      · exact (ih (mem_cons_of_mem _ hline) hc).imp_right (mem_cons_of_mem d)

/-! ## One replacement after the other -/

/-- Writes `new` for each `old` from left to right, in a text whose next `skip` code points belong
to one that is written already. -/
def replaceFrom (old new : List Char) (skip : Nat) : List Char → List Char
  | [] => []
  | c :: rest =>
      match skip with
      | k + 1 => replaceFrom old new k rest
      | 0 =>
          if old.isPrefixOf (c :: rest) then new ++ replaceFrom old new (old.length - 1) rest
          else c :: replaceFrom old new 0 rest

/-- Writes `new` for each `old` of a text. -/
def replaceAll (old new text : List Char) : List Char :=
  replaceFrom old new 0 text

theorem replaceAll_char (old new : Char) (text : List Char) :
    replaceAll [old] [new] text = text.map fun c => if c = old then new else c := by
  rw [replaceAll]
  induction text with
  | nil => rfl
  | cons c rest ih =>
    by_cases hc : c = old
    · simp [replaceFrom, hc, ih]
    · simp [replaceFrom, hc, Ne.symm hc, ih]

/-- Line breaks are normalised by writing first the pairs and then what is left as line feeds. -/
theorem replaceAll_replaceAll (text : List Char) :
    replaceAll ['\r'] ['\n'] (replaceAll ['\r', '\n'] ['\n'] text) = normalizeNewlines text := by
  rw [replaceAll_char, replaceAll]
  fun_induction normalizeNewlines text with
  | case1 => rfl
  | case2 rest ih => simp [replaceFrom, ih]
  | case3 c rest hpair ih =>
    have hprefix : ['\r', '\n'].isPrefixOf (c :: rest) = false := by
      cases rest with
      | nil => simp [List.isPrefixOf]
      | cons d rest =>
        have hne : ¬ (c = '\r' ∧ d = '\n') := fun h => hpair rest h.1 (by rw [h.2])
        simpa [List.isPrefixOf] using fun hc hd => hne ⟨hc.symm, hd.symm⟩
    rw [replaceFrom, hprefix, if_neg Bool.false_ne_true, map_cons, ih]

/-- A line break of one code point is written as a line feed. -/
theorem feed_of_break {c : Char} (hc : c = '\r' ∨ c = '\n') :
    (if c = '\r' then '\n' else c) = '\n' := by
  rcases hc with rfl | rfl <;> rfl

namespace Document

/-! ## Lines between line breaks -/

section

variable {pos : Nat} {before rest : List Char} {c : Char}

theorem breakAt_pair : breakAt false ⟨pos, before, '\r' :: '\n' :: rest⟩ = some (2, ()) := by
  have hpos : pos + 1 + 1 - pos = 2 := by omega
  simp [breakAt, Recognizer.ofReader, lineBreak, Cursor.token, Cursor.char, Cursor.next, hpos]

theorem breakAt_single (hc : c = '\r' ∨ c = '\n')
    (hpair : ∀ later, c = '\r' → rest = '\n' :: later → False) :
    breakAt false ⟨pos, before, c :: rest⟩ = some (1, ()) := by
  have hhead : ¬ (c = '\r' ∧ rest.head? = some '\n') := by
    rintro ⟨hc, hhead⟩
    obtain ⟨later, rfl⟩ := head?_eq_some_iff.mp hhead
    exact hpair later hc rfl
  rcases hc with rfl | rfl <;> cases rest <;>
    simp_all [breakAt, Recognizer.ofReader, lineBreak, Cursor.token, Cursor.char, Cursor.next]

theorem breakAt_plain (hc : ¬ (c = '\r' ∨ c = '\n')) :
    breakAt false ⟨pos, before, c :: rest⟩ = none := by
  rw [not_or] at hc
  simp [breakAt, Recognizer.ofReader, lineBreak, Cursor.token, Cursor.char, Cursor.next, hc.1, hc.2]

end

variable {α : Type} {pos : Nat} {rest text : List Char}

/-- A code point before all occurrences belongs to the first piece. -/
theorem piecesFrom_cons {found : List (Occurrence α)}
    (h : ∀ other ∈ found, pos + 1 ≤ other.start ∧ other.start ≤ other.stop) (c : Char)
    (rest : List Char) :
    piecesFrom pos found (c :: rest) = (piecesFrom (pos + 1) found rest).modifyHead (c :: ·) := by
  cases found with
  | nil => rfl
  | cons other later =>
    obtain ⟨hstart, hstop⟩ := h other mem_cons_self
    have htake : other.start - pos = other.start - (pos + 1) + 1 := by omega
    have hdrop : other.stop - pos = other.stop - (pos + 1) + 1 := by omega
    rw [piecesFrom, piecesFrom, htake, hdrop, take_succ_cons, drop_succ_cons]
    rfl

/-- What is found at the start has an empty piece before it. -/
theorem piecesFrom_found {find : Recognizer α} {before block : List Char} {value : α}
    (hblock : block ≠ [])
    (h : find false ⟨pos, before, block ++ rest⟩ = some (block.length, value)) :
    piecesFrom pos (occurrencesFrom find pos 0 before (block ++ rest)) (block ++ rest) =
      [] :: piecesFrom (pos + block.length) (occurrencesFrom find (pos + block.length) 0
        (block.reverse ++ before) rest) rest := by
  rw [occurrencesFrom_found hblock h]
  simp [piecesFrom]

/-- Between line breaks stand the lines of the normalised text. -/
theorem piecesFrom_breaks (text : List Char) : ∀ pos before,
    piecesFrom pos (occurrencesFrom breakAt pos 0 before text) text =
      lines (normalizeNewlines text) := by
  fun_induction normalizeNewlines text with
  | case1 => exact fun _ _ => rfl
  | case2 rest ih =>
    intro pos before
    have hfound := piecesFrom_found (cons_ne_nil '\r' ['\n']) (@breakAt_pair pos before rest)
    rw [ih] at hfound
    exact hfound
  | case3 c rest hpair ih =>
    intro pos before
    by_cases hc : c = '\r' ∨ c = '\n'
    · have hfound := piecesFrom_found (cons_ne_nil c [])
        (@breakAt_single pos before rest c hc hpair)
      rw [ih] at hfound
      rw [feed_of_break hc]
      exact hfound
    · rw [occurrencesFrom_miss (breakAt_plain hc),
        piecesFrom_cons (le_start_of_mem_occurrencesFrom _ _ _), ih]
      rw [not_or] at hc
      rw [if_neg hc.1, lines_cons hc.2]

theorem linesOf_eq (text : List Char) : linesOf text = lines (normalizeNewlines text) :=
  piecesFrom_breaks text 0 []

/-! ## Positions -/

/-- What stands behind the first line break of a text. -/
def behindBreak : List Char → Option (List Char)
  | [] => none
  | '\r' :: '\n' :: rest => some rest
  | c :: rest => if c = '\r' ∨ c = '\n' then some rest else behindBreak rest

/-- A text from the start of one of its lines on. -/
def fromLine (text : List Char) : Nat → Option (List Char)
  | 0 => some text
  | line + 1 => (behindBreak text).bind (fromLine · line)

/-- The offset of a position in a text, if the text has that line and the line is long enough. -/
def Position.offset? (position : Position) (text : List Char) : Option Nat :=
  (fromLine text position.line).bind fun rest =>
    if position.character ≤ (rest.takeWhile fun c => c ≠ '\r' ∧ c ≠ '\n').length then
      some (text.length - rest.length + position.character)
    else none

/-- A text with the replacement made, if the text has the range. -/
def Replacement.result? (replacement : Replacement) (text : List Char) : Option (List Char) :=
  (replacement.range.first.offset? text).bind fun start =>
    (replacement.range.last.offset? text).map fun stop =>
      applyEdits [⟨start, stop, replacement.text⟩] text

/-- Behind the last line break of a text stands the last of its lines. -/
theorem fromLine_last (text : List Char) :
    fromLine text ((lines (normalizeNewlines text)).length - 1) =
      (lines (normalizeNewlines text)).getLast? := by
  fun_induction normalizeNewlines text with
  | case1 => rfl
  | case2 rest ih =>
    obtain ⟨line, others, hlines⟩ :=
      exists_cons_of_ne_nil (lines_ne_nil (normalizeNewlines rest))
    rw [lines, if_pos rfl]
    rw [hlines] at ih ⊢
    exact ih
  | case3 c rest hpair ih =>
    obtain ⟨line, others, hlines⟩ :=
      exists_cons_of_ne_nil (lines_ne_nil (normalizeNewlines rest))
    by_cases hc : c = '\r' ∨ c = '\n'
    · have hbehind : behindBreak (c :: rest) = some rest := by
        rw [behindBreak, if_pos hc]
        exact hpair
      rw [feed_of_break hc, lines, if_pos rfl]
      rw [hlines] at ih ⊢
      exact (congrArg (·.bind (fromLine · others.length)) hbehind).trans ih
    · have hbehind : behindBreak (c :: rest) = behindBreak rest := by
        rw [behindBreak, if_neg hc]
        exact hpair
      rw [not_or] at hc
      rw [if_neg hc.1, lines_cons hc.2]
      rw [hlines] at ih ⊢
      cases others with
      | nil => exact congrArg (·.map (c :: ·)) ih
      | cons other others =>
        exact (congrArg (·.bind (fromLine · others.length)) hbehind).trans ih

theorem length_behindBreak (h : behindBreak text = some rest) :
    rest.length ≤ text.length := by
  fun_induction behindBreak text with
  | case1 => cases h
  | case2 =>
    cases h
    exact Nat.le_add_right _ 2
  | case3 =>
    cases h
    exact Nat.le_succ _
  | case4 _ _ _ _ ih => exact Nat.le_succ_of_le (ih h)

theorem length_fromLine {line : Nat} (h : fromLine text line = some rest) :
    rest.length ≤ text.length := by
  induction line generalizing text with
  | zero =>
    cases h
    exact Nat.le_refl _
  | succ line ih =>
    obtain ⟨later, hlater, hrest⟩ := Option.bind_eq_some_iff.mp h
    exact Nat.le_trans (ih hrest) (length_behindBreak hlater)

/-- The range of a document ends at its end. -/
theorem offset?_last_range (text : List Char) :
    (range text).last.offset? text = some text.length := by
  have hlast := getLast?_eq_some_getLast (lines_ne_nil (normalizeNewlines text))
  have hfrom := (fromLine_last text).trans hlast
  have hline : ((lines (normalizeNewlines text)).getLast (lines_ne_nil _)).takeWhile
      (fun c => c ≠ '\r' ∧ c ≠ '\n') = (lines (normalizeNewlines text)).getLast
      (lines_ne_nil _) := by
    rw [takeWhile_eq_self_iff]
    intro c hc
    obtain ⟨hfeed, hmem⟩ := of_mem_lines (getLast_mem _) hc
    have hreturn : c ≠ '\r' := fun heq => cr_not_mem_normalizeNewlines text (heq ▸ hmem)
    exact decide_eq_true ⟨hreturn, hfeed⟩
  simp only [range, linesOf_eq, hlast, Option.getD_some, Position.offset?, hfrom, Option.bind_some,
    hline, Nat.le_refl, if_true, Nat.sub_add_cancel (length_fromLine hfrom)]

/-- The lines of a document do not depend on what its line breaks are, and so its range does not.
The range goes to the end of the document, and making the edit of a visible document leaves its
formatted text, which there always is with the standard vocabulary. -/
theorem edits_replace [Host] (text : List Char) :
    normalizeNewlines text = replaceAll ['\r'] ['\n'] (replaceAll ['\r', '\n'] ['\n'] text) ∧
    linesOf text = lines (normalizeNewlines text) ∧
    range text = range (normalizeNewlines text) ∧
    (range text).last.offset? text = some text.length ∧
    ∀ file,
      (∃ formatted, Format.canonical .standard file (normalizeNewlines text) = .ok formatted) ∧
      ∀ vocabulary formatted,
        Format.canonical vocabulary file (normalizeNewlines text) = .ok formatted →
        ∃ edit, edits true vocabulary file text = .ok ⟨[edit], formatted.notices⟩ ∧
          edit.range = range text ∧ edit.result? text = some formatted.text := by
  obtain ⟨hvalid, hjoinable⟩ := Vocabulary.standard_isValid
  refine ⟨(replaceAll_replaceAll text).symm, linesOf_eq text, ?_, offset?_last_range text, ?_⟩
  · rw [range, range, linesOf_eq, linesOf_eq, normalizeNewlines_normalizeNewlines]
  · intro file
    refine ⟨(Format.canonical_eq_ok_iff hvalid file _).mpr hjoinable, ?_⟩
    intro vocabulary formatted hformatted
    rw [Format.canonical, normalizeNewlines_normalizeNewlines, ← Format.canonical] at hformatted
    refine ⟨⟨range text, formatted.text⟩, ?_, rfl, ?_⟩
    · rw [edits, if_pos rfl, hformatted]
      rfl
    · have hfirst : (range text).first.offset? text = some 0 := by
        simp [range, Position.offset?, fromLine]
      simp [Replacement.result?, hfirst, offset?_last_range, applyEdits, applyEditsFrom]

/-- A carriage return before a pair is a line break of its own, and so is a line feed behind one. -/
theorem edits_replace_mixed :
    linesOf ['a', '\r', '\r', '\n', '\n', '\r', 'b'] = [['a'], [], [], [], ['b']] ∧
    ∃ formatted edit,
      @Format.canonical Host.plain .standard "" ['a', '\n', '\n', '\n', '\n', 'b'] =
        .ok formatted ∧
      @edits Host.plain true .standard "" ['a', '\r', '\r', '\n', '\n', '\r', 'b'] =
        .ok ⟨[edit], formatted.notices⟩ ∧
      edit.range = ⟨⟨0, 0⟩, ⟨4, 1⟩⟩ ∧
      edit.result? ['a', '\r', '\r', '\n', '\n', '\r', 'b'] = some formatted.text := by
  obtain ⟨-, -, -, -, hedits⟩ :=
    @edits_replace Host.plain ['a', '\r', '\r', '\n', '\n', '\r', 'b']
  obtain ⟨formatted, hformatted⟩ := (hedits "").1
  obtain ⟨edit, hok, hrange, happly⟩ := (hedits "").2 _ _ hformatted
  exact ⟨by decide, formatted, edit, hformatted, hok, hrange.trans (by decide), happly⟩

end Document

end StructuredText
