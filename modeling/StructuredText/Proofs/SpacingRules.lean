import StructuredText.Proofs.Patching
import StructuredText.Header
import StructuredText.LineBreak
import StructuredText.Spacing

/-!
# The rules on blanks

For each rule on blanks: what it reads and writes, and that its replacements are moves.
-/

namespace StructuredText

open Literal

/-! ## Moves inside a block -/

section Move

variable {licence : Licence} {left right : List Cell} {first gap gap' second : List Char}

/-- A move between two parts of a block. -/
theorem Move.between (hgap : ∀ c ∈ gap, isBlank c = true)
    (hgap' : ∀ c ∈ gap', isLayoutBlank c = true)
    (hright : ∀ cell ∈ right.head?, cell.isInside = false)
    (hopens : gap = [] → gap' ≠ [] →
      Splits licence (left ++ codeCells first) (codeCells second ++ right))
    (hcloses : gap ≠ [] → gap' = [] →
      Joins licence (left ++ codeCells first) (codeCells second ++ right))
    (hline : '\n' ∈ gap →
      '\n' ∈ gap' ∨ endsInLineComment (left ++ codeCells first).reverse = false) :
    Move licence (left ++ codeCells (first ++ gap ++ second) ++ right)
      (left ++ codeCells (first ++ gap' ++ second) ++ right) := by
  have := Move.mk hgap hgap' (head?_codeCells_append hright) hopens hcloses hline
  simpa using this

theorem isBlank_of_isPad {c : Char} (h : isPad c = true) : isBlank c = true := by
  simp only [isPad, Bool.or_eq_true, beq_iff_eq] at h
  rcases h with rfl | rfl <;> decide

theorem lineFeed_not_mem_of_isPad (h : ∀ c ∈ gap, isPad c = true) :
    '\n' ∉ gap :=
  fun hmem => absurd (h _ hmem) (by decide)

end Move

/-! ## What the rules read and write -/

/-- A line ends, or the text does. -/
def EndsLine (rest : List Char) : Prop :=
  ∀ c ∈ rest.head?, c = '\n'

theorem endsLine_of_atLineEnd {cursor : Cursor} (h : cursor.atLineEnd = true) :
    EndsLine cursor.after := by
  unfold Cursor.atLineEnd at h
  split at h
  next hnil =>
    rw [hnil]
    rintro c ⟨⟩
  next c rest hcons =>
    rw [hcons]
    rintro d ⟨⟩
    exact beq_iff_eq.mp h

theorem isPad_of_mem_takeWhile {text : List Char} : ∀ c ∈ text.takeWhile isPad, isPad c = true :=
  fun _ => List.mem_takeWhile_imp

/-- Spaces and tabs that end a line go. -/
def DropsPads (block rest written : List Char) : Prop :=
  (∀ c ∈ block, isPad c = true) ∧ EndsLine rest ∧ written = []

/-- Spaces and tabs before `sign` go. -/
def ClosesBefore (sign : Char) (block _rest written : List Char) : Prop :=
  ∃ gap, block = gap ++ [sign] ∧ gap ≠ [] ∧ (∀ c ∈ gap, isPad c = true) ∧ written = [sign]

namespace Spacing

theorem padRun_spec : padRun.Spec fun block _ written =>
    (∀ c ∈ block, isPad c = true) ∧ written = [' '] := by
  intro cursor stop written h
  obtain ⟨stop', hrun, h⟩ := Option.bind_eq_some_iff.mp h
  split at h
  · cases h
    obtain ⟨hne, hreads, -⟩ := Cursor.reads_someRun hrun
    exact ⟨_, hreads, hne, isPad_of_mem_takeWhile, rfl⟩
  · cases h

theorem lineEnd_spec : lineEnd.Spec DropsPads := by
  intro cursor stop written h
  obtain ⟨stop', hrun, h⟩ := Option.bind_eq_some_iff.mp h
  split at h
  next hend =>
    cases h
    obtain ⟨hne, hreads, -⟩ := Cursor.reads_someRun hrun
    exact ⟨_, hreads, hne, isPad_of_mem_takeWhile, endsLine_of_atLineEnd hend, rfl⟩
  next => cases h

/-- Spaces and tabs, at least one, and then `sign`. -/
theorem reads_pads_char {cursor inside stop : Cursor} {sign : Char}
    (hrun : cursor.someRun isPad = some inside) (hchar : inside.char sign = some stop) :
    ∃ block, cursor.Reads stop block ∧ block ≠ [] ∧ ClosesBefore sign block stop.after [sign] := by
  obtain ⟨hne, hreads, -⟩ := Cursor.reads_someRun hrun
  exact ⟨_, hreads.trans (Cursor.reads_char hchar), by simp, _, rfl, hne,
    isPad_of_mem_takeWhile, rfl⟩

theorem beforeColon_spec : beforeColon.Spec fun block rest written =>
    ClosesBefore ':' block rest written ∧ rest.head? ≠ some '=' := by
  intro cursor stop written h
  obtain ⟨inside, hrun, h⟩ := Option.bind_eq_some_iff.mp h
  obtain ⟨stop', hchar, h⟩ := Option.bind_eq_some_iff.mp h
  split at h
  · cases h
  next hsees =>
    cases h
    obtain ⟨block, hreads, hne, hcloses⟩ := reads_pads_char hrun hchar
    exact ⟨block, hreads, hne, hcloses, by simpa [Cursor.sees] using hsees⟩

theorem beforeComma_spec : beforeComma.Spec (ClosesBefore ',') := by
  intro cursor stop written h
  obtain ⟨inside, hrun, h⟩ := Option.bind_eq_some_iff.mp h
  obtain ⟨stop', hchar, h⟩ := Option.bind_eq_some_iff.mp h
  cases h
  exact reads_pads_char hrun hchar

theorem finalSemicolon_spec : finalSemicolon.Spec fun block rest written =>
    rest = [] ∧ written = [';', '\n'] ∧
      ∃ gap, block = ';' :: gap ∧ (∀ c ∈ gap, isBlank c = true) ∧ 2 ≤ gap.length ∧ '\n' ∈ gap := by
  intro cursor stop written h
  obtain ⟨inside, hchar, h⟩ := Option.bind_eq_some_iff.mp h
  simp only at h
  split at h
  next hcond =>
    cases h
    simp only [Bool.and_eq_true, decide_eq_true_eq, beq_iff_eq] at hcond
    obtain ⟨⟨hend, hlength⟩, hlast⟩ := hcond
    have hchar' := Cursor.reads_char hchar
    have hblanks := Cursor.reads_run isBlank inside
    have hcount : 2 ≤ (inside.after.takeWhile isBlank).length := by
      rw [Cursor.blanks, hblanks.pos] at hlength
      omega
    refine ⟨_, hchar'.trans hblanks, by simp, List.isEmpty_iff.mp hend, rfl,
      inside.after.takeWhile isBlank, rfl, fun _ => List.mem_takeWhile_imp, hcount, ?_⟩
    -- The last blank is a line feed.
    rw [Cursor.blanks, hblanks.before] at hlast
    obtain ⟨c, gap, hgap⟩ := List.exists_cons_of_length_pos
      (show 0 < (inside.after.takeWhile isBlank).reverse.length by rw [List.length_reverse]; omega)
    rw [hgap] at hlast
    cases hlast
    rw [← List.mem_reverse, hgap]
    exact List.mem_cons_self
  next => cases h

theorem openingParenthesis_spec : openingParenthesis.Spec fun block _ written =>
    ∃ word, block = word ++ ['('] ∧ written = word ++ [' ', '('] := by
  intro cursor stop written h
  obtain ⟨behind, hword, h⟩ := Option.bind_eq_some_iff.mp h
  obtain ⟨stop', hchar, h⟩ := Option.bind_eq_some_iff.mp h
  cases h
  obtain ⟨first, hfirst, hone⟩ := Option.bind_eq_some_iff.mp hword
  obtain ⟨rfl, -⟩ := Cursor.reads_boundary hfirst
  obtain ⟨text, -, htext⟩ := Cursor.reads_oneOf hone
  obtain ⟨word, hreads, -⟩ := Cursor.reads_word htext
  exact ⟨_, hreads.trans (Cursor.reads_char hchar), by simp, word, rfl, by rw [hreads.upTo_eq]⟩

theorem closingParenthesis_spec : closingParenthesis.Spec fun block _ written =>
    ∃ word, word ≠ [] ∧ block = ')' :: word ∧ written = ')' :: ' ' :: word := by
  intro cursor stop written h
  obtain ⟨inside, hchar, h⟩ := Option.bind_eq_some_iff.mp h
  obtain ⟨stop', hwhole, h⟩ := Option.bind_eq_some_iff.mp h
  cases h
  obtain ⟨-, -, text, htext, hword⟩ := Cursor.reads_wholeWord hwhole
  obtain ⟨word, hreads, hsame⟩ := Cursor.reads_word hword
  refine ⟨_, (Cursor.reads_char hchar).trans hreads, by simp, word, ?_, rfl,
    by rw [hreads.upTo_eq]; rfl⟩
  rintro rfl
  cases hsame
  revert htext
  decide

/-- An operator with spaces and tabs around it is kept as it is, or put between two spaces. -/
def SpacesOperator (block _rest written : List Char) : Prop :=
  ∃ before sign after, block = before ++ sign ++ after ∧ sign ∈ operators ∧
    (∀ c ∈ before, isPad c = true) ∧ (∀ c ∈ after, isPad c = true) ∧
    (written = block ∨ written = [' '] ++ sign ++ [' '])

theorem operator_spec : operator.Spec SpacesOperator := by
  intro cursor stop written h
  obtain ⟨sign, hsign, h⟩ := Option.bind_eq_some_iff.mp h
  obtain ⟨last, htoken, h⟩ := Option.bind_eq_some_iff.mp h
  have hreads := ((Cursor.reads_run isPad cursor).trans (Cursor.reads_token htoken)).trans
    (Cursor.reads_run isPad last)
  have hmem : sign ∈ operators := List.mem_of_find?_eq_some hsign
  have hne : sign ≠ [] := by
    rintro rfl
    revert hmem
    decide
  simp only at h
  split at h
  all_goals
    cases h
    refine ⟨_, hreads, by simp [hne], _, sign, _, rfl, hmem, isPad_of_mem_takeWhile,
      isPad_of_mem_takeWhile, ?_⟩
  · exact .inl hreads.upTo_eq
  · exact .inr rfl

theorem comma_spec : comma.Spec fun block _ written =>
    written = [',', ' '] ∧ ∃ before after, block = before ++ [','] ++ after ∧
      (∀ c ∈ before, isPad c = true) ∧ ∀ c ∈ after, isPad c = true := by
  intro cursor stop written h
  obtain ⟨inside, hchar, h⟩ := Option.bind_eq_some_iff.mp h
  cases h
  exact ⟨_, ((Cursor.reads_run isPad cursor).trans (Cursor.reads_char hchar)).trans
    (Cursor.reads_run isPad inside), by simp, rfl, _, _, rfl, isPad_of_mem_takeWhile,
    isPad_of_mem_takeWhile⟩

end Spacing

namespace LineBreak

theorem blankLine_spec : blankLine.Spec DropsPads := by
  intro cursor stop written h
  obtain ⟨first, hfirst, hrest⟩ := Option.bind_eq_some_iff.mp h
  obtain ⟨stop', hrun, hrest⟩ := Option.bind_eq_some_iff.mp hrest
  have hcursor : first = cursor := by
    unfold Cursor.ensure at hfirst
    split at hfirst
    · cases hfirst
      rfl
    · cases hfirst
  rw [hcursor] at hrun
  split at hrest
  next hend =>
    cases hrest
    obtain ⟨hne, hreads, -⟩ := Cursor.reads_someRun hrun
    exact ⟨_, hreads, hne, isPad_of_mem_takeWhile, endsLine_of_atLineEnd hend, rfl⟩
  next => cases hrest

/-- All of three or more line feeds in a row, of which two stay. -/
structure ReducesFeeds (block rest written : List Char) : Prop where
  feeds : ∀ c ∈ block, c = '\n'
  length : 3 ≤ block.length
  ends : ∀ c ∈ rest.head?, c ≠ '\n'
  written : written = ['\n', '\n']

theorem lineFeeds_spec : lineFeeds.Spec ReducesFeeds := by
  intro cursor stop written h
  obtain ⟨stop', hrun, h⟩ := Option.bind_eq_some_iff.mp h
  obtain ⟨hne, hreads, hafter⟩ := Cursor.reads_someRun hrun
  split at h
  next hlength =>
    cases h
    refine ⟨_, hreads, hne, fun c hc => ?_, ?_, fun c hc => ?_, rfl⟩
    · simpa using List.mem_takeWhile_imp hc
    · rwa [hreads.pos, Nat.add_sub_cancel_left] at hlength
    · have hnot := List.head?_dropWhile_not (· == '\n') cursor.after
      rw [← hafter, Option.mem_def.mp hc] at hnot
      simpa using hnot
  next => cases h

end LineBreak

theorem Header.blankRun_spec : Header.blankRun.Spec fun block _ written =>
    (∀ c ∈ block, isBlank c = true) ∧ written = [' '] := by
  intro cursor stop written h
  obtain ⟨stop', hrun, h⟩ := Option.bind_eq_some_iff.mp h
  cases h
  obtain ⟨hne, hreads, -⟩ := Cursor.reads_someRun hrun
  exact ⟨_, hreads, hne, fun c hc => List.mem_takeWhile_imp hc, rfl⟩

/-! ## The replacements are moves -/

theorem operators_eq : Spacing.operators =
    [[':', '='], ['<', '>'], ['>', '='], ['<', '='], ['=', '>'], ['*', '*'], ['-'], ['+'], ['/'],
      ['='], [':'], ['*'], ['<'], ['>']] := by
  decide

variable {c d : Char} {left right : List Cell}

/-- The code points that cling to what stands before them. -/
theorem mem_of_cling (h : cling c d = true) :
    (isDigit c = true ∨ c ∈ [':', '<', '>', '=', '*']) ∧ d ∈ [':', '=', '>', '*'] := by
  simp only [cling, operators_eq, Bool.or_eq_true, Bool.and_eq_true, beq_iff_eq,
    List.contains_iff_mem, List.mem_cons, List.cons.injEq, List.not_mem_nil, or_false, and_true,
    reduceCtorEq, and_false] at h
  rcases h with ⟨hc, rfl⟩ | ⟨rfl, rfl⟩ | ⟨rfl, rfl⟩ | ⟨rfl, rfl⟩ | ⟨rfl, rfl⟩ | ⟨rfl,
    rfl⟩ | ⟨rfl, rfl⟩
  · exact ⟨.inl hc, by simp⟩
  all_goals exact ⟨.inr (by simp), by simp⟩

theorem cling_eq_false (hdigit : isDigit c = false) (hsign : c ∉ [':', '<', '>', '=', '*'])
    (d : Char) : cling c d = false := by
  rw [Bool.eq_false_iff]
  intro hcling
  rcases (mem_of_cling hcling).1 with h | h
  · rw [h] at hdigit
    cases hdigit
  · exact hsign h

theorem Splits.of_head {licence : Licence} (hright : (chars right).head? = some d)
    (hword : isWordChar d = false) (hsign : licence.partsSigns = false → d ∉ [':', '=', '>', '*'])
    (htyped : licence.partsTyped = false → isTypedChar d = false) : Splits licence left right where
  code := by
    rintro rfl
    cases hright
  words := by
    intro c _ e he
    rw [hright] at he
    cases he
    exact .inr hword
  signs := by
    intro hparts c _ e he
    rw [hright] at he
    cases he
    rw [Bool.eq_false_iff]
    intro hcling
    exact hsign hparts (mem_of_cling hcling).2
  typed := by
    intro hparts c _ e he
    rw [hright] at he
    cases he
    exact .inr (htyped hparts)

theorem Splits.of_last {licence : Licence} (hleft : left.getLast? = some ⟨c, .code⟩)
    (hword : isWordChar c = false)
    (hsign : licence.partsSigns = false → c ∉ [':', '<', '>', '=', '*'])
    (htyped : licence.partsTyped = false → isTypedChar c = false) :
    Splits licence left right := by
  have hlast : (chars left).getLast? = some c := by
    rw [chars, List.getLast?_map, hleft]
    rfl
  refine ⟨?_, ?_, ?_, ?_⟩
  · intro _ cell hcell
    rw [hleft] at hcell
    cases hcell
    rfl
  · intro e he d _
    rw [hlast] at he
    cases he
    exact .inl hword
  · intro hparts e he d _
    rw [hlast] at he
    cases he
    refine cling_eq_false ?_ (hsign hparts) d
    rw [Bool.eq_false_iff]
    intro hdigit
    rw [isWordChar_of_isDigit hdigit] at hword
    cases hword
  · intro hparts e he d _
    rw [hlast] at he
    cases he
    exact .inl (htyped hparts)

section Respaces

variable {licence : Licence} {known : List Cell → Prop} {tail : List Cell}

theorem Spacing.padRun_respaces : Respaces licence known tail fun block _ written =>
    (∀ c ∈ block, isPad c = true) ∧ written = [' '] := by
  rintro block rest written hne ⟨hpads, rfl⟩ left right - - hright
  exact .single (.mk (fun c hc => isBlank_of_isPad (hpads c hc)) (by decide) hright
    (fun hnil => absurd hnil hne) (fun _ hnil => by cases hnil)
    fun hmem => absurd hmem (lineFeed_not_mem_of_isPad hpads))

theorem dropsPads_respaces : Respaces licence known [] DropsPads := by
  rintro block rest written hne ⟨hpads, hend, rfl⟩ left right - hrest hright
  refine .single (.mk (fun c hc => isBlank_of_isPad (hpads c hc)) (by simp) hright
    (fun hnil => absurd hnil hne) (fun _ _ => .inr ?_)
    fun hmem => absurd hmem (lineFeed_not_mem_of_isPad hpads))
  intro d hd
  rw [hrest, chars_nil, List.append_nil] at hd
  rw [hend d hd]
  exact .inl (by decide)

theorem closesBefore_respaces {sign : Char} (hsign : licence.isSeparator sign = true) :
    Respaces licence known tail (ClosesBefore sign) := by
  rintro block rest written - ⟨gap, rfl, hne, hpads, rfl⟩ left right - - hright
  refine .single (@Move.between licence left right [] gap [] [sign] ?_ (by simp) hright ?_ ?_ ?_)
  · exact fun c hc => isBlank_of_isPad (hpads c hc)
  · exact fun hnil => absurd hnil hne
  · rintro - -
    right
    rintro d ⟨⟩
    exact .inr hsign
  · exact fun hmem => absurd hmem (lineFeed_not_mem_of_isPad hpads)

theorem Spacing.finalSemicolon_respaces : Respaces licence known tail fun block rest written =>
    rest = [] ∧ written = [';', '\n'] ∧
      ∃ gap, block = ';' :: gap ∧ (∀ c ∈ gap, isBlank c = true) ∧ 2 ≤ gap.length ∧ '\n' ∈ gap := by
  rintro block rest written - ⟨rfl, rfl, gap, rfl, hblank, hlength, hline⟩ left right - - hright
  have hne : gap ≠ [] := List.ne_nil_of_mem hline
  have := @Move.between licence left right [';'] gap ['\n'] [] hblank (by decide) hright
    (fun hnil => absurd hnil hne) (fun _ hnil => by cases hnil) (fun _ => .inl (by simp))
  exact .single (by simpa using this)

theorem Spacing.openingParenthesis_respaces : Respaces licence known tail fun block _ written =>
    ∃ word, block = word ++ ['('] ∧ written = word ++ [' ', '('] := by
  rintro block rest written - ⟨word, rfl, rfl⟩ left right - - hright
  have := @Move.between licence left right word [] [' '] ['('] (by simp) (by decide) hright
    (fun _ _ => .of_head rfl (by decide) (fun _ => by decide) fun _ => by decide)
    (fun hne => absurd rfl hne) (by simp)
  exact .single (by simpa using this)

theorem Spacing.closingParenthesis_respaces : Respaces licence known tail fun block _ written =>
    ∃ word, word ≠ [] ∧ block = ')' :: word ∧ written = ')' :: ' ' :: word := by
  rintro block rest written - ⟨word, -, rfl, rfl⟩ left right - - hright
  have := @Move.between licence left right [')'] [] [' '] word (by simp) (by decide) hright
    (fun _ _ => .of_last (c := ')') (by simp) (by decide) (fun _ => by decide) fun _ => by decide)
    (fun hne => absurd rfl hne) (by simp)
  exact .single (by simpa using this)

/-- The signs of operators are in no word. -/
theorem isWordChar_of_mem_operators {sign : List Char} (h : sign ∈ Spacing.operators) :
    ∀ c ∈ sign, isWordChar c = false := by
  revert sign
  decide

theorem Spacing.operator_respaces (hparts : licence.partsSigns = true)
    (htyped : licence.partsTyped = true) : Respaces licence known tail SpacesOperator := by
  rintro block rest written - ⟨before, sign, after, rfl, hsign, hbefore, hafter, hwritten⟩
    left right - - hright
  have hword := isWordChar_of_mem_operators hsign
  have hne : sign ≠ [] := by
    rintro rfl
    revert hsign
    decide
  rcases hwritten with rfl | rfl
  · exact .refl
  -- First the blanks before the sign, then those behind it.
  have hfirst := @Move.between licence left right [] before [' '] (sign ++ after)
    (fun c hc => isBlank_of_isPad (hbefore c hc)) (by decide) hright ?_
    (fun _ hnil => by cases hnil) (fun hmem => absurd hmem (lineFeed_not_mem_of_isPad hbefore))
  · have hsecond := @Move.between licence left right (' ' :: sign) after [' '] []
      (fun c hc => isBlank_of_isPad (hafter c hc)) (by decide) hright ?_
      (fun _ hnil => by cases hnil) (fun hmem => absurd hmem (lineFeed_not_mem_of_isPad hafter))
    · rw [List.append_nil, List.append_nil] at hsecond
      refine .tail (.single ?_) hsecond
      simpa using hfirst
    · rintro - -
      obtain ⟨init, c, rfl⟩ := (List.eq_nil_or_concat sign).resolve_left hne
      exact .of_last (c := c) (by simp [List.getLast?_cons]) (hword c (by simp))
        (fun hfalse => by simp [hparts] at hfalse) fun hfalse => by simp [htyped] at hfalse
  · rintro - -
    obtain ⟨c, rest, rfl⟩ := List.exists_cons_of_ne_nil hne
    exact .of_head (d := c) (by simp) (hword c (by simp))
      (fun hfalse => by simp [hparts] at hfalse) fun hfalse => by simp [htyped] at hfalse

theorem Spacing.comma_respaces : Respaces licence known tail fun block _ written =>
    written = [',', ' '] ∧ ∃ before after, block = before ++ [','] ++ after ∧
      (∀ c ∈ before, isPad c = true) ∧ ∀ c ∈ after, isPad c = true := by
  rintro block rest written - ⟨rfl, before, after, rfl, hbefore, hafter⟩ left right - - hright
  have hfirst := @Move.between licence left right [] before [] (',' :: after)
    (fun c hc => isBlank_of_isPad (hbefore c hc)) (by simp) hright
    (fun _ hne => absurd rfl hne) (fun _ _ => .inr (by rintro d ⟨⟩; exact .inr rfl))
    (fun hmem => absurd hmem (lineFeed_not_mem_of_isPad hbefore))
  have hsecond := @Move.between licence left right [','] after [' '] []
    (fun c hc => isBlank_of_isPad (hafter c hc)) (by decide) hright
    (fun _ _ => .of_last (c := ',') (by simp) (by decide) (fun _ => by decide) fun _ => by decide)
    (fun _ hnil => by cases hnil) (fun hmem => absurd hmem (lineFeed_not_mem_of_isPad hafter))
  refine .tail (.single ?_) hsecond
  simpa using hfirst

theorem LineBreak.lineFeeds_respaces : Respaces licence known tail ReducesFeeds := by
  rintro block rest written hne ⟨hfeeds, -, -, rfl⟩ left right - - hright
  exact .single (.mk (fun c hc => by rw [hfeeds c hc]; decide) (by decide) hright
    (fun hnil => absurd hnil hne) (fun _ hnil => by cases hnil) fun _ => .inl (by simp))

/-- Line breaks may go where no line comment ends. -/
theorem Header.blankRun_respaces :
    Respaces licence (fun left => endsInLineComment left.reverse = false) tail
      fun block _ written => (∀ c ∈ block, isBlank c = true) ∧ written = [' '] := by
  rintro block rest written hne ⟨hblank, rfl⟩ left right hends - hright
  exact .single (.mk hblank (by decide) hright (fun hnil => absurd hnil hne)
    (fun _ hnil => by cases hnil) fun _ => .inr hends)

end Respaces

end StructuredText
