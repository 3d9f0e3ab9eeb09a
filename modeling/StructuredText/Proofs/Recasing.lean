import StructuredText.Casing
import StructuredText.Proofs.Matching
import StructuredText.Proofs.Preservation
import StructuredText.Proofs.Totality

/-!
# Letter case

Writing the words of the standard vocabulary in capitals, and the units of dates in small letters,
changes the case of letters in the code and nothing else.

Results:
1. `Recast.marked`, `Recast.literals_eq`: a change of case in the code keeps strings and comments.
2. `Casing.apply_standard_keeps`: so does the casing pass, which always succeeds.
-/

namespace StructuredText

open List Literal

variable {text text' before : List Char} {c : Char} {cells : List Cell}

/-! ## Plain code points -/

instance (c d : Char) : Decidable (Recased c d) :=
  inferInstanceAs (Decidable (_ ∨ _))

/-- Whether `text` is a single code point that differs from `c` in case only. -/
def isRecasing (c : Char) (text : List Char) : Bool :=
  match text with
  | [d] => decide (Recased c d)
  | _ => false

theorem upperChars_checked :
    (plainPoints.all fun n => isRecasing (Char.ofNat n) (upperChars (Char.ofNat n))) = true := by
  decide +kernel

theorem recased_upper (h : ∀ c ∈ text, isPlain c) : List.Forall₂ Recased text (upper text) := by
  induction text with
  | nil => exact .nil
  | cons c rest ih =>
    have hc : isRecasing c (upperChars c) = true :=
      @forall_plain (fun e => isRecasing e (upperChars e)) upperChars_checked c
        (h c mem_cons_self)
    unfold isRecasing at hc
    split at hc
    next d hupper =>
      rw [upper, flatMap_cons, hupper]
      exact .cons (of_decide_eq_true hc) (ih fun e he => h e (mem_cons_of_mem _ he))
    next => cases hc

/-! ## Cells that differ in case -/

/-- The code of the cells may differ in case. -/
def Cell.Recased (cell cell' : Cell) : Prop :=
  cell'.role = cell.role ∧ StructuredText.Recased cell.char cell'.char ∧
    (cell.role ≠ .code → cell'.char = cell.char)

/-- The code of the texts may differ in case. -/
def Recast : List Cell → List Cell → Prop :=
  List.Forall₂ Cell.Recased

theorem Cell.Recased.refl (cell : Cell) : cell.Recased cell :=
  ⟨rfl, .refl _, fun _ => rfl⟩

theorem Recast.chars {out : List Cell} (h : Recast cells out) :
    List.Forall₂ Recased (chars cells) (chars out) := by
  induction h with
  | nil => exact .nil
  | cons hcell _ ih => exact .cons hcell.2.1 ih

theorem recast_codeCells (h : List.Forall₂ Recased text text') :
    Recast (codeCells text) (codeCells text') := by
  induction h with
  | nil => exact .nil
  | cons hcd _ ih => exact .cons ⟨rfl, hcd, fun hrole => absurd rfl hrole⟩ ih

/-- Recasing code is a change of case. -/
theorem Patched.recast {out : List Cell}
    (h : Patched (fun block _ written => List.Forall₂ Recased block written) cells out) :
    Recast cells out := by
  induction h with
  | nil => exact .nil
  | keep cell _ ih => exact .cons (.refl cell) ih
  | change _ _ hhit _ ih => exact rel_append (recast_codeCells hhit) ih

variable {d e : Char}

theorem Recased.beq_eq (h : Recased c d) (he : isLetter e = false) :
    (c == e) = (d == e) :=
  h.eq_of_letter (isLetter_of_ne he)

theorem Recased.eq_iff (h : Recased c d) (he : isLetter e = false) :
    d = e ↔ c = e := by
  have := h.beq_eq he
  grind

theorem head?_of_forall₂ {text text' : List Char} (h : List.Forall₂ Recased text text') {e : Char}
    (he : isLetter e = false) : (text'.head? == some e) = (text.head? == some e) := by
  cases h with
  | nil => rfl
  | cons hcd _ => simpa using (hcd.beq_eq he).symm

theorem opensLiteral_recased (h : Recased c d) (htext : List.Forall₂ Recased text text') :
    opensLiteral d text'.head? = opensLiteral c text.head? := by
  have hstar := @head?_of_forall₂ _ _ htext '*' (by decide)
  have hslash := @head?_of_forall₂ _ _ htext '/' (by decide)
  simp only [opensLiteral, hstar, hslash, h.beq_eq (by decide : isLetter '\x27' = false),
    h.beq_eq (by decide : isLetter '\x22' = false), h.beq_eq (by decide : isLetter '(' = false),
    h.beq_eq (by decide : isLetter '/' = false)]

theorem blankToLineEnd_recased (h : List.Forall₂ Recased text text')
    (hblank : blankToLineEnd text) : blankToLineEnd text' := by
  induction h with
  | nil => exact hblank
  | @cons c d rest rest' hcd _ ih =>
    intro e he
    rw [takeWhile_cons] at he
    split at he
    next hd =>
      rw [bne_iff_ne, ne_eq, hcd.eq_iff (by decide)] at hd
      rcases mem_cons.mp he with rfl | he
      · rw [← hcd.isBlank_eq]
        exact hblank c (by simp [hd])
      · exact ih (@blankToLineEnd_of_append [c] _ hblank (by simpa using Ne.symm hd)) e he
    next => cases he

namespace Recast

variable {cells out : List Cell}

variable {kind : Kind} {rest : List Cell} {mark : Recognizer Kind}

theorem insideCells_eq (h : Recast (insideCells kind text ++ rest) out) :
    ∃ rest', out = insideCells kind text ++ rest' ∧ Recast rest rest' := by
  induction text generalizing out with
  | nil => exact ⟨out, rfl, h⟩
  | cons c text ih =>
    cases h with
    | @cons _ cell _ _ hcell hrest =>
      obtain ⟨rest', rfl, hrest'⟩ := ih hrest
      obtain ⟨d, role⟩ := cell
      obtain ⟨rfl, -, hchar⟩ := hcell
      cases hchar nofun
      exact ⟨rest', rfl, hrest'⟩

theorem literalCells_eq {body : List Char} (h : Recast (literalCells kind c body ++ rest) out) :
    ∃ rest', out = literalCells kind c body ++ rest' ∧ Recast rest rest' := by
  cases h with
  | @cons _ cell _ _ hcell hrest =>
    obtain ⟨rest', rfl, hrest'⟩ := insideCells_eq hrest
    obtain ⟨d, role⟩ := cell
    obtain ⟨rfl, -, hchar⟩ := hcell
    cases hchar nofun
    exact ⟨rest', rfl, hrest'⟩

/-- A change of case in the code keeps strings and comments where they are. -/
theorem marked {before' : List Char} (hmarked : Marked recognize before cells)
    (h : Recast cells out) : Marked recognize before' out := by
  induction hmarked generalizing out before' with
  | nil =>
    cases h
    exact .nil
  | @code before c rest hfind _ ih =>
    cases h with
    | @cons _ cell _ _ hcell hrest =>
      obtain ⟨d, role⟩ := cell
      obtain ⟨rfl, hcd, -⟩ := hcell
      refine .code (literalAt_eq_none_iff.mpr ?_) (ih hrest)
      rw [opensLiteral_recased hcd (Recast.chars hrest)]
      exact literalAt_eq_none_iff.mp hfind
  | @literal before body c kind rest hfind _ ih =>
    obtain ⟨rest', rfl, hrest⟩ := literalCells_eq h
    refine .literal (literalAt_append hfind ?_ ?_) (ih hrest)
    · intro _ hnil
      rw [map_eq_nil_iff.mp hnil] at hrest
      cases hrest
      rfl
    · rintro rfl
      exact blankToLineEnd_recased hrest.chars (blankToLineEnd_of_literalAt hfind)

theorem head?_not_inside (h : Recast cells out)
    (hhead : ∀ cell ∈ cells.head?, cell.isInside = false) :
    ∀ cell ∈ out.head?, cell.isInside = false := by
  cases h with
  | nil => exact hhead
  | @cons cell cell' _ _ hcell _ =>
    rintro _ ⟨⟩
    have := hhead cell rfl
    rwa [Cell.isInside, ← hcell.1] at this

/-- A change of case in the code keeps the literals. -/
theorem literals_eq (hmarked : Marked mark before cells) (h : Recast cells out) :
    literals out = literals cells := by
  induction hmarked generalizing out with
  | nil =>
    cases h
    rfl
  | code _ _ ih =>
    cases h with
    | @cons _ cell _ _ hcell hrest =>
      obtain ⟨d, role⟩ := cell
      obtain ⟨rfl, -⟩ := hcell
      have hliterals := ih hrest
      exact hliterals
  | literal _ hmarked ih =>
    obtain ⟨rest', rfl, hrest⟩ := literalCells_eq h
    have hhead := hmarked.head?_not_inside
    rw [literals_literalCells hhead, literals_literalCells (hrest.head?_not_inside hhead), ih hrest]

theorem spansFrom_eq (hmarked : Marked mark before cells) (h : Recast cells out) :
    ∀ pos, spansFrom pos out = spansFrom pos cells := by
  induction hmarked generalizing out with
  | nil =>
    cases h
    exact fun _ => rfl
  | code _ _ ih =>
    cases h with
    | @cons _ cell _ _ hcell hrest =>
      obtain ⟨d, role⟩ := cell
      obtain ⟨rfl, -⟩ := hcell
      exact fun pos => ih hrest (pos + 1)
  | literal _ hmarked ih =>
    intro pos
    obtain ⟨rest', rfl, hrest⟩ := literalCells_eq h
    have hhead := hmarked.head?_not_inside
    rw [spansFrom_literalCells hhead, spansFrom_literalCells (hrest.head?_not_inside hhead),
      ih hrest]

theorem keeps (hmarked : Marked recognize [] cells) (h : Recast cells out) :
    Keeps (StructuredText.chars cells) (StructuredText.chars out) where
  literals := by
    rw [hmarked.literalsOf_eq, (h.marked hmarked).literalsOf_eq, h.literals_eq hmarked]
  skeleton := skeleton_of_forall₂ h.chars
  wordJoints := wordJoints_of_forall₂ h.chars

end Recast

/-! ## Dates -/

namespace Casing

theorem lowerChar_checked :
    (plainPoints.all fun n => !isDatePart (Char.ofNat n) ||
      isRecasing (Char.ofNat n) [lowerChar (Char.ofNat n)]) = true := by
  decide +kernel

theorem isPlain_of_isDatePart (h : isDatePart c = true) : isPlain c := by
  simp only [isDatePart, Bool.or_eq_true, Bool.and_eq_true, decide_eq_true_eq, beq_iff_eq] at h
  rcases h with ((((h | rfl) | rfl) | rfl) | rfl) | h
  · exact isPlain_of_lt (Nat.lt_of_le_of_lt h.2 (by decide))
  · decide
  · decide
  · decide
  · decide
  · obtain ⟨letter, hletter, hsame⟩ := any_eq_true.mp h
    have hascii : ∀ letter ∈ ['y', 'm', 'd', 'h', 's', 'u', 'n'], letter.toNat < 128 := by decide
    exact isPlain_of_sameUpToCase (hascii letter hletter) hsame

theorem recased_lower (h : ∀ c ∈ text, isDatePart c = true) :
    List.Forall₂ Recased text (lower text) := by
  induction text with
  | nil => exact .nil
  | cons c rest ih =>
    have hc := h c mem_cons_self
    have hrecasing : (!isDatePart c || isRecasing c [lowerChar c]) = true :=
      @forall_plain (fun e => !isDatePart e || isRecasing e [lowerChar e]) lowerChar_checked c
        (isPlain_of_isDatePart hc)
    rw [hc] at hrecasing
    exact .cons (of_decide_eq_true hrecasing) (ih fun e he => h e (mem_cons_of_mem _ he))

/-- The type of a date or time literal, with the sign behind it. -/
def dateType (cursor : Cursor) : Option Cursor :=
  dateTypes.findSome? fun name =>
    (cursor.boundary.bind (Cursor.word name)).bind (Cursor.char '#')

theorem dateUnits_eq (cursor : Cursor) :
    dateUnits cursor = (dateType cursor).bind fun behindType =>
      (behindType.someRun isDatePart).map fun stop =>
        (stop, cursor.upTo behindType ++ lower (behindType.upTo stop)) := by
  simp only [dateUnits, Option.bind_eq_bind, Option.pure_def, Option.map_eq_bind]
  rfl

theorem dateType_reads {cursor stop : Cursor} (h : dateType cursor = some stop) :
    ∃ text, cursor.Reads stop text := by
  obtain ⟨name, -, hname⟩ := exists_of_findSome?_eq_some h
  obtain ⟨behindName, hword, hchar⟩ := Option.bind_eq_some_iff.mp hname
  obtain ⟨start, hboundary, hword⟩ := Option.bind_eq_some_iff.mp hword
  rw [(Cursor.reads_boundary hboundary).1] at hword
  obtain ⟨read, hreads, -⟩ := Cursor.reads_word hword
  exact ⟨_, hreads.trans (Cursor.reads_char hchar)⟩

theorem dateUnits_spec :
    dateUnits.Spec fun block _ written => List.Forall₂ Recased block written := by
  intro cursor stop written h
  rw [dateUnits_eq] at h
  obtain ⟨behindType, htype, h⟩ := Option.bind_eq_some_iff.mp h
  obtain ⟨stop', hrun, h⟩ := Option.map_eq_some_iff.mp h
  cases h
  obtain ⟨read, hfirst⟩ := dateType_reads htype
  obtain ⟨hne, hrest, -⟩ := Cursor.reads_someRun hrun
  refine ⟨_, hfirst.trans hrest, by simp [hne], ?_⟩
  rw [hfirst.upTo_eq, hrest.upTo_eq]
  refine rel_append (forall₂_same.mpr fun c _ => .refl c) ?_
  exact recased_lower fun c hc => mem_takeWhile_imp hc

end Casing

/-! ## Words of the vocabulary -/

namespace Pattern

/-- The set holds printing ASCII code points, up to case. -/
def isPlainSet (set : CharSet) : Bool :=
  !set.complement && set.items.all fun item =>
    match item with
    | .range low high => decide (33 ≤ low) && decide (high < 128)
    | .category _ _ => false

/-- Blanks have no case variants other than blanks. -/
theorem lt_of_isBlank (hplain : isPlain c) (hblank : isBlank c = true) :
    c.toNat < 33 ∧ ∀ m ∈ caseVariants c, m < 33 := by
  have := @forall_plain (fun e => !isBlank e ||
    (decide (e.toNat < 33) && (caseVariants e).all fun m => decide (m < 33))) (by
      decide +kernel) c hplain
  simp only [hblank, Bool.not_true, Bool.false_or, Bool.and_eq_true, decide_eq_true_eq,
    all_eq_true] at this
  exact this

theorem isPlain_of_holds {set : CharSet} (h : isPlainSet set = true) (hc : set.holds c = true) :
    isPlain c ∧ isBlank c = false := by
  simp only [isPlainSet, Bool.and_eq_true, Bool.not_eq_true', all_eq_true] at h
  rw [CharSet.holds, h.1, bne_iff_ne, ne_eq, Bool.not_eq_false, any_eq_true] at hc
  obtain ⟨item, hitem, hc⟩ := hc
  have hrange := h.2 item hitem
  cases item with
  | category kind inside => cases hrange
  | range low high =>
    simp only [Bool.and_eq_true, decide_eq_true_eq] at hrange
    simp only [SetItem.holds, Bool.or_eq_true, Bool.and_eq_true, decide_eq_true_eq,
      any_eq_true] at hc
    have hplain : isPlain c := by
      rcases hc with hc | ⟨-, m, hm, hle⟩
      · exact isPlain_of_lt (by omega)
      · exact isPlain_of_caseVariants hm (by omega)
    refine ⟨hplain, ?_⟩
    rw [Bool.eq_false_iff]
    intro hblank
    obtain ⟨hlt, hvariants⟩ := lt_of_isBlank hplain hblank
    rcases hc with hc | ⟨-, m, hm, hle⟩
    · omega
    · have := hvariants m hm
      omega

end Pattern

theorem Vocabulary.casingPattern_checked :
    (match @casingPattern Host.plain standard with
      | .ok pattern => pattern.readsOnly Pattern.isPlainSet && pattern.consumes
      | .error _ => false) = true := by
  decide +kernel

/-- The words of the standard vocabulary are made of plain code points. -/
theorem Vocabulary.exists_casingPattern [Host] :
    ∃ pattern, Vocabulary.standard.casingPattern = .ok pattern ∧
      pattern.readsOnly Pattern.isPlainSet = true ∧ pattern.consumes = true := by
  have hchecked := Vocabulary.casingPattern_checked
  rw [standard_casingPattern _ Host.plain]
  split at hchecked
  next pattern hpattern => exact ⟨pattern, hpattern, by simpa using hchecked⟩
  next => cases hchecked

namespace Casing

variable {pattern : Pattern} {cased : List Char}

theorem capitals_recast (hreads : pattern.readsOnly Pattern.isPlainSet = true)
    (hconsumes : pattern.consumes = true) (h : Marked recognize [] cells) :
    ∃ out, pattern.replaceOutside (scan (chars cells)) (fun found => upper found.text)
      (chars cells) = chars out ∧ Recast cells out := by
  have hhit : ∀ before block rest found,
      pattern.recognize (chars cells).length false ⟨before.length, before, block ++ rest⟩ =
        some (block.length, found) → List.Forall₂ Recased block (upper found.text) := by
    intro before block rest found hfound
    obtain ⟨hmatches, hlength, rest', hafter⟩ := Pattern.recognize_eq_some hfound
    rw [(append_inj hafter hlength).1]
    exact recased_upper (hmatches.mem_of_readsOnly
      (fun _ hset _ hc => (Pattern.isPlain_of_holds hset hc).1) hreads)
  obtain ⟨out, hout, hpatched⟩ :=
    replaceOutside_patched (Pattern.recognize_isProper hconsumes) hhit h
  exact ⟨out, by rw [h.scan_eq]; exact hout, hpatched.recast⟩

/-- The units of dates change in case. Both steps leave out the same spans, as the first moves
none. -/
theorem dateUnits_recast {middle : List Cell} (h : Marked recognize [] cells)
    (hrecast : Recast cells middle) :
    ∃ out, replaceOutside (.ofReader dateUnits) (scan (chars cells)) id (chars middle) = chars out ∧
      Recast middle out := by
  have hmarked : Marked recognize [] middle := hrecast.marked h
  obtain ⟨out, hout, hpatched⟩ := Rule.apply_patched dateUnits_spec hmarked
  refine ⟨out, ?_, hpatched.recast⟩
  rw [← hout, Rule.apply, hmarked.scan_eq, hrecast.spansFrom_eq h, h.scan_eq]

theorem applyPattern_recast (hreads : pattern.readsOnly Pattern.isPlainSet = true)
    (hconsumes : pattern.consumes = true) (h : Marked recognize [] cells) :
    ∃ middle out, applyPattern pattern (chars cells) = chars out ∧ Recast cells middle ∧
      Recast middle out := by
  obtain ⟨middle, hmiddle, hrecast⟩ := capitals_recast hreads hconsumes h
  obtain ⟨out, hout, hrecast'⟩ := dateUnits_recast h hrecast
  refine ⟨middle, out, ?_, hrecast, hrecast'⟩
  rw [← hout, applyPattern, hmiddle]

variable [Host]

/-- Letter case changes in the code only. -/
theorem apply_standard (text : List Char) :
    ∃ cased, apply Vocabulary.standard text = .ok cased ∧
      ∀ cells, Marked recognize [] cells → chars cells = text →
        ∃ middle out, cased = chars out ∧ Recast cells middle ∧ Recast middle out := by
  obtain ⟨pattern, hpattern, hreads, hconsumes⟩ := Vocabulary.exists_casingPattern
  refine ⟨applyPattern pattern text, ?_, ?_⟩
  · rw [apply, hpattern]
    rfl
  · rintro cells hmarked rfl
    exact applyPattern_recast hreads hconsumes hmarked

/-- Words are written in capitals first, and then the parts of dates and times. -/
theorem exists_recast (h : apply Vocabulary.standard text = .ok cased) :
    ∃ cells middle out, text = chars cells ∧ cased = chars out ∧ Marked recognize [] cells ∧
      Recast cells middle ∧ Recast middle out := by
  obtain ⟨_, hcased, hcells⟩ := apply_standard text
  cases h.symm.trans hcased
  obtain ⟨cells, rfl, hmarked⟩ := exists_marked_recognize text
  obtain ⟨middle, out, hout, hfirst, hsecond⟩ := hcells cells hmarked rfl
  exact ⟨cells, middle, out, rfl, hout, hmarked, hfirst, hsecond⟩

theorem apply_standard_keeps (h : apply Vocabulary.standard text = .ok cased) :
    Keeps text cased := by
  obtain ⟨cells, middle, out, rfl, rfl, hmarked, hfirst, hsecond⟩ := exists_recast h
  exact (hfirst.keeps hmarked).trans (hsecond.keeps (hfirst.marked hmarked))

end Casing

end StructuredText
