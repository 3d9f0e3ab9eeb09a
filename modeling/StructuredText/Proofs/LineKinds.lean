import StructuredText.Proofs.BlockWords
import StructuredText.Proofs.Indenting

/-!
# Kinds of marked lines

A line is classified on its own. If it starts in the code of a text, then the literals that are
found on it alone are those of the text, up to the end of the line. So its kind is known from its
cells: from the words in its code, and from whether it starts with a comment.

Results:
1. `Marked.cut`: the literals of a line are found on the line alone.
2. `mask_eq`: masking puts a space in place of each code point of literals, line feeds apart.
3. `Marked.ofLine_eq_opener_iff`, `Marked.depthAfter_ofLine`: how a line moves the depth.
-/

namespace StructuredText

open List Literal

/-! ## Literals on a line alone -/

namespace Literal

/-- A string that goes on behind a place is open up to there. -/
theorem stringLength_cut {quote : Char} (rest : List Char) : ∀ body : List Char,
    body.length ≤ stringLength quote (body ++ rest) → stringLength quote body = body.length
  | [], _ => rfl
  | c :: body, h => by
      by_cases hc : c = '$'
      · subst hc
        cases body with
        | nil => rfl
        | cons d body =>
          simp only [cons_append, stringLength, length_cons] at h ⊢
          rw [stringLength_cut rest body (by omega)]
      · rw [cons_append, stringLength_cons_of_ne hc] at h
        rw [stringLength_cons_of_ne hc]
        split
        next hquote =>
          rw [if_pos hquote, length_cons] at h
          rw [length_cons]
          omega
        next hquote =>
          rw [if_neg hquote, length_cons] at h
          rw [stringLength_cut rest body (by omega), length_cons]
termination_by body => body.length

/-- A comment that goes on behind a place is open up to there. -/
theorem commentLength_cut {mark closer : Char} (rest : List Char) : ∀ body : List Char,
    body.length ≤ commentLength mark closer (body ++ rest) →
      commentLength mark closer body = body.length
  | [], _ | [c], _ => rfl
  | c :: d :: body, h => by
      simp only [cons_append, commentLength, length_cons] at h ⊢
      split
      next hclosed =>
        rw [if_pos hclosed] at h
        omega
      next hopen =>
        rw [if_neg hopen] at h
        have := commentLength_cut rest (d :: body) (by simpa using h)
        rw [this, length_cons]

theorem blankToLineEnd_left {first second : List Char} (h : blankToLineEnd (first ++ second)) :
    blankToLineEnd first := by
  intro c hc
  refine h c ?_
  rw [takeWhile_append]
  split
  · next hall =>
    have := takeWhile_sublist (l := first) (· != '\n')
    rw [this.eq_of_length hall] at hc
    exact mem_append_left _ hc
  · exact hc

/-- Where only blanks follow up to the end of the line, no literal goes on with another code
point. -/
theorem isBlank_head?_of_blankToLineEnd {text : List Char} (h : blankToLineEnd text) :
    ∀ c ∈ text.head?, isBlank c = true := by
  intro c hc
  obtain ⟨rest, rfl⟩ := head?_eq_some_iff.mp hc
  by_cases hfeed : c = '\n'
  · rw [hfeed]
    rfl
  · exact h c (by simp [hfeed])

/-- A literal that is cut where only blanks follow on its line is found in what is left of it. -/
theorem literalAt_cut {c : Char} {body body' rest : List Char} {kind : Kind}
    (h : literalAt (c :: (body ++ body' ++ rest)) = some ((body ++ body').length + 1, kind))
    (hblank : blankToLineEnd (body' ++ rest)) :
    literalAt (c :: (body ++ [])) = some (body.length + 1, kind) := by
  have hhead := isBlank_head?_of_blankToLineEnd hblank
  -- The second code point of an opener is no blank.
  have hopener : ∀ {d : Char} {inside : List Char}, isBlank d = false →
      body ++ body' = d :: inside → ∃ inside', body = d :: inside' ∧ inside = inside' ++ body' := by
    intro d inside hd hbody
    cases body with
    | nil =>
      rw [nil_append] at hbody
      rw [hhead d (by rw [hbody]; rfl)] at hd
      cases hd
    | cons e body =>
      obtain ⟨rfl, rfl⟩ := cons_eq_cons.mp hbody
      exact ⟨body, rfl, rfl⟩
  rw [literalAt_append_iff] at h ⊢
  obtain ⟨rfl, hquote, hlength⟩ | ⟨rfl, rfl, inside, hbody, hlength⟩ |
    ⟨rfl, rfl, inside, hbody, hlength⟩ | ⟨rfl, rfl, inside, hbody, hlength⟩ := h
  · rw [append_assoc] at hlength
    refine .inl ⟨rfl, hquote, ?_⟩
    rw [append_nil, stringLength_cut (body' ++ rest) body
      (by rw [hlength, length_append]; omega)]
  · obtain ⟨inside', rfl, rfl⟩ := hopener (by decide) hbody
    rw [append_assoc] at hlength
    refine .inr (.inl ⟨rfl, rfl, inside', rfl, ?_⟩)
    rw [append_nil, commentLength_cut (body' ++ rest) inside'
      (by rw [hlength, length_append]; omega)]
  · obtain ⟨inside', rfl, rfl⟩ := hopener (by decide) hbody
    rw [append_assoc] at hlength
    refine .inr (.inr (.inl ⟨rfl, rfl, inside', rfl, ?_⟩))
    rw [append_nil, commentLength_cut (body' ++ rest) inside'
      (by rw [hlength, length_append]; omega)]
  · obtain ⟨inside', rfl, rfl⟩ := hopener (by decide) hbody
    obtain ⟨hfeed, htrim, -⟩ := lineCommentLength_append_iff.mp hlength
    -- A line comment ends in no blank, so that nothing of it is cut off.
    have hnil : body' = [] := by
      by_contra hne
      have hblanks := isBlank_of_blankToLineEnd hblank
        fun hmem => hfeed '\n' (mem_append_right _ hmem) rfl
      have hlast := isBlank_getLast?_of_trimRight htrim (body'.getLast hne) (by
        rw [getLast?_append_of_ne_nil _ hne]
        exact getLast?_eq_some_getLast hne)
      rw [hblanks _ (getLast_mem hne)] at hlast
      cases hlast
    rw [hnil, append_nil] at hfeed htrim
    exact .inr (.inr (.inr ⟨rfl, rfl, inside', rfl,
      lineCommentLength_append_iff.mpr ⟨hfeed, htrim, by simp [blankToLineEnd]⟩⟩))

end Literal

theorem EndsLine.blankToLineEnd {text : List Char} (h : EndsLine text) : blankToLineEnd text := by
  cases text with
  | nil => simp [Literal.blankToLineEnd]
  | cons c rest => simp [Literal.blankToLineEnd, h c rfl]

/-- A marked text can be cut where only blanks follow on the line. -/
theorem Marked.cut {before : List Char} {cells : List Cell} (h : Marked recognize before cells) :
    ∀ {first second : List Cell}, cells = first ++ second → blankToLineEnd (chars second) →
      Marked recognize before first := by
  induction h with
  | nil =>
    intro first second heq _
    obtain ⟨rfl, -⟩ := append_eq_nil_iff.mp heq.symm
    exact .nil
  | @code before c rest hfind _ ih =>
    intro first second heq hblank
    cases first with
    | nil => exact .nil
    | cons cell first =>
      obtain ⟨rfl, rfl⟩ := cons_eq_cons.mp heq
      refine .code (literalAt_eq_none_iff.mpr ?_) (ih rfl hblank)
      have hopens := literalAt_eq_none_iff.mp hfind
      cases first with
      | nil => exact opensLiteral_congr hopens nofun nofun
      | cons cell first => exact hopens
  | @literal before body c kind rest hfind hrest ih =>
    intro first second heq hblank
    rcases append_eq_append_iff.mp heq with ⟨middle, rfl, rfl⟩ | ⟨middle, hliteral, rfl⟩
    · refine .literal (literalAt_append hfind ?_ ?_) (ih rfl hblank)
      · intro _ hnil
        rw [chars_append, append_eq_nil_iff] at hnil
        exact hnil.1
      · rintro rfl
        have := blankToLineEnd_of_literalAt hfind
        rw [chars_append] at this
        exact blankToLineEnd_left this
    · cases first with
      | nil => exact .nil
      | cons cell first =>
        obtain ⟨rfl, hinside⟩ := cons_eq_cons.mp hliteral
        obtain ⟨body, body', rfl, rfl, rfl⟩ := map_eq_append_iff.mp hinside
        have hcells : (⟨c, .opening kind⟩ :: body.map fun d => ⟨d, .inside kind⟩ : List Cell) =
            literalCells kind c body ++ [] := by
          rw [append_nil]
          rfl
        rw [hcells]
        refine .literal (literalAt_cut hfind ?_) .nil
        rw [chars_append] at hblank
        exact (chars_insideCells kind body') ▸ hblank

/-! ## Masks that keep line feeds -/

/-- The cell's code point, or a space if it belongs to a literal and is no line feed. -/
def shade (cell : Cell) : Char :=
  if cell.isCode || cell.char == '\n' then cell.char else ' '

theorem shade_eq_veil {cell : Cell} (h : cell.char ≠ '\n') : shade cell = veil ' ' cell := by
  simp [shade, veil, h]

theorem maskBody_feeds (body : List Char) :
    maskBody [' '] true body = body.map fun c => if c = '\n' then c else ' ' := by
  induction body with
  | nil => rfl
  | cons c body ih =>
    rw [maskBody, flatMap_cons, ← maskBody, ih, map_cons]
    by_cases hc : c = '\n' <;> simp [hc]

theorem shade_of_not_code {cell : Cell} (h : cell.role ≠ .code) :
    shade cell = if cell.char = '\n' then cell.char else ' ' := by
  simp [shade, Cell.isCode, h]

theorem map_shade_literalCells (kind : Kind) (c : Char) (body : List Char) :
    (literalCells kind c body).map shade = maskBody [' '] true (c :: body) := by
  rw [maskBody_feeds, ← chars_literalCells kind, chars, map_map]
  exact map_congr_left fun cell hcell => shade_of_not_code (role_of_mem_literalCells hcell)

theorem map_shade_of_marked {mark : Recognizer Kind} {before : List Char} {cells : List Cell}
    (h : Marked mark before cells) :
    rewriteLiterals (fun _ => true) (fun _ _ body => maskBody [' '] true body) before cells =
      cells.map shade := by
  induction h with
  | nil => rfl
  | code _ _ ih =>
    rw [rewriteLiterals, ih]
    rfl
  | literal _ hrest ih =>
    rw [rewriteLiterals_literalCells hrest.head?_not_inside, ih, if_pos rfl, map_append,
      map_shade_literalCells]

/-- Masking a text puts a space in place of each code point of literals, line feeds apart. -/
theorem mask_eq {cells : List Cell} (h : Marked recognize [] cells) :
    mask (chars cells) = cells.map shade := by
  rw [mask, h.scan_eq, ← map_shade_of_marked h, ← applyEdits_literals h rfl, filter_true]
  rfl

/-! ## What a line starts with -/

/-- A comment starts with the cell. -/
def Cell.opensComment (cell : Cell) : Bool :=
  match cell.role with
  | .opening kind => kind.isComment
  | .code | .inside _ => false

/-- The first cell that is no blank. -/
def firstSign (cells : List Cell) : Option Cell :=
  cells.find? fun cell => !isBlank cell.char

/-- A comment is the first thing that the cells hold. -/
def startsComment (cells : List Cell) : Bool :=
  (firstSign cells).any Cell.opensComment

theorem startsWithComment_eq (text : List Char) :
    LineKind.startsWithComment text = (literalAt text).any (·.2.isComment) := by
  unfold LineKind.startsWithComment literalAt
  split
  · rfl
  · rfl
  · rfl
  · split <;> simp_all [Kind.isComment]

theorem firstSign_append_of_isBlank {first : List Cell}
    (h : ∀ cell ∈ first, isBlank cell.char = true)
    (second : List Cell) : firstSign (first ++ second) = firstSign second := by
  have hnone : first.find? (fun cell => !isBlank cell.char) = none := by
    rw [find?_eq_none]
    intro cell hcell
    rw [h cell hcell]
    decide
  rw [firstSign, find?_append, hnone, Option.none_or]
  rfl

/-- A line that has been trimmed starts with a comment exactly if its first cell does. -/
theorem startsWithComment_chars {content : List Cell} (h : Marked recognize [] content)
    (hfirst : ∀ c ∈ (chars content).head?, isBlank c = false) :
    LineKind.startsWithComment (chars content) = startsComment content := by
  rw [startsWithComment_eq]
  cases h with
  | nil => rfl
  | @code _ c rest hfind _ =>
    rw [chars_cons, show literalAt (c :: chars rest) = none from hfind]
    simp [startsComment, firstSign, hfirst c rfl, Cell.opensComment]
  | @literal _ body c kind rest hfind _ =>
    rw [chars_append, chars_literalCells, cons_append,
      show literalAt (c :: (body ++ chars rest)) = some (body.length + 1, kind) from hfind]
    simp [startsComment, firstSign, literalCells, hfirst c (by simp), Cell.opensComment]

/-! ## Kinds -/

open LineKind

/-- One of the words stands in the code of cells. -/
def codeHas (words : List (List Char)) (cells : List Cell) : Bool :=
  hasWord words (cells.map (veil ' '))

/-- A line is its content with blanks around it, and the literals of its content are found on the
content alone. -/
theorem Marked.exists_content {before : List Char} {line tail : List Cell}
    (h : Marked recognize before (line ++ tail)) (htail : EndsLine (chars tail)) :
    ∃ leading content trailing, line = leading ++ (content ++ trailing) ∧
      (∀ cell ∈ leading, isBlank cell.char = true) ∧
      (∀ cell ∈ trailing, isBlank cell.char = true) ∧
      (∀ c ∈ (chars content).head?, isBlank c = false) ∧ trim (chars line) = chars content ∧
      Marked recognize [] content := by
  obtain ⟨leading, inner, rfl, hleading, hinner⟩ :=
    chars_eq_append (takeWhile_append_dropWhile (p := isBlank) (l := chars line)).symm
  obtain ⟨blanks, htext, hblanks⟩ := trimRight_append_blanks (chars inner)
  obtain ⟨content, trailing, rfl, hcontent, htrailing⟩ := chars_eq_append htext
  have hblank : ∀ cell ∈ leading, isBlank cell.char = true := by
    intro cell hcell
    have : cell.char ∈ chars leading := mem_map_of_mem hcell
    rw [hleading] at this
    exact mem_takeWhile_imp this
  have hblank' : ∀ cell ∈ trailing, isBlank cell.char = true := by
    intro cell hcell
    exact hblanks _ (htrailing ▸ mem_map_of_mem hcell)
  have hfirst : ∀ c ∈ (chars content).head?, isBlank c = false := by
    intro c hc
    have hnot := head?_dropWhile_not isBlank (chars (leading ++ (content ++ trailing)))
    rw [← hinner, chars_append, head?_append, Option.mem_def.mp hc] at hnot
    simpa using hnot
  have htrim : trim (chars (leading ++ (content ++ trailing))) = chars content := by
    rw [trim, trimLeft, ← hinner, hcontent]
  refine ⟨leading, content, trailing, rfl, hblank, hblank', hfirst, htrim, ?_⟩
  rw [append_assoc] at h
  have hcode := h.codeCells_of_isBlank fun c hc => by
    obtain ⟨cell, hcell, rfl⟩ := mem_map.mp hc
    exact hblank cell hcell
  have hhead : ∀ cell ∈ (content ++ trailing ++ tail).head?, cell.isInside = false := by
    rw [hcode] at h
    exact h.head?_of_codeCells
  refine ((h.of_append rfl hhead).cut (append_assoc _ _ _) ?_).rebase
  rw [chars_append]
  refine blankToLineEnd_append ?_ (.inr htail.blankToLineEnd)
  rw [htrailing]
  exact hblanks

/-- What the kind of a line depends on. -/
theorem Marked.exists_ofLine {before : List Char} {line tail : List Cell}
    (h : Marked recognize before (line ++ tail)) (hline : '\n' ∉ chars line)
    (htail : EndsLine (chars tail)) :
    ∃ code, ofLine (chars line) = (if startsComment line then .comment else ofCode code) ∧
      ∀ words, AreKeywords words → hasWord words code = codeHas words line := by
  obtain ⟨leading, content, trailing, rfl, hblank, hblank', hfirst, htrim, hmarked⟩ :=
    h.exists_content htail
  simp only [chars_append, mem_append, not_or] at hline
  refine ⟨trim (mask (chars content)), ?_, fun words hwords => ?_⟩
  · have hsign : firstSign (leading ++ (content ++ trailing)) = firstSign content := by
      rw [firstSign_append_of_isBlank hblank]
      cases content with
      | nil => simpa using firstSign_append_of_isBlank hblank' []
      | cons cell content => simp [firstSign, hfirst cell.char rfl]
    rw [ofLine, htrim, startsWithComment_chars hmarked hfirst, startsComment, startsComment, hsign]
  · have hshade : content.map shade = content.map (veil ' ') := by
      refine map_congr_left fun cell hcell => shade_eq_veil ?_
      intro hfeed
      exact hline.2.1 (hfeed ▸ mem_map_of_mem hcell)
    have hveil : ∀ {cells : List Cell}, (∀ cell ∈ cells, isBlank cell.char = true) →
        ∀ c ∈ cells.map (veil ' '), isWordChar c = false := by
      intro cells hcells c hc
      obtain ⟨cell, hcell, rfl⟩ := mem_map.mp hc
      rw [veil]
      split
      · exact isWordChar_of_isBlank (hcells cell hcell)
      · decide
    have hleft := hveil hblank
    have hright := hveil hblank'
    rw [hasWord_trim hwords, mask_eq hmarked, hshade, codeHas, map_append, map_append,
      hasWord_append hwords fun c hc _ _ => .inl (hleft c (mem_of_getLast? hc)),
      hasWord_append hwords fun _ _ d hd => .inr (hright d (mem_of_head? hd)),
      hasWord_eq_false hwords hleft, hasWord_eq_false hwords hright, Bool.false_or, Bool.or_false]

/-- The line opens a block: it does not start with a comment, and holds an opener and no closer. -/
def opensBlock (line : List Cell) : Bool :=
  !startsComment line && codeHas openers line && !codeHas closers line

/-- The words of the line decide on its kind, whether it starts with a case label or not. -/
def IsDecided (line : List Cell) : Prop :=
  codeHas openers line = true ∨ codeHas continuations line = true ∨ codeHas closers line = false

section

variable {before : List Char} {line tail : List Cell}

section

variable (h : Marked recognize before (line ++ tail)) (hline : '\n' ∉ chars line)
  (htail : EndsLine (chars tail))
include h hline htail

theorem Marked.ofLine_eq_opener_iff :
    ofLine (chars line) = .opener ↔ opensBlock line = true := by
  obtain ⟨code, hkind, hwords⟩ := h.exists_ofLine hline htail
  rw [hkind, opensBlock, ← hwords _ openers_checked,
    ← hwords _ closers_checked]
  cases startsComment line with
  | true => simp
  | false =>
    simp only [ofCode]
    cases hasWord openers code <;> cases hasWord closers code <;>
      cases hasWord continuations code <;> cases startsWithLabel code <;> simp

/-- A line that closes a block holds a closer. -/
theorem Marked.codeHas_of_ofLine
    (hkind : ofLine (chars line) = .closer) : codeHas closers line = true ∧ ¬ IsDecided line := by
  obtain ⟨code, hcode, hwords⟩ := h.exists_ofLine hline htail
  rw [hcode] at hkind
  rw [IsDecided, ← hwords _ openers_checked, ← hwords _ closers_checked,
    ← hwords _ continuations_checked]
  revert hkind
  cases startsComment line with
  | true => simp
  | false =>
    simp only [ofCode]
    cases hasWord openers code <;> cases hasWord closers code <;>
      cases hasWord continuations code <;> cases startsWithLabel code <;> simp

/-- How a line moves the depth whose words decide on its kind. -/
theorem Marked.depthAfter_ofLine (hdecided : IsDecided line)
    (depth : Nat) : Indentation.depthAfter (ofLine (chars line)) depth =
      if opensBlock line then depth + 1 else depth := by
  have hopener := h.ofLine_eq_opener_iff hline htail
  have hcloser := h.codeHas_of_ofLine hline htail
  cases hkind : ofLine (chars line) with
  | opener => rw [if_pos (hopener.mp hkind), Indentation.depthAfter]
  | closer => exact absurd hdecided (hcloser hkind).2
  | comment | continuation | caseLabel | other =>
    rw [if_neg fun hopens => by rw [hopener.mpr hopens] at hkind; cases hkind]
    rfl

end

end

end StructuredText
