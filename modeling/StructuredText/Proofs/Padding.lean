import StructuredText.Proofs.LiteralEdits
import StructuredText.Proofs.Preservation
import StructuredText.Spacing.Comment

/-!
# Padding of comments

Comments are padded in two steps: first the blanks before comments are put in, which are moves; then
each comment is padded in its place.

Results:
1. `literalAt_padLiteral`: a padded comment is a comment of its kind.
2. `Repadded.literals_eq`: padding keeps all literals but for the blanks next to delimiters.
-/

namespace StructuredText

open List Literal

namespace Spacing

/-- What becomes of a literal: comments are padded, and strings stay. -/
def padLiteral (kind : Kind) (text : List Char) : List Char :=
  if kind.isComment then padComment kind text else text

/-! ## The parts of a comment -/

/-- The blanks `lead` and `trail` may be put next to the delimiters of a comment, `core` being what
stands between them and `ending` the closing one. -/
structure Pads (core ending lead trail : List Char) : Prop where
  leads : lead = [] ∨ lead = [' ']
  trails : trail = [] ∨ trail = [' '] ∧ ending ≠ []
  bare : core = [] → ending = [] → lead = []

theorem padInside_eq (closed : Bool) (inside : List Char) :
    ∃ lead trail, (lead = [] ∨ lead = [' ']) ∧ (trail = [] ∨ trail = [' '] ∧ closed = true) ∧
      padInside closed inside = lead ++ (inside ++ trail) := by
  obtain ⟨lead, hlead, hled⟩ : ∃ lead, (lead = [] ∨ lead = [' ']) ∧
      (if inside.head?.any isBlank then inside else ' ' :: inside) = lead ++ inside := by
    split
    · exact ⟨[], .inl rfl, rfl⟩
    · exact ⟨[' '], .inr rfl, rfl⟩
  rw [padInside, hled]
  split
  next hclosed =>
    rw [Bool.and_eq_true] at hclosed
    exact ⟨lead, [' '], hlead, .inr ⟨rfl, hclosed.1⟩, append_assoc _ _ _⟩
  · exact ⟨lead, [], hlead, .inl rfl, by rw [append_nil]⟩

/-- What stands between the delimiters of a padded comment. -/
def padCore (core ending : List Char) : List Char :=
  if core.isEmpty then if ending.isEmpty then [] else [' '] else padInside (!ending.isEmpty) core

variable {core ending rest body before : List Char}

theorem padComment_core {kind : Kind} {c d : Char}
    (hending : (if closes kind (c :: d :: (core ++ ending)) then closer kind else []) = ending) :
    padComment kind (c :: d :: (core ++ ending)) = c :: d :: (padCore core ending ++ ending) := by
  have hinside : ((c :: d :: (core ++ ending)).take
      ((c :: d :: (core ++ ending)).length - ending.length)).drop 2 = core := by
    have : (c :: d :: (core ++ ending)).length - ending.length = core.length + 2 := by
      simp only [length_cons, length_append]
      omega
    rw [this]
    simp
  rw [padComment, hending, hinside, padCore]
  cases core with
  | nil => cases ending <;> rfl
  | cons e core => rfl

theorem padCore_eq (core ending : List Char) :
    ∃ lead trail, Pads core ending lead trail ∧ padCore core ending = lead ++ (core ++ trail) := by
  cases core with
  | nil =>
    cases ending with
    | nil => exact ⟨[], [], ⟨.inl rfl, .inl rfl, fun _ _ => rfl⟩, rfl⟩
    | cons e ending => exact ⟨[' '], [], ⟨.inr rfl, .inl rfl, nofun⟩, rfl⟩
  | cons e core =>
    obtain ⟨lead, trail, hlead, htrail, hpad⟩ := padInside_eq (!ending.isEmpty) (e :: core)
    refine ⟨lead, trail, ⟨hlead, htrail.imp_right fun h => ⟨h.1, ?_⟩, nofun⟩, hpad⟩
    rintro rfl
    cases h.2

theorem padComment_eq {kind : Kind} {c d : Char} {core ending : List Char}
    (hending : (if closes kind (c :: d :: (core ++ ending)) then closer kind else []) = ending) :
    ∃ lead trail, Pads core ending lead trail ∧
      padComment kind (c :: d :: (core ++ ending)) =
        c :: d :: (lead ++ (core ++ (trail ++ ending))) := by
  obtain ⟨lead, trail, hpads, hcore⟩ := padCore_eq core ending
  refine ⟨lead, trail, hpads, ?_⟩
  rw [padComment_core hending, hcore, append_assoc, append_assoc]

/-! ## Padded comments are comments -/

theorem commentLength_cons_of_ne {mark closer c : Char} (hc : c ≠ mark) (text : List Char) :
    commentLength mark closer (c :: text) = commentLength mark closer text + 1 := by
  cases text with
  | nil => rfl
  | cons d text => rw [commentLength, if_neg fun h => hc h.1]

theorem commentLength_gap {mark closer : Char} {gap : List Char} (hgap : ∀ c ∈ gap, c ≠ mark)
    (rest : List Char) :
    commentLength mark closer (gap ++ mark :: closer :: rest) = gap.length + 2 := by
  induction gap with
  | nil => rw [nil_append, commentLength, if_pos ⟨rfl, rfl⟩, length_nil]
  | cons c gap ih =>
    rw [cons_append, commentLength_cons_of_ne (hgap c mem_cons_self),
      ih fun d hd => hgap d (mem_cons_of_mem _ hd), length_cons, Nat.add_right_comm]

/-- The first closer is found behind further blanks, too. -/
theorem commentLength_closed {mark closer : Char} (hne : mark ≠ closer) {gap : List Char}
    (hgap : ∀ c ∈ gap, c ≠ mark ∧ c ≠ closer) {rest : List Char} (rest' : List Char) :
    ∀ core : List Char,
      commentLength mark closer (core ++ mark :: closer :: rest) = core.length + 2 →
      commentLength mark closer (core ++ (gap ++ mark :: closer :: rest')) =
        core.length + gap.length + 2
  | [], _ => by
      rw [nil_append, commentLength_gap fun c hc => (hgap c hc).1, length_nil]
      omega
  | [c], _ => by
      -- No closer starts with `c`, as what follows it is neither.
      obtain ⟨d, tail, htail, hd⟩ : ∃ d tail, gap ++ mark :: closer :: rest' = d :: tail ∧
          d ≠ closer := by
        cases gap with
        | nil => exact ⟨_, _, rfl, hne⟩
        | cons d gap => exact ⟨_, _, rfl, (hgap d mem_cons_self).2⟩
      have hrest := @commentLength_gap mark closer gap (fun c hc => (hgap c hc).1) rest'
      rw [htail] at hrest
      rw [singleton_append, htail, commentLength, if_neg fun h => hd h.2, hrest,
        length_singleton]
      omega
  | c :: d :: core, h => by
      simp only [cons_append, commentLength, length_cons] at h ⊢
      split at h
      · omega
      next hopen =>
        have := commentLength_closed hne hgap rest' (d :: core) (by simpa using h)
        rw [cons_append, length_cons] at this
        rw [if_neg hopen, this]
        omega

/-- A comment with `body` behind its first code point becomes one with `body'` there: blanks are put
next to its delimiters, none of which ends or starts with a word character. -/
def PadsTo (body body' : List Char) : Prop :=
  ∃ d core ending lead trail, body = d :: (core ++ ending) ∧
    body' = d :: (lead ++ (core ++ (trail ++ ending))) ∧ Pads core ending lead trail ∧
    (d = '*' ∨ d = '/') ∧ ∀ e ∈ ending.head?, e = '*'

/-- The closer of a comment stands behind its opener. -/
theorem isSuffixOf_closer {c cl : Char} {inside : List Char} :
    (decide (4 ≤ (c :: '*' :: inside).length) && ['*', cl].isSuffixOf (c :: '*' :: inside)) =
      true ↔ ∃ other, inside = other ++ ['*', cl] := by
  rw [Bool.and_eq_true, decide_eq_true_eq, isSuffixOf_iff_suffix]
  constructor
  · rintro ⟨hlength, other, hother⟩
    match other, hother with
    | [], hother | [_], hother => simp [← hother] at hlength
    | _ :: _ :: core, hother =>
      simp only [cons_append, List.cons.injEq] at hother
      exact ⟨core, hother.2.2.symm⟩
  · rintro ⟨other, rfl⟩
    refine ⟨?_, c :: '*' :: other, by simp⟩
    simp only [length_cons, length_append]
    omega

section

variable {kind : Kind} {c cl : Char} {inside : List Char}
  (hcloses : closes kind (c :: '*' :: inside) =
    (decide (4 ≤ (c :: '*' :: inside).length) && ['*', cl].isSuffixOf (c :: '*' :: inside)))
  (hcloser : closer kind = ['*', cl])
include hcloses hcloser

/-- A block or slash comment is closed or not. -/
theorem exists_core :
    ∃ core ending, inside = core ++ ending ∧
      (if closes kind (c :: '*' :: inside) then closer kind else []) = ending ∧
      (ending = ['*', cl] ∨ ending = [] ∧ ∀ other, inside ≠ other ++ ['*', cl]) := by
  by_cases hclosed : closes kind (c :: '*' :: inside) = true
  · rw [hclosed, if_pos rfl]
    rw [hcloses, isSuffixOf_closer] at hclosed
    obtain ⟨core, rfl⟩ := hclosed
    exact ⟨core, ['*', cl], rfl, hcloser, .inl rfl⟩
  · rw [if_neg hclosed]
    rw [hcloses, isSuffixOf_closer, not_exists] at hclosed
    exact ⟨inside, [], (append_nil _).symm, rfl, .inr ⟨rfl, hclosed⟩⟩

theorem exists_padComment :
    ∃ core ending lead trail, inside = core ++ ending ∧ Pads core ending lead trail ∧
      padComment kind (c :: '*' :: inside) = c :: '*' :: (lead ++ (core ++ (trail ++ ending))) ∧
      (ending = ['*', cl] ∨ ending = [] ∧ ∀ other, core ≠ other ++ ['*', cl]) := by
  obtain ⟨core, ending, rfl, hending, hends⟩ := exists_core hcloses hcloser
  obtain ⟨lead, trail, hpads, htext⟩ := padComment_eq hending
  refine ⟨core, ending, lead, trail, rfl, hpads, htext, hends.imp_right fun hopened => ?_⟩
  exact ⟨hopened.1, by simpa [hopened.1] using hopened.2⟩

end

/-- A padded block or slash comment ends where its closer is. -/
theorem commentLength_padded {cl : Char} (hcl : cl ≠ '*' ∧ cl ≠ ' ') {lead trail rest' : List Char}
    (hpads : Pads core ending lead trail)
    (hending : ending = ['*', cl] ∨ ending = [] ∧ ∀ other, core ≠ other ++ ['*', cl])
    (h : commentLength '*' cl (core ++ ending ++ rest) = (core ++ ending).length)
    (hopen : rest = [] → rest' = []) :
    commentLength '*' cl (lead ++ (core ++ (trail ++ ending)) ++ rest') =
      (lead ++ (core ++ (trail ++ ending))).length := by
  have hlead : ∀ text, commentLength '*' cl (lead ++ text) =
      lead.length + commentLength '*' cl text := by
    intro text
    rcases hpads.leads with rfl | rfl
    · simp
    · rw [singleton_append, commentLength_cons_of_ne (by decide)]
      exact Nat.add_comm _ _
  rw [append_assoc, hlead, length_append, Nat.add_left_cancel_iff]
  rcases hending with rfl | ⟨rfl, hopened⟩
  · have htrail : ∀ c ∈ trail, c ≠ '*' ∧ c ≠ cl := by
      rcases hpads.trails with rfl | ⟨rfl, -⟩
      · simp
      · simp [Ne.symm hcl.2]
    have := @commentLength_closed '*' cl (Ne.symm hcl.1) trail htrail rest rest' core
      (by simpa using h)
    simpa [Nat.add_assoc] using this
  · -- The comment is open, so that it ends with both texts.
    have hrest : rest = [] := by
      by_contra hne
      rw [append_nil] at h
      obtain ⟨other, hother⟩ := (commentLength_ends hne core h).1
      exact hopened other hother
    have htrail : trail = [] := by
      rcases hpads.trails with rfl | ⟨-, hne⟩
      · rfl
      · exact absurd rfl hne
    rw [hopen hrest, htrail]
    simpa [hrest] using h

/-- A padded literal is a literal of its kind. Only a literal that is not closed ends with the text,
and stays there. -/
theorem literalAt_padLiteral {kind : Kind} {c : Char}
    (h : literalAt (c :: (body ++ rest)) = some (body.length + 1, kind)) :
    ∃ body', padLiteral kind (c :: body) = c :: body' ∧ (body' = body ∨ PadsTo body body') ∧
      ∀ rest', (rest = [] → rest' = []) → (kind = .lineComment → blankToLineEnd rest') →
        literalAt (c :: (body' ++ rest')) = some (body'.length + 1, kind) := by
  obtain ⟨rfl, hquote, -⟩ | ⟨rfl, rfl, inside, rfl, hlength⟩ | ⟨rfl, rfl, inside, rfl, hlength⟩ |
    ⟨rfl, rfl, inside, rfl, hlength⟩ := literalAt_append_iff.mp h
  · refine ⟨body, rfl, .inl rfl, fun rest' hopen _ => ?_⟩
    exact literalAt_append h (fun _ => hopen) nofun
  · obtain ⟨core, ending, lead, trail, rfl, hpads, htext, hends⟩ :=
      @exists_padComment .blockComment '(' ')' inside rfl rfl
    refine ⟨_, htext, .inr ⟨'*', core, ending, lead, trail, rfl, rfl, hpads, .inl rfl, ?_⟩, ?_⟩
    · rcases hends with rfl | ⟨rfl, -⟩ <;> simp
    · intro rest' hopen _
      refine literalAt_append_iff.mpr (.inr (.inl ⟨rfl, rfl, _, rfl, ?_⟩))
      exact commentLength_padded (by decide) hpads hends hlength hopen
  · obtain ⟨core, ending, lead, trail, rfl, hpads, htext, hends⟩ :=
      @exists_padComment .slashComment '/' '/' inside rfl rfl
    refine ⟨_, htext, .inr ⟨'*', core, ending, lead, trail, rfl, rfl, hpads, .inl rfl, ?_⟩, ?_⟩
    · rcases hends with rfl | ⟨rfl, -⟩ <;> simp
    · intro rest' hopen _
      refine literalAt_append_iff.mpr (.inr (.inr (.inl ⟨rfl, rfl, _, rfl, ?_⟩)))
      exact commentLength_padded (by decide) hpads hends hlength hopen
  · obtain ⟨hinside, htrim, -⟩ := lineCommentLength_append_iff.mp hlength
    obtain ⟨lead, trail, hpads, htext⟩ := @padComment_eq .lineComment '/' '/' inside [] rfl
    have htrail : trail = [] := by
      rcases hpads.trails with rfl | ⟨-, hne⟩
      · rfl
      · exact absurd rfl hne
    rw [htrail] at hpads htext
    rw [append_nil] at htext
    refine ⟨_, htext, .inr ⟨'/', inside, [], lead, [], by simp, rfl, hpads, .inr rfl, by simp⟩, ?_⟩
    intro rest' _ hline
    refine literalAt_append_iff.mpr (.inr (.inr (.inr ⟨rfl, rfl, _, rfl, ?_⟩)))
    refine lineCommentLength_append_iff.mpr ⟨?_, ?_, hline rfl⟩
    · rcases hpads.leads with rfl | rfl
      · simpa using hinside
      · simpa using hinside
    · refine trimRight_eq_self fun e he => isBlank_getLast?_of_trimRight htrim e ?_
      rcases hpads.leads with rfl | rfl
      · simpa using he
      · have hne : inside ≠ [] := fun hnil => absurd (hpads.bare hnil rfl) (by simp)
        rw [append_nil, append_nil, getLast?_append_of_ne_nil _ hne] at he
        exact he

/-! ## Blanks before comments -/

/-- The cells with a blank before each comment, unless it starts its line or stands behind a blank.
`last` stands before the cells. -/
def spaceComments (last : Option Char) : List Cell → List Cell
  | [] => []
  | ⟨c, .opening kind⟩ :: rest =>
      codeCells (if kind.isComment then gapBefore last else []) ++
        ⟨c, .opening kind⟩ :: spaceComments (some c) rest
  | cell :: rest => cell :: spaceComments (some cell.char) rest

theorem takeWhile_spaceComments (cells : List Cell) : ∀ last,
    (spaceComments last cells).takeWhile Cell.isInside = cells.takeWhile Cell.isInside := by
  induction cells with
  | nil => exact fun _ => rfl
  | cons cell rest ih =>
    intro last
    obtain ⟨c, role⟩ := cell
    cases role with
    | code => rfl
    | inside kind =>
      simp only [spaceComments, takeWhile_cons]
      rw [ih]
    | opening kind =>
      rw [spaceComments]
      cases hgap : codeCells (if kind.isComment then gapBefore last else []) with
      | nil => rfl
      | cons cell gap =>
        have hcell : cell.role = .code := role_of_mem_codeCells (hgap ▸ mem_cons_self)
        rw [cons_append, takeWhile_cons_of_neg, takeWhile_cons_of_neg] <;>
          simp [Cell.isInside, hcell]

/-- The blanks before comments and those in comments can be put in one after the other. -/
theorem rewriteLiterals_spaceComments (cells : List Cell) : ∀ before before',
    rewriteLiterals Kind.isComment (fun last kind body => gapBefore last ++ padComment kind body)
        before cells =
      rewriteLiterals Kind.isComment (fun _ kind body => padComment kind body) before'
        (spaceComments before.head? cells) := by
  induction cells with
  | nil => exact fun _ _ => rfl
  | cons cell rest ih =>
    intro before before'
    obtain ⟨c, role⟩ := cell
    cases role with
    | code => exact congrArg (c :: ·) (ih _ _)
    | inside kind => exact ih _ _
    | opening kind =>
      have hcode : ∀ (gap : List Char) (before : List Char) (cells : List Cell),
          rewriteLiterals Kind.isComment (fun _ kind body => padComment kind body) before
              (codeCells gap ++ cells) =
            gap ++ rewriteLiterals Kind.isComment (fun _ kind body => padComment kind body)
              (gap.reverse ++ before) cells := by
        intro gap
        induction gap with
        | nil => exact fun _ _ => rfl
        | cons d gap ihgap =>
          intro before cells
          rw [codeCells_cons, cons_append, rewriteLiterals, ihgap]
          simp
      rw [spaceComments, hcode, rewriteLiterals, rewriteLiterals, takeWhile_spaceComments,
        ih (c :: before)
          (c :: ((if kind.isComment then gapBefore before.head? else []).reverse ++ before'))]
      split <;> simp

theorem isLayoutBlank_of_mem_gapBefore {last : Option Char} :
    ∀ c ∈ gapBefore last, isLayoutBlank c = true := by
  cases last with
  | none => simp [gapBefore]
  | some c =>
    rw [gapBefore]
    split
    · simp
    · decide

/-- Comments start with a parenthesis or a slash. -/
theorem Marked.opening_of_isComment {cells : List Cell} (h : Marked recognize before cells)
    {c : Char} {kind : Kind} (hmem : ⟨c, .opening kind⟩ ∈ cells) (hkind : kind.isComment = true) :
    c = '(' ∨ c = '/' := by
  induction h with
  | nil => cases hmem
  | code _ _ ih =>
    rcases mem_cons.mp hmem with heq | hmem
    · cases heq
    · exact ih hmem
  | literal hfind _ ih =>
    rcases mem_append.mp hmem with hmem | hmem
    · rcases mem_cons.mp hmem with heq | hmem
      · cases heq
        obtain ⟨rfl, -⟩ | ⟨-, rfl, -⟩ | ⟨-, rfl, -⟩ | ⟨-, rfl, -⟩ := literalAt_append_iff.mp hfind
        · cases hkind
        · exact .inl rfl
        · exact .inr rfl
        · exact .inr rfl
      · obtain ⟨d, -, heq⟩ := mem_map.mp hmem
        cases heq
    · exact ih hmem

/-- Putting blanks before comments is a sequence of moves. -/
theorem spaceComments_respacing (cells : List Cell) : ∀ left,
    (∀ c kind, ⟨c, .opening kind⟩ ∈ cells → kind.isComment = true → c = '(' ∨ c = '/') →
    Respacing .strict (left ++ cells) (left ++ spaceComments (chars left).getLast? cells) := by
  induction cells with
  | nil => exact fun _ _ => .refl
  | cons cell rest ih =>
    intro left hopening
    have hrest := ih (left ++ [cell]) fun c kind hmem =>
      hopening c kind (mem_cons_of_mem _ hmem)
    have hlast : (chars (left ++ [cell])).getLast? = some cell.char := by simp
    rw [hlast, append_assoc, append_assoc] at hrest
    obtain ⟨c, role⟩ := cell
    cases role with
    | code | inside kind => exact hrest
    | opening kind =>
      rw [spaceComments]
      split
      next hkind =>
        refine .tail hrest ?_
        have hc := hopening c kind mem_cons_self hkind
        have := @Move.mk .strict left (⟨c, .opening kind⟩ :: spaceComments (some c) rest) []
          (gapBefore (chars left).getLast?) (by simp) isLayoutBlank_of_mem_gapBefore
          (by simp [Cell.isInside])
          (fun _ _ => .of_head (d := c) rfl
            (by rcases hc with rfl | rfl <;> decide)
            (fun _ => by rcases hc with rfl | rfl <;> decide)
            fun _ => by rcases hc with rfl | rfl <;> decide)
          (fun hne => absurd rfl hne) (by simp)
        simpa using this
      · exact hrest

/-! ## Padding in place -/

/-- Blanks may be put in where no words meet. -/
theorem outline_insert {left right gap : List Char} (hgap : ∀ c ∈ gap, isLayoutBlank c = true)
    (h : gap ≠ [] → ∀ c ∈ left.getLast?, ∀ d ∈ right.head?,
      isWordChar c = false ∨ isWordChar d = false) :
    skeleton (left ++ (gap ++ right)) = skeleton (left ++ right) ∧
      wordJoints (left ++ (gap ++ right)) = wordJoints (left ++ right) := by
  have hmove := @Move.mk .parting (codeCells left) (codeCells right) [] gap (by simp) hgap
    (by cases right <;> simp [Cell.isInside])
    (fun _ hne => ⟨fun _ cell hcell => congrArg Role.untype
        (role_of_mem_codeCells (mem_of_getLast? hcell)), by simpa using h hne, nofun, nofun⟩)
    (fun hne => absurd rfl hne) (by simp)
  have hskeleton := hmove.skeleton_eq
  have hjoints := hmove.wordJoints_eq
  simp only [chars_append, chars_codeCells, append_assoc] at hskeleton hjoints
  exact ⟨hskeleton, hjoints⟩

theorem padsTo_outline {body' : List Char} (h : body' = body ∨ PadsTo body body')
    (left right : List Char) :
    skeleton (left ++ (body' ++ right)) = skeleton (left ++ (body ++ right)) ∧
      wordJoints (left ++ (body' ++ right)) = wordJoints (left ++ (body ++ right)) := by
  rcases h with rfl | ⟨d, core, ending, lead, trail, rfl, rfl, hpads, hd, hending⟩
  · exact ⟨rfl, rfl⟩
  have hlead : ∀ c ∈ lead, isLayoutBlank c = true := by
    rcases hpads.leads with rfl | rfl <;> decide
  have htrail : ∀ c ∈ trail, isLayoutBlank c = true := by
    rcases hpads.trails with rfl | ⟨rfl, -⟩ <;> decide
  have hfirst := @outline_insert (left ++ [d]) (core ++ (trail ++ (ending ++ right))) lead hlead
    (by
      intro _ c hc _ _
      rw [getLast?_concat] at hc
      cases hc
      exact .inl (by rcases hd with rfl | rfl <;> decide))
  have hsecond := @outline_insert (left ++ d :: core) (ending ++ right) trail htrail (by
    intro hne c _ e he
    rcases hpads.trails with rfl | ⟨-, hclosed⟩
    · exact absurd rfl hne
    · rw [head?_append_of_ne_nil _ hclosed] at he
      rw [hending e he]
      exact .inr (by decide))
  simp only [append_assoc, cons_append, nil_append] at hfirst hsecond ⊢
  exact ⟨hfirst.1.trans hsecond.1, hfirst.2.trans hsecond.2⟩

/-- Each literal is padded, and all else stays. -/
inductive Repadded : List Cell → List Cell → Prop
  | nil : Repadded [] []
  | code {c : Char} {rest out : List Cell} :
      opensLiteral c (chars rest).head? = false → Repadded rest out →
      Repadded (⟨c, .code⟩ :: rest) (⟨c, .code⟩ :: out)
  | literal {c : Char} {kind : Kind} {body body' : List Char} {rest out : List Cell} :
      literalAt (c :: (body ++ chars rest)) = some (body.length + 1, kind) →
      padLiteral kind (c :: body) = c :: body' → Repadded rest out →
      Repadded (literalCells kind c body ++ rest) (literalCells kind c body' ++ out)

theorem exists_repadded {cells : List Cell} (h : Marked recognize before cells) :
    ∃ out, Repadded cells out ∧
      rewriteLiterals Kind.isComment (fun _ kind body => padComment kind body) before cells =
        chars out := by
  induction h with
  | nil => exact ⟨[], .nil, rfl⟩
  | code hfind _ ih =>
    obtain ⟨out, hout, htext⟩ := ih
    refine ⟨_, .code (literalAt_eq_none_iff.mp hfind) hout, ?_⟩
    rw [rewriteLiterals, htext, chars_cons]
  | literal hfind hrest ih =>
    obtain ⟨out, hout, htext⟩ := ih
    obtain ⟨body', hbody', -⟩ := literalAt_padLiteral hfind
    refine ⟨_, .literal hfind hbody' hout, ?_⟩
    rw [rewriteLiterals_literalCells hrest.head?_not_inside, htext, chars_append,
      chars_literalCells, ← hbody']
    rfl

namespace Repadded

variable {cells out : List Cell}

section

variable (h : Repadded cells out)
include h

theorem head?_eq : out.head? = cells.head? := by
  cases h with
  | nil | code _ _ | literal _ _ _ => rfl

theorem eq_nil_iff : out = [] ↔ cells = [] := by
  rw [← head?_eq_none_iff, ← head?_eq_none_iff, h.head?_eq]

theorem head?_not_inside :
    ∀ cell ∈ out.head?, cell.isInside = false := by
  cases h with
  | nil => simp
  | code _ _ => simp [Cell.isInside]
  | literal _ _ _ => simp [literalCells, Cell.isInside]

theorem head?_not_inside' :
    ∀ cell ∈ cells.head?, cell.isInside = false := by
  rw [← h.head?_eq]
  exact h.head?_not_inside

/-- Padding keeps all literals but for the blanks next to delimiters. -/
theorem literals_eq :
    literals out = (literals cells).map fun entry => (entry.1, padLiteral entry.1 entry.2) := by
  induction h with
  | nil => rfl
  | code _ _ ih => exact ih
  | literal _ hpad hout ih =>
    rw [literals_literalCells hout.head?_not_inside, literals_literalCells hout.head?_not_inside',
      map_cons, ih, hpad]

theorem blankToLineEnd (hblank : blankToLineEnd (chars cells)) :
    Literal.blankToLineEnd (chars out) := by
  induction h with
  | nil => exact hblank
  | @code c rest out _ _ ih =>
    by_cases hc : c = '\n'
    · subst hc
      exact @blankToLineEnd_congr ['\n'] _ _ hblank (by simp)
    · refine @blankToLineEnd_append [c] _ ?_ (.inr (ih ?_))
      · simpa [hc] using hblank c
      · exact @blankToLineEnd_of_append [c] _ hblank (by simp [Ne.symm hc])
  | @literal c kind body body' rest out hfind _ _ _ =>
    -- A literal does not start with a blank.
    have hopens : opensLiteral c (body ++ chars rest).head? = true := by
      by_contra hopens
      rw [Bool.not_eq_true] at hopens
      rw [literalAt_eq_none_iff.mpr hopens] at hfind
      cases hfind
    have hc : isBlank c = true := by
      refine hblank c ?_
      have : c ≠ '\n' := by
        rintro rfl
        simp [opensLiteral] at hopens
      simp [literalCells, this]
    rw [opensLiteral_of_isBlank hc] at hopens
    cases hopens

/-- Padded literals are found where they were. -/
theorem marked (before : List Char) : Marked recognize before out := by
  induction h generalizing before with
  | nil => exact .nil
  | @code c rest out hopens hout ih =>
    refine .code (literalAt_eq_none_iff.mpr ?_) (ih _)
    rw [chars, head?_map, hout.head?_eq, ← head?_map]
    exact hopens
  | @literal c kind body body' rest out hfind hpad hout ih =>
    obtain ⟨_, hpad', -, hliteral⟩ := literalAt_padLiteral hfind
    rw [hpad] at hpad'
    cases hpad'
    refine .literal (hliteral _ ?_ ?_) (ih _)
    · intro hnil
      rw [hout.eq_nil_iff.mpr (map_eq_nil_iff.mp hnil)]
      rfl
    · rintro rfl
      exact hout.blankToLineEnd (blankToLineEnd_of_literalAt hfind)

/-- Padding changes blanks only, and none between words. -/
theorem outline_eq (left : List Char) :
    skeleton (left ++ chars out) = skeleton (left ++ chars cells) ∧
      wordJoints (left ++ chars out) = wordJoints (left ++ chars cells) := by
  induction h generalizing left with
  | nil => exact ⟨rfl, rfl⟩
  | @code c rest out _ _ ih => simpa using ih (left ++ [c])
  | @literal c kind body body' rest out hfind hpad _ ih =>
    have hrest := ih (left ++ c :: body')
    obtain ⟨_, hpad', hparts, -⟩ := literalAt_padLiteral hfind
    rw [hpad] at hpad'
    cases hpad'
    have hbody := padsTo_outline hparts (left ++ [c]) (chars rest)
    simp only [chars_append, chars_literalCells, append_assoc, cons_append,
      nil_append] at hrest hbody ⊢
    exact ⟨hrest.1.trans hbody.1, hrest.2.trans hbody.2⟩

end

end Repadded

theorem padComments_chars {cells : List Cell} (h : Marked recognize [] cells) :
    padComments (chars cells) =
      rewriteLiterals Kind.isComment (fun _ kind body => padComment kind body) []
        (spaceComments none cells) := by
  have hsteps := rewriteLiterals_spaceComments cells [] []
  rw [← applyEdits_literals h rfl] at hsteps
  rw [padComments, h.scan_eq]
  exact hsteps

/-- Padding the comments of a text. -/
theorem exists_padded (text : List Char) :
    ∃ spaced, Respaced .strict text spaced ∧ ∀ cells, Marked recognize [] cells →
      chars cells = spaced → ∃ out, chars out = padComments text ∧ Repadded cells out := by
  obtain ⟨cells, rfl, hmarked⟩ := exists_marked_recognize text
  have hmoves := spaceComments_respacing cells [] fun c kind hmem hkind =>
    Marked.opening_of_isComment hmarked hmem hkind
  refine ⟨chars (spaceComments none cells), ?_, ?_⟩
  · intro cells' hmarked' heq
    rw [hmarked'.unique hmarked heq]
    exact ⟨_, rfl, hmoves⟩
  · intro cells' hmarked' heq
    rw [hmarked'.unique (hmoves.marked hmarked) heq]
    obtain ⟨out, hout, htext⟩ := exists_repadded (hmoves.marked hmarked)
    exact ⟨out, htext.symm.trans (padComments_chars hmarked).symm, hout⟩

/-- A literal with its kind, padded. -/
def padEntry (entry : Kind × List Char) : Kind × List Char :=
  (entry.1, padLiteral entry.1 entry.2)

theorem literalsOf_padComments (text : List Char) :
    literalsOf (padComments text) = (literalsOf text).map padEntry := by
  obtain ⟨spaced, hspaced, hpadded⟩ := exists_padded text
  obtain ⟨cells, hcells, hmarked⟩ := exists_marked_recognize spaced
  obtain ⟨out, hout, hrepadded⟩ := hpadded cells hmarked hcells
  rw [← hout, (hrepadded.marked []).literalsOf_eq, hrepadded.literals_eq,
    ← hmarked.literalsOf_eq, hcells, hspaced.keeps.literals]
  rfl

theorem outline_padComments (text : List Char) :
    skeleton (padComments text) = skeleton text ∧
      wordJoints (padComments text) = wordJoints text := by
  obtain ⟨spaced, hspaced, hpadded⟩ := exists_padded text
  obtain ⟨cells, hcells, hmarked⟩ := exists_marked_recognize spaced
  obtain ⟨out, hout, hrepadded⟩ := hpadded cells hmarked hcells
  have houtline := hrepadded.outline_eq []
  rw [nil_append, nil_append, hout, hcells] at houtline
  exact ⟨houtline.1.trans hspaced.keeps.skeleton, houtline.2.trans hspaced.keeps.wordJoints⟩

end Spacing

end StructuredText
