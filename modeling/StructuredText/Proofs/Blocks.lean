import StructuredText.Proofs.BlockDepth
import StructuredText.Proofs.OpenLiterals
import StructuredText.Proofs.Spelling

/-!
# Nested blocks

A program whose blocks are well nested is a forest of lines. Indentation only counts openers and
closers from the top of the text down, but on the text of a forest it gives each line the number of
blocks that hold it.

Results:
1. `Spelled.append_feed`: a literal that is closed is read alike if further lines follow.
2. `Marked.split_feed`: so the literals of a text are those of its lines, if each line closes its
   own.
3. `placeAll_walks`: where lines stand then depends on their kinds only.
4. `Forest.passes`: walking over a forest comes back to the depth it started from.
5. `levels_forest`: levels, final depth and unmatched closers of the text of a forest.
-/

namespace StructuredText

open List Literal

variable {texts : List (List Char)} {cells : List Cell} {line : List Char}

/-! ## Literals that their line closes -/

namespace Literal

/-- A quote that a string holds stands behind an odd number of dollars. -/
theorem StringBody.odd_trailingDollars {quote : Char} {text : List Char}
    (h : StringBody quote text) :
    ∀ inside, text = inside ++ [quote] → trailingDollars inside % 2 = 1 := by
  induction h with
  | nil => simp
  | @plain c rest hquote hdollar _ ih =>
    intro inside htext
    cases inside with
    | nil => exact absurd (cons_eq_cons.mp htext).1 hquote
    | cons d inside =>
      obtain ⟨rfl, hrest⟩ := cons_eq_cons.mp htext
      rw [trailingDollars_cons_of_ne hdollar]
      exact ih inside hrest
  | @escaped c rest hbody ih =>
    intro inside htext
    rcases inside with _ | ⟨d, _ | ⟨d', inside⟩⟩
    · simp at htext
    · obtain ⟨rfl, -⟩ := cons_eq_cons.mp htext
      rfl
    · simp only [cons_append, cons_eq_cons] at htext
      obtain ⟨rfl, rfl, hrest⟩ := htext
      have hodd := ih inside hrest
      -- Either the dollars at the end stop before the escape, or the escape adds two to them.
      have hle := trailingDollars_le inside
      by_cases hc : c = '$'
      · subst hc
        have hone := trailingDollars_dollar_cons inside
        have htwo := trailingDollars_dollar_cons ('$' :: inside)
        rw [length_cons] at htwo
        omega
      · have hone := trailingDollars_cons_of_ne hc inside
        have htwo := trailingDollars_dollar_cons (c :: inside)
        rw [length_cons] at htwo
        omega

theorem not_closes_of_stringBody {quote : Char} {body : List Char} (h : StringBody quote body)
    (hquote : IsQuote quote) : closes .string (quote :: body) = false := by
  by_contra hcloses
  rw [Bool.not_eq_false] at hcloses
  simp only [closes, Bool.and_eq_true, beq_iff_eq, decide_eq_true_eq, Bool.not_eq_true',
    head?_cons, length_cons] at hcloses
  obtain ⟨⟨hlength, hlast⟩, hescape⟩ := hcloses
  rcases eq_nil_or_concat body with rfl | ⟨inside, d, rfl⟩
  · simp at hlength
  · rw [concat_eq_append, ← cons_append] at hlast hescape
    rw [getLast?_concat, Option.some.injEq] at hlast
    rw [dropLast_concat] at hescape
    have hodd := h.odd_trailingDollars inside (by rw [hlast, concat_eq_append])
    rw [← trailingDollars_cons_of_ne hquote.ne_dollar inside] at hodd
    rw [endsWithEscape, ← trailingDollars, hodd] at hescape
    cases hescape

/-- A literal that is closed is one whatever lines follow. -/
theorem Spelled.append_feed {kind : Kind} {literal rest : List Char}
    (h : Spelled kind literal rest) (hcloses : closes kind literal = true) (others : List Char) :
    Spelled kind literal (rest ++ '\n' :: others) := by
  cases h with
  | closedString hquote hbody => exact .closedString hquote hbody
  | openString hquote hbody =>
    rw [not_closes_of_stringBody hbody hquote] at hcloses
    cases hcloses
  | openEscape hquote hbody =>
    simp only [closes, Bool.and_eq_true, beq_iff_eq] at hcloses
    have hlast := hcloses.1.2
    rw [← cons_append, getLast?_concat, cons_append, head?_cons,
      Option.some.injEq] at hlast
    exact absurd hlast.symm hquote.ne_dollar
  | closedComment hdelimits hbody => exact .closedComment hdelimits hbody
  | @openComment _ opener closer body hdelimits hbody =>
    refine absurd ?_ hbody
    have hsuffix : ['*', closer] <:+ opener :: '*' :: body ∧ 2 ≤ body.length := by
      cases hdelimits <;> simpa [closes, and_comm] using hcloses
    obtain ⟨⟨init, hinit⟩, hlength⟩ := hsuffix
    obtain ⟨d, d', init, rfl⟩ : ∃ d d' init', init = d :: d' :: init' := by
      have := congrArg List.length hinit
      simp only [length_append, length_cons, length_nil] at this
      rcases init with _ | ⟨d, _ | ⟨d', init⟩⟩
      · simp only [length_nil] at this
        omega
      · simp only [length_cons, length_nil] at this
        omega
      · exact ⟨d, d', init, rfl⟩
    simp only [cons_append, cons_eq_cons] at hinit
    rw [← hinit.2.2]
    exact (suffix_append init _).isInfix
  | lineComment hbody hlast hrest =>
    refine .lineComment hbody hlast ?_
    rwa [takeWhile_append_of_head (by rintro c ⟨⟩; rfl)]

theorem opensLiteral_append_feed {c : Char} {rest others : List Char}
    (h : opensLiteral c rest.head? = false) :
    opensLiteral c (rest ++ '\n' :: others).head? = false := by
  cases rest with
  | nil => exact opensLiteral_congr_of_isBlank h rfl
  | cons d rest => exact h

end Literal

/-- The literals of a line that closes them, and behind it those of further lines. -/
theorem Marked.append_feed {before : List Char} {first : List Cell}
    (h : Marked recognize before first) (hcloses : ∀ entry ∈ literals first, closes entry.1 entry.2)
    {rest : List Cell} (hrest : Marked recognize ('\n' :: ((chars first).reverse ++ before)) rest) :
    Marked recognize before (first ++ ⟨'\n', .code⟩ :: rest) := by
  induction h with
  | nil => exact .code (literalAt_eq_none_iff.mpr (opensLiteral_of_isBlank rfl _)) hrest
  | @code before c first hfind _ ih =>
    refine .code ?_ (ih hcloses (by simpa using hrest))
    change literalAt (c :: chars (first ++ _)) = none
    rw [chars_append, chars_cons]
    exact literalAt_eq_none_iff.mpr (opensLiteral_append_feed (literalAt_eq_none_iff.mp hfind))
  | @literal before body c kind first hfind hmarked ih =>
    rw [literals_literalCells hmarked.head?_not_inside] at hcloses
    rw [append_assoc]
    refine .literal ?_ (ih (fun entry hentry => hcloses entry (mem_cons_of_mem _ hentry))
      (by simpa [chars_append] using hrest))
    rw [chars_append, chars_cons]
    exact literalAt_eq_some_iff.mpr
      ((literalAt_eq_some_iff.mp hfind).append_feed (hcloses _ mem_cons_self) _)

/-- A line that closes its literals is marked by itself. -/
theorem Marked.split_feed {before others : List Char} (h : Marked recognize before cells)
    (hcells : chars cells = line ++ '\n' :: others) (hline : unterminated line = none) :
    ∃ first rest, cells = first ++ ⟨'\n', .code⟩ :: rest ∧ chars first = line ∧
      chars rest = others ∧ ∀ cell ∈ rest.head?, cell.isInside = false := by
  obtain ⟨first, rfl, hfirst⟩ := exists_marked_recognize line
  obtain ⟨rest, rfl, hrest⟩ := exists_marked_recognize others
  have hcloses : ∀ entry ∈ literals first, closes entry.1 entry.2 := by
    have hsome := isSome_unterminated (chars first)
    rw [hline, hfirst.literalsOf_eq] at hsome
    simpa using hsome.symm
  have hwhole : Marked recognize before (first ++ ⟨'\n', .code⟩ :: rest) :=
    hfirst.rebase.append_feed hcloses hrest.rebase
  have heq := h.unique hwhole (by rw [hcells, chars_append, chars_cons])
  exact ⟨first, rest, heq, rfl, rfl, hrest.head?_not_inside⟩

/-! ## Walking over the kinds of lines -/

namespace Indentation

/-- The levels of lines of the given kinds from a depth on. -/
def levelsFrom (depth : Nat) : List LineKind → List Nat
  | [] => []
  | kind :: kinds => levelAt kind depth :: levelsFrom (depthAfter kind depth) kinds

/-- The depth behind lines of the given kinds. -/
def depthThrough (depth : Nat) (kinds : List LineKind) : Nat :=
  kinds.foldl (fun depth kind => depthAfter kind depth) depth

/-- Each closer closes a block that is open. -/
def Matched (depth : Nat) : List LineKind → Prop
  | [] => True
  | kind :: kinds => (kind = .closer → depth ≠ 0) ∧ Matched (depthAfter kind depth) kinds

theorem levelsFrom_append (first second : List LineKind) : ∀ depth,
    levelsFrom depth (first ++ second) =
      levelsFrom depth first ++ levelsFrom (depthThrough depth first) second := by
  induction first with
  | nil => exact fun _ => rfl
  | cons kind first ih => exact fun depth => congrArg _ (ih (depthAfter kind depth))

theorem depthThrough_append (depth : Nat) (first second : List LineKind) :
    depthThrough depth (first ++ second) = depthThrough (depthThrough depth first) second :=
  foldl_append

theorem matched_append (first second : List LineKind) : ∀ depth,
    Matched depth (first ++ second) ↔
      Matched depth first ∧ Matched (depthThrough depth first) second := by
  induction first with
  | nil => simp [Matched, depthThrough]
  | cons kind first ih =>
    intro depth
    rw [cons_append, Matched, Matched, ih, and_assoc]
    rfl

/-- The lines are where lines of the given kinds stand from a depth on. -/
inductive Walks : Nat → List LineKind → List IndentedLine → Prop
  | nil {depth : Nat} : Walks depth [] []
  | cons {depth : Nat} {kind : LineKind} {kinds : List LineKind} {line : IndentedLine}
      {others : List IndentedLine} :
      line.kind = some kind → line.level = levelAt kind depth →
      line.depth = depthAfter kind depth → Walks (depthAfter kind depth) kinds others →
      Walks depth (kind :: kinds) (line :: others)

namespace Walks

variable {depth : Nat} {kinds : List LineKind} {placed : List IndentedLine}

theorem levels_eq (h : Walks depth kinds placed) :
    placed.map (·.level) = levelsFrom depth kinds := by
  induction h with
  | nil => rfl
  | cons _ hlevel _ _ ih => rw [map_cons, hlevel, ih, levelsFrom]

theorem unmatchedFrom_eq_nil (h : Walks depth kinds placed) (hmatched : Matched depth kinds) :
    ∀ number, unmatchedFrom number depth placed = [] := by
  induction h with
  | nil => exact fun _ => rfl
  | cons hkind _ hdepth _ ih =>
    intro number
    rw [unmatchedFrom, if_neg, hdepth]
    · exact ih hmatched.2 (number + 1)
    · rw [hkind, Option.some.injEq]
      exact fun ⟨hcloser, hzero⟩ => hmatched.1 hcloser hzero

/-- The depth behind the last of the lines. -/
theorem getLast?_depth (h : Walks depth kinds placed) (hkinds : kinds ≠ []) :
    placed.getLast?.map (·.depth) = some (depthThrough depth kinds) := by
  induction h with
  | nil => exact absurd rfl hkinds
  | @cons depth kind kinds line others _ _ hdepth hothers ih =>
    cases hothers with
    | nil => exact congrArg some hdepth
    | cons => exact ih (cons_ne_nil _ _)

end Walks

/-! ## Lines that close their literals -/

/-- A line that is not blank and leaves no literal open. -/
structure IsWhole (line : List Char) : Prop where
  single : '\n' ∉ line
  filled : trim line ≠ []
  closed : unterminated line = none

theorem ofLine_eq_other (h : trim line = []) : LineKind.ofLine line = .other := by
  have hnil : LineKind.ofLine line = LineKind.ofLine [] := ofLine_of_trim (by rw [h]; rfl)
  rw [hnil]
  decide

theorem contentOf_ne_nil (h : trim line ≠ []) (endsInLiteral : Bool) :
    contentOf endsInLiteral line ≠ [] := by
  intro hnil
  rw [contentOf] at hnil
  split at hnil
  · exact h (by rw [← trim_trimLeft, hnil]; rfl)
  · exact h hnil

/-- A line that starts outside literals and is not blank. -/
theorem place_outside {left right : List Cell} (hmarked : Marked recognize [] cells)
    (hcells : cells = left ++ right) (hright : ∀ cell ∈ right.head?, cell.isInside = false)
    (hline : trim line ≠ []) (depth : Nat) :
    ∃ text, place (spansFrom 0 cells).toArray left.length depth line =
      ⟨text, some (LineKind.ofLine line), levelAt (LineKind.ofLine line) depth,
        depthAfter (LineKind.ofLine line) depth⟩ := by
  unfold place
  split
  next span hspan =>
    obtain ⟨cell, hcell, hinside⟩ := inside_of_filter_spanAt hmarked hcells hspan
    rw [hright cell hcell] at hinside
    cases hinside
  next hnone =>
    rw [codeLine, if_neg (by simpa using contentOf_ne_nil hline _)]
    simp only [ofLine_contentOf]
    exact ⟨_, rfl⟩

/-- Whole lines stand where their kinds say. -/
theorem placeAll_walks (hmarked : Marked recognize [] cells)
    (hwhole : ∀ line ∈ texts, IsWhole line) :
    ∀ left right depth, cells = left ++ right → chars right = joinLines texts →
      (∀ cell ∈ right.head?, cell.isInside = false) →
      Walks depth (texts.map LineKind.ofLine)
        (placeAll (spansFrom 0 cells).toArray left.length depth texts) := by
  induction texts with
  | nil => exact fun _ _ _ _ _ _ => .nil
  | cons line others ih =>
    intro left right depth hcells hright hhead
    obtain ⟨hline, hothers⟩ := forall_mem_cons.mp hwhole
    obtain ⟨text, hplace⟩ := place_outside hmarked hcells hhead hline.filled depth
    rw [placeAll, hplace, map_cons]
    refine .cons rfl rfl rfl ?_
    rcases eq_or_ne others [] with rfl | hne
    · exact .nil
    · rw [joinLines_cons hne] at hright
      obtain ⟨first, rest, rfl, rfl, hrest, hhead'⟩ :=
        (hmarked.of_append hcells hhead).split_feed hright hline.closed
      have hlater := ih hothers (left ++ (first ++ [⟨'\n', .code⟩])) rest
        (depthAfter (LineKind.ofLine (chars first)) depth) (by rw [hcells]; simp) hrest hhead'
      have hlength : (left ++ (first ++ [(⟨'\n', .code⟩ : Cell)])).length =
          left.length + (chars first).length + 1 := by simp [Nat.add_assoc]
      rwa [hlength] at hlater

theorem lines_joinLines (hne : texts ≠ []) (hwhole : ∀ line ∈ texts, IsWhole line) :
    lines (joinLines texts) = texts := by
  induction texts with
  | nil => exact absurd rfl hne
  | cons line others ih =>
    obtain ⟨hline, hothers⟩ := forall_mem_cons.mp hwhole
    rcases eq_or_ne others [] with rfl | hne'
    · exact lines_of_not_mem hline.single
    · rw [joinLines_cons hne', lines_append hline.single, ih hne' hothers]

theorem scan_walks (hne : texts ≠ []) (hwhole : ∀ line ∈ texts, IsWhole line) :
    Walks 0 (texts.map LineKind.ofLine) (scan (joinLines texts)) := by
  obtain ⟨cells, hcells, hmarked⟩ := exists_marked_recognize (joinLines texts)
  rw [scan, lines_joinLines hne hwhole, ← hcells, hmarked.scan_eq]
  exact placeAll_walks hmarked hwhole [] cells 0 rfl hcells hmarked.head?_not_inside

end Indentation

/-! ## Forests of blocks -/

/-- A line of one of the given kinds that closes its literals. -/
structure WholeLine (kinds : List LineKind) where
  text : List Char
  single : '\n' ∉ text
  closed : unterminated text = none
  kind_mem : LineKind.ofLine text ∈ kinds

mutual

/-- Lines and blocks one after another. -/
inductive Forest where
  | nil
  | leaf (line : WholeLine [.other, .comment]) (filled : trim line.text ≠ []) (rest : Forest)
  | block (opener : WholeLine [.opener]) (body : Body) (closer : WholeLine [.closer])
      (rest : Forest)

/-- What a block holds: forests, and between them the lines that continue the block. -/
inductive Body where
  | last (part : Forest)
  | next (part : Forest) (separator : WholeLine [.continuation, .caseLabel]) (rest : Body)

end

mutual

/-- The lines of a forest from top to bottom. -/
def Forest.lines : Forest → List (List Char)
  | .nil => []
  | .leaf line _ rest => line.text :: rest.lines
  | .block opener body closer rest =>
      opener.text :: (body.lines ++ closer.text :: rest.lines)

def Body.lines : Body → List (List Char)
  | .last part => part.lines
  | .next part separator rest => part.lines ++ separator.text :: rest.lines

end

mutual

/-- The number of blocks around each line of a forest that stands inside `depth` blocks. -/
def Forest.levels (depth : Nat) : Forest → List Nat
  | .nil => []
  | .leaf _ _ rest => depth :: rest.levels depth
  | .block _ body _ rest => depth :: (body.levels depth ++ depth :: rest.levels depth)

/-- The levels of the lines of a block whose opener is at level `depth`. The lines that continue the
block are at the level of the opener, all others inside the block. -/
def Body.levels (depth : Nat) : Body → List Nat
  | .last part => part.levels (depth + 1)
  | .next part _ rest => part.levels (depth + 1) ++ depth :: rest.levels depth

end

namespace Indentation

/-- Walking over the lines gives the levels, comes back to the depth, and closes no block that was
open before. -/
structure Passes (depth : Nat) (texts : List (List Char)) (levels : List Nat) : Prop where
  levels_eq : levelsFrom depth (texts.map LineKind.ofLine) = levels
  depth_eq : depthThrough depth (texts.map LineKind.ofLine) = depth
  matched : Matched depth (texts.map LineKind.ofLine)

namespace Passes

variable {depth level : Nat} {line opener closer : List Char} {first second : List (List Char)}
  {levels levels' : List Nat}

theorem nil : Passes depth [] [] :=
  ⟨rfl, rfl, trivial⟩

theorem append (h : Passes depth first levels) (h' : Passes depth second levels') :
    Passes depth (first ++ second) (levels ++ levels') where
  levels_eq := by rw [map_append, levelsFrom_append, h.levels_eq, h.depth_eq, h'.levels_eq]
  depth_eq := by rw [map_append, depthThrough_append, h.depth_eq, h'.depth_eq]
  matched := by
    rw [map_append, matched_append, h.depth_eq]
    exact ⟨h.matched, h'.matched⟩

/-- A line of a kind that moves no depth. -/
theorem cons {kind : LineKind} (hkind : LineKind.ofLine line = kind)
    (hlevel : levelAt kind depth = level)
    (hdepth : depthAfter kind depth = depth) (hcloser : kind ≠ .closer)
    (h : Passes depth first levels) : Passes depth (line :: first) (level :: levels) where
  levels_eq := by rw [map_cons, hkind, levelsFrom, hlevel, hdepth, h.levels_eq]
  depth_eq := by
    have hrest := h.depth_eq
    rwa [map_cons, hkind, depthThrough, foldl_cons, hdepth]
  matched := by
    rw [map_cons, hkind, Matched, hdepth]
    exact ⟨fun heq => absurd heq hcloser, h.matched⟩

/-- A block: inside it is one level more. -/
theorem block (hopener : LineKind.ofLine opener = .opener)
    (hcloser : LineKind.ofLine closer = .closer)
    (h : Passes (depth + 1) first levels) (h' : Passes depth second levels') :
    Passes depth (opener :: (first ++ closer :: second)) (depth ::
      (levels ++ depth :: levels')) where
  levels_eq := by
    rw [map_cons, hopener, levelsFrom, depthAfter, map_append, levelsFrom_append,
      h.levels_eq, h.depth_eq, map_cons, hcloser, levelsFrom, depthAfter, Nat.add_sub_cancel,
      h'.levels_eq]
    rfl
  depth_eq := by
    have hrest := h'.depth_eq
    rw [map_cons, hopener, depthThrough, foldl_cons, ← depthThrough, depthAfter,
      map_append, depthThrough_append, h.depth_eq, map_cons, hcloser]
    exact hrest
  matched := by
    rw [map_cons, hopener, Matched, depthAfter, map_append, matched_append, h.depth_eq,
      map_cons, hcloser, Matched]
    exact ⟨by simp, h.matched, by simp, h'.matched⟩

end Passes

end Indentation

open Indentation

theorem WholeLine.kind_eq {kind : LineKind} (line : WholeLine [kind]) :
    LineKind.ofLine line.text = kind :=
  mem_singleton.mp line.kind_mem

/-- A line that continues a block has the level of the line that opened it. -/
theorem WholeLine.passes_separator (line : WholeLine [.continuation, .caseLabel]) {depth : Nat}
    {levels : List Nat} (h : Passes (depth + 1) texts levels) :
    Passes (depth + 1) (line.text :: texts) (depth :: levels) := by
  rcases mem_pair.mp line.kind_mem with hkind | hkind
  · exact h.cons hkind rfl rfl (by decide)
  · exact h.cons hkind rfl rfl (by decide)

theorem WholeLine.passes_leaf (line : WholeLine [.other, .comment]) {depth : Nat}
    {levels : List Nat} (h : Passes depth texts levels) :
    Passes depth (line.text :: texts) (depth :: levels) := by
  rcases mem_pair.mp line.kind_mem with hkind | hkind
  · exact h.cons hkind rfl rfl (by decide)
  · exact h.cons hkind rfl rfl (by decide)

mutual

/-- Walking over a forest, at any depth. -/
theorem Forest.passes (depth : Nat) : ∀ forest : Forest,
    Passes depth forest.lines (forest.levels depth)
  | .nil => .nil
  | .leaf line _ rest => line.passes_leaf (rest.passes depth)
  | .block opener body closer rest =>
      .block opener.kind_eq closer.kind_eq (body.passes depth) (rest.passes depth)

/-- Walking over what a block at level `depth` holds. -/
theorem Body.passes (depth : Nat) : ∀ body : Body,
    Passes (depth + 1) body.lines (body.levels depth)
  | .last part => part.passes (depth + 1)
  | .next part separator rest =>
      (part.passes (depth + 1)).append (separator.passes_separator (rest.passes depth))

end

theorem WholeLine.isWhole {kinds : List LineKind} (line : WholeLine kinds)
    (h : LineKind.other ∉ kinds) : IsWhole line.text :=
  ⟨line.single, fun hblank => h (ofLine_eq_other hblank ▸ line.kind_mem), line.closed⟩

mutual

theorem Forest.isWhole : ∀ (forest : Forest), ∀ line ∈ forest.lines, IsWhole line
  | .nil => by simp [Forest.lines]
  | .leaf line filled rest => by
      rw [Forest.lines, forall_mem_cons]
      exact ⟨⟨line.single, filled, line.closed⟩, rest.isWhole⟩
  | .block opener body closer rest => by
      rw [Forest.lines, forall_mem_cons, forall_mem_append, forall_mem_cons]
      exact ⟨opener.isWhole (by decide), body.isWhole, closer.isWhole (by decide), rest.isWhole⟩

theorem Body.isWhole : ∀ (body : Body), ∀ line ∈ body.lines, IsWhole line
  | .last part => by
      rw [Body.lines]
      exact part.isWhole
  | .next part separator rest => by
      rw [Body.lines, forall_mem_append, forall_mem_cons]
      exact ⟨part.isWhole, separator.isWhole (by decide), rest.isWhole⟩

end

namespace Indentation

/-- On the text of a forest, each line is indented by the number of blocks around it. -/
theorem levels_forest (forest : Forest) :
    (forest.lines ≠ [] → levels (joinLines forest.lines) = forest.levels 0) ∧
      (scan (joinLines forest.lines)).getLast?.map (·.depth) = some 0 ∧
      unmatchedClosers (scan (joinLines forest.lines)) = [] := by
  rcases eq_or_ne forest.lines [] with hempty | hne
  · rw [hempty]
    exact ⟨fun hne => absurd rfl hne, rfl, rfl⟩
  · have hwalks := scan_walks hne forest.isWhole
    have hpasses := forest.passes 0
    refine ⟨fun _ => hwalks.levels_eq.trans hpasses.levels_eq, ?_,
      hwalks.unmatchedFrom_eq_nil hpasses.matched 1⟩
    rw [hwalks.getLast?_depth (by simpa using hne), hpasses.depth_eq]

/-- A block with a branch that holds another block. -/
def branchedForest : Forest :=
  .block ⟨"IF a THEN".toList, by decide, by decide +kernel, by decide +kernel⟩
    (.next (.leaf ⟨"x := 'IF'; // IF".toList, by decide, by decide +kernel, by decide +kernel⟩
        (by decide +kernel) .nil)
      ⟨"ELSE".toList, by decide, by decide +kernel, by decide +kernel⟩
      (.last (.block ⟨"CASE b OF".toList, by decide, by decide +kernel, by decide +kernel⟩
        (.next .nil ⟨"1..3:".toList, by decide, by decide +kernel, by decide +kernel⟩
          (.last (.leaf ⟨"(* none *)".toList, by decide, by decide +kernel, by decide +kernel⟩
            (by decide +kernel) .nil)))
        ⟨"END_CASE".toList, by decide, by decide +kernel, by decide +kernel⟩ .nil)))
    ⟨"END_IF;".toList, by decide, by decide +kernel, by decide +kernel⟩ .nil

theorem levels_branchedForest :
    branchedForest.lines ≠ [] ∧ levels (joinLines branchedForest.lines) =
      [0, 1, 0, 1, 1, 2, 1, 0] :=
  have hne : branchedForest.lines ≠ [] := cons_ne_nil _ _
  ⟨hne, (levels_forest branchedForest).1 hne⟩

end Indentation

end StructuredText
