import StructuredText.Proofs.Nesting
import StructuredText.Vocabulary.Combined

/-!
# The source of the combined patterns

The two patterns of a vocabulary are put together from the patterns of its entries. They are also
what the joined source of the entries is read as, faults included: it cannot be read if and only if
it is too much for the stack, or an entry sets flags for the whole pattern, and then the fault is at
the first such entry.

Results:
1. `pushes_entry`: an entry inside the joined source is read as if it stood alone.
2. `Adds.bar`, `Adds.group`, `Part.join`: alternatives, groups, and the lists of a vocabulary.
3. `compile_casingPieces`, `compile_callPieces`: the joined sources are read as the combined
   patterns.
-/

namespace StructuredText.Pattern

variable {rest : List Token}

/-! ## Running through a source -/

theorem arrive_tokensFrom {source : List Char} (h : source ≠ ['\\']) (offset : Nat) :
    arrive (tokensFrom offset source) = .ok () := by
  rcases source with _ | ⟨c, _ | ⟨d, rest⟩⟩
  · rfl
  · rw [tokensFrom]
    · rfl
    · rintro rfl -
      exact h rfl
    · intro _ _ _ hcons
      cases hcons
  · by_cases hc : c = '\\'
    · subst hc
      rfl
    · rw [tokensFrom]
      · rfl
      · intro _ hnil
        cases hnil
      · exact fun _ _ hc' => absurd hc' hc

theorem append_close_ne (source tail : List Char) : source ++ ')' :: tail ≠ ['\\'] := by
  rcases source with _ | ⟨c, _ | ⟨d, rest⟩⟩ <;> simp

variable [Host]

/-- Takes in the lexemes of a source that stands from `offset` on. -/
def runFrom (size offset : Nat) (source : List Char) (progress : Progress) : Reading Progress :=
  progress.readAll size (tokensFrom offset source)

theorem runFrom_read {size offset : Nat} {source : List Char} {token : Token} {tokens : List Token}
    {meaning : Meaning} (htokens : tokensFrom offset source = token :: tokens)
    (hread : ∀ verbose, readLexeme verbose size token tokens = .ok (meaning, rest))
    (progress : Progress) :
    runFrom size offset source progress =
      progress.step ⟨token.offset, offsetOf size rest, meaning⟩ >>= fun next =>
        next.readAll size rest := by
  rw [runFrom, htokens, Progress.readAll_cons (hread _)]

section

variable (size offset : Nat)

theorem readLexeme_opening (h : arrive rest = .ok ()) (verbose : Bool) :
    readLexeme verbose size ⟨offset, .plain '('⟩
      (⟨offset + 1, .plain '?'⟩ :: ⟨offset + 2, .plain ':'⟩ :: rest) =
      .ok (.opening (.plain ⟨[], []⟩), rest) := by
  rcases rest with _ | ⟨⟨_, _ | _ | _⟩, _⟩
  · cases verbose <;> rfl
  · cases verbose <;> rfl
  · cases verbose <;> rfl
  · cases h

theorem readLexeme_boundary (h : arrive rest = .ok ()) (verbose : Bool) :
    readLexeme verbose size ⟨offset, .escaped 'b'⟩ rest = .ok (.anchor .boundary, rest) := by
  simp only [readLexeme, h]
  rfl

variable (tail : List Char) (progress : Progress)

theorem runFrom_opening (htail : tail ≠ ['\\']) :
    runFrom size offset ("(?:".toList ++ tail) progress =
      runFrom size (offset + 3) tail (progress.opening offset) :=
  runFrom_read rfl (readLexeme_opening size offset (arrive_tokensFrom htail _)) progress

theorem runFrom_capture :
    runFrom size offset ('(' :: '(' :: tail) progress =
      runFrom size (offset + 1) ('(' :: tail)
        { progress.enter (.capture (progress.groupCount + 1)) offset with
          groupCount := progress.groupCount + 1 } := by
  have hread (verbose : Bool) :
      readLexeme verbose size ⟨offset, .plain '('⟩ (tokensFrom (offset + 1) ('(' :: tail)) =
        .ok (.opening (.capture none), tokensFrom (offset + 1) ('(' :: tail)) := by
    cases verbose <;> rfl
  exact runFrom_read rfl hread progress

theorem runFrom_closing {next : Progress} (h : ∀ lexeme, progress.closeGroup lexeme = .ok next) :
    runFrom size offset (')' :: tail) progress = runFrom size (offset + 1) tail next := by
  rw [runFrom_read rfl (fun _ => rfl), Progress.step]
  dsimp only
  rw [h]
  rfl

theorem runFrom_bar (h : progress.isComplete = false) :
    runFrom size offset ('|' :: tail) progress =
      runFrom size (offset + 1) tail { progress with level := progress.level.nextAlternative } := by
  rw [runFrom_read rfl (fun _ => rfl), Progress.step]
  dsimp only
  rw [h]
  rfl

theorem runFrom_boundary (hflags : progress.level.flags = .ignoringCase) (htail : tail ≠ ['\\']) :
    runFrom size offset ("\\b".toList ++ tail) progress =
      runFrom size (offset + 2) tail (progress.push (.anchor .boundary) .anchor) := by
  refine (runFrom_read rfl (readLexeme_boundary size offset (arrive_tokensFrom htail _))
    progress).trans ?_
  simp only [Progress.step, hflags]
  rfl

variable {flags : Flags} {source : List Char} {parsed : Parsed}

theorem no_dangling_of_parse (hparse : parse flags source = .ok parsed) :
    ∀ token ∈ tokensFrom 0 source, token.sign ≠ .dangling := by
  obtain ⟨final, hrun, -⟩ := parse_eq_ok_iff.mp hparse
  exact hrun.no_dangling

theorem runFrom_source (hparse : parse flags source = .ok parsed) :
    runFrom size offset ("(?:".toList ++ (source ++ ')' :: tail)) progress =
      (progress.opening offset).readAll size (Site.place ⟨offset + 3, offset + 3 + source.length,
        tokensFrom (offset + 3 + source.length + 1) tail⟩ (tokensFrom 0 source)) := by
  rw [runFrom_opening size offset _ progress (append_close_ne source tail), runFrom,
    tokensFrom_place (no_dangling_of_parse hparse)]

/-- A source in a group of its own adds its pattern. -/
theorem runFrom_nested {progress : Progress} (hclear : progress.IsClear flags)
    (hterse : flags.verbose = false) (hparse : parse flags source = .ok parsed)
    (hcount : parsed.groupCount = 0) (hflags : parsed.flagsAt = none) :
    runFrom size offset ("(?:".toList ++ (source ++ ')' :: tail)) progress =
      runFrom size (offset + 3 + source.length + 1) tail (progress.push parsed.pattern .other) := by
  rw [runFrom_source size offset tail progress hparse]
  obtain ⟨final, hrun, hclose⟩ :=
    Progress.readAll_nested hclear hterse hparse hcount hflags offset size _
  rw [hrun]
  exact runFrom_closing size _ tail final hclose

theorem runFrom_nested_error (hclear : progress.IsClear flags) (hterse : flags.verbose = false)
    (hparse : parse flags source = .ok parsed) {place : Nat}
    (hflags : parsed.flagsAt = some place) :
    runFrom size offset ("(?:".toList ++ (source ++ ')' :: tail)) progress =
      .error (.misplacedFlags, offset + 3 + place) := by
  rw [runFrom_source size offset tail progress hparse]
  exact Progress.readAll_nested_error hparse hterse hflags hclear.flags offset size _

end

/-! ## Patterns without a flaw -/

variable {flags : Flags} {parsed : Parsed}

theorem compile_eq_ok_iff {source : List Char} :
    compile flags source = .ok parsed ↔
      Host.holds flags.ignoreCase source = true ∧ parse flags source = .ok parsed := by
  rw [compile]
  split <;> simp_all

theorem flaw_of_parse {source : List Char} (h : parse flags source = .ok parsed) :
    parsed.pattern.flaw false = none := by
  obtain ⟨final, -, -, hflaw, rfl⟩ := parse_eq_ok_iff.mp h
  exact flaw_false hflaw

omit [Host] in
theorem flaw_choice {patterns : List Pattern}
    (h : ∀ pattern ∈ patterns, pattern.flaw false = none) :
    (choice patterns).flaw false = none := by
  induction patterns using choice.induct with
  | case1 => rfl
  | case2 pattern => exact h pattern List.mem_cons_self
  | case3 pattern patterns hne ih =>
    obtain ⟨hfirst, hrest⟩ := List.forall_mem_cons.mp h
    rw [choice, flaw, hfirst, ih hrest]
    · rfl
    · exact hne

end StructuredText.Pattern

namespace StructuredText.Vocabulary

open Pattern

variable {patterns others : List Pattern} {pieces : List Piece} {entries : List String}
  {progress : Progress}

/-! ## Pieces -/

theorem joinedSource_append (a b : List Piece) :
    joinedSource (a ++ b) = joinedSource a ++ joinedSource b :=
  List.flatMap_append

@[simp] theorem joinedSource_nil : joinedSource [] = [] :=
  rfl

@[simp] theorem joinedSource_cons (piece : Piece) (pieces : List Piece) :
    joinedSource (piece :: pieces) = piece.source ++ joinedSource pieces :=
  rfl

theorem length_joinedSource_signs (text : String) (pieces : List Piece) :
    (joinedSource (.signs text :: pieces)).length = text.length + (joinedSource pieces).length := by
  rw [joinedSource_cons, List.length_append]
  rfl

theorem joinParts_cons_nil (parts : List (List Piece)) :
    joinParts ([] :: parts) = joinParts parts :=
  rfl

/-- A part stands before the others, with a bar in between if there are any. -/
theorem joinParts_cons (hne : pieces ≠ []) (parts : List (List Piece)) :
    joinParts parts = [] ∧ joinParts (pieces :: parts) = pieces ∨
    joinParts parts ≠ [] ∧
      joinParts (pieces :: parts) = pieces ++ .signs "|" :: joinParts parts := by
  have hkeep : (!pieces.isEmpty) = true := by simpa using hne
  rw [joinParts, joinParts, List.filter_cons, if_pos hkeep]
  cases hfilter : parts.filter fun part => !part.isEmpty with
  | nil => exact .inl ⟨rfl, by simp⟩
  | cons first rest =>
    have hfirst : first ∈ parts.filter fun part => !part.isEmpty := hfilter ▸ List.mem_cons_self
    have hfirst : first ≠ [] := by simpa using (List.mem_filter.mp hfirst).2
    refine .inr ⟨?_, rfl⟩
    cases rest <;> simp [hfirst]

variable [Host]

/-- Where an entry sets flags for a whole pattern. -/
def entryFlags (entry : String) : Option Nat :=
  match Pattern.parse .ignoringCase entry.toList with
  | .ok parsed => parsed.flagsAt
  | .error _ => none

theorem flagsOffset_entry (offset : Nat) (entry : String) (pieces : List Piece) :
    flagsOffset offset (.entry entry :: pieces) =
      ((entryFlags entry).map (offset + ·)).or (flagsOffset (offset + entry.length) pieces) := by
  rw [flagsOffset, entryFlags]
  cases Pattern.parse .ignoringCase entry.toList with
  | error fault => rfl
  | ok parsed =>
    obtain ⟨pattern, names, groupCount, flagsAt⟩ := parsed
    cases flagsAt <;> rfl

theorem flagsOffset_append (offset : Nat) (a b : List Piece) :
    flagsOffset offset (a ++ b) =
      (flagsOffset offset a).or (flagsOffset (offset + (joinedSource a).length) b) := by
  induction a generalizing offset with
  | nil => rfl
  | cons piece a ih =>
    have hoffset : offset + (joinedSource (piece :: a)).length =
        offset + piece.source.length + (joinedSource a).length := by
      rw [joinedSource_cons, List.length_append, Nat.add_assoc]
    rw [hoffset, List.cons_append]
    cases piece with
    | signs text => exact ih _
    | entry text => rw [flagsOffset_entry, flagsOffset_entry, ih, Option.or_assoc]; rfl

/-- What comes behind pieces that can be read, or the fault of one that cannot. -/
def behind (offset : Nat) (pieces : List Piece) (next : Reading Progress) : Reading Progress :=
  match flagsOffset offset pieces with
  | some flags => .error (.misplacedFlags, flags)
  | none => next

@[simp] theorem behind_nil (offset : Nat) (next : Reading Progress) :
    behind offset [] next = next :=
  rfl

@[simp] theorem behind_signs (offset : Nat) (text : String) (pieces : List Piece)
    (next : Reading Progress) :
    behind offset (.signs text :: pieces) next = behind (offset + text.length) pieces next :=
  rfl

theorem behind_append (offset : Nat) (a b : List Piece) (next : Reading Progress) :
    behind offset (a ++ b) next =
      behind offset a (behind (offset + (joinedSource a).length) b next) := by
  rw [behind, behind, flagsOffset_append]
  cases flagsOffset offset a <;> rfl

/-- Pieces that put a pattern behind the items of the group in which they stand. -/
def Pushes (pieces : List Piece) (pattern : Pattern) : Prop :=
  ∀ progress : Progress, progress.IsClear .ignoringCase → ∀ size offset tail,
    runFrom size offset (joinedSource pieces ++ tail) progress =
      behind offset pieces (runFrom size (offset + (joinedSource pieces).length) tail
        (progress.push pattern .other))

/-- Pieces that give alternatives of the group in which they stand. -/
def Adds (pieces : List Piece) (patterns : List Pattern) : Prop :=
  ∀ progress : Progress, progress.IsClear .ignoringCase → progress.level.purpose = .plain →
    progress.level.items = [] → ∃ alternatives items,
      Pattern.sequence (items.reverse.map Item.pattern) :: alternatives =
        patterns.reverse ++ progress.level.alternatives ∧
      ∀ size offset tail,
        runFrom size offset (joinedSource pieces ++ tail) progress =
          behind offset pieces (runFrom size (offset + (joinedSource pieces).length) tail
            { progress with level := { progress.level with alternatives, items } })

theorem Pushes.adds {pattern : Pattern} (h : Pushes pieces pattern) : Adds pieces [pattern] := by
  intro progress hclear _ hitems
  refine ⟨progress.level.alternatives, [⟨pattern, .other⟩], rfl, fun size offset tail => ?_⟩
  rw [h progress hclear, Progress.push, Level.push, hitems]

theorem Adds.bar {a b : List Piece} (ha : Adds a patterns) (hb : Adds b others) :
    Adds (a ++ .signs "|" :: b) (patterns ++ others) := by
  intro progress hclear hplain hitems
  obtain ⟨alternatives, items, hcurrent, hrun⟩ := ha progress hclear hplain hitems
  let first : Progress := { progress with level := { progress.level with alternatives, items } }
  let next : Progress := { first with level := first.level.nextAlternative }
  obtain ⟨alternatives', items', hcurrent', hrun'⟩ :=
    hb next ⟨hclear.closed, hclear.behindFrom, hclear.flags⟩ hplain rfl
  refine ⟨alternatives', items', ?_, fun size offset tail => ?_⟩
  · rw [hcurrent', List.reverse_append, List.append_assoc, ← hcurrent]
    rfl
  · rw [joinedSource_append, List.append_assoc, hrun, behind_append, behind_signs,
      joinedSource_cons, List.append_assoc]
    congr 1
    have hcomplete : first.isComplete = false := by
      rw [Progress.isComplete, show first.level.purpose = .plain from hplain]
    have hbar := runFrom_bar size (offset + (joinedSource a).length) (joinedSource b ++ tail)
      first hcomplete
    refine hbar.trans ((hrun' ..).trans ?_)
    congr 2
    rw [List.length_append, List.length_append, Nat.add_assoc, Nat.add_assoc]
    rfl

/-- A group around alternatives. -/
theorem Adds.group (h : Adds pieces patterns) :
    Pushes (.signs "(?:" :: (pieces ++ [.signs ")"])) (choice patterns) := by
  intro progress hclear size offset tail
  obtain ⟨alternatives, items, hcurrent, hrun⟩ :=
    h (progress.opening offset) ⟨hclear.closed, hclear.behindFrom, hclear.flags⟩ rfl rfl
  have hsource : joinedSource (.signs "(?:" :: (pieces ++ [.signs ")"])) ++ tail =
      "(?:".toList ++ (joinedSource pieces ++ ')' :: tail) := by
    rw [joinedSource_cons, joinedSource_append, List.append_assoc, List.append_assoc]
    rfl
  have hlength : (joinedSource (.signs "(?:" :: (pieces ++ [.signs ")"]))).length =
      3 + (joinedSource pieces).length + 1 := by
    rw [joinedSource_cons, joinedSource_append, List.length_append, List.length_append,
      Nat.add_assoc]
    rfl
  rw [hsource, runFrom_opening _ _ _ _ (append_close_ne _ _), hrun, behind_signs, behind_append,
    hlength]
  congr 1
  have hpattern :
      choice (Pattern.sequence (items.reverse.map Item.pattern) :: alternatives).reverse =
        choice patterns := by
    rw [hcurrent, List.reverse_append, List.reverse_reverse]
    rfl
  have hclose (lexeme : Lexeme) :
      Progress.closeGroup { progress.opening offset with level :=
        { (progress.opening offset).level with alternatives, items } } lexeme =
        .ok (progress.push (choice patterns) .other) := by
    rw [← hpattern]
    rfl
  rw [runFrom_closing _ _ _ _ hclose, Nat.add_assoc, Nat.add_assoc, Nat.add_assoc]
  rfl

/-! ## Entries -/

variable {entry : String} {vocabulary : Vocabulary}

/-- An entry that may stand in a vocabulary is a pattern, also with letters up to case. -/
theorem exists_parse_of_entryFault (h : entryFault entry = none) :
    ∃ parsed, Pattern.parse .ignoringCase entry.toList = .ok parsed ∧ parsed.groupCount = 0 := by
  rw [entryFault] at h
  split at h
  · cases h
  split at h
  · cases h
  next parsed hcompile =>
  split at h
  next hcount =>
    obtain ⟨-, hparse⟩ := compile_eq_ok_iff.mp hcompile
    obtain ⟨parsed', hparse', hcount', -⟩ :=
      parse_other_flags hparse (show Flags.none.verbose = Flags.ignoringCase.verbose from rfl)
    exact ⟨parsed', hparse', hcount'.trans hcount⟩
  · cases h

theorem pushes_entry (h : entryFault entry = none) :
    ∃ pattern, entryPattern entry = .ok pattern ∧ pattern.flaw false = none ∧
      Pushes [.signs "(?:", .entry entry, .signs ")"] pattern := by
  obtain ⟨parsed, hparse, hcount⟩ := exists_parse_of_entryFault h
  refine ⟨parsed.pattern, ?_, flaw_of_parse hparse, fun progress hclear size offset tail => ?_⟩
  · rw [entryPattern, hparse]
    rfl
  have hsource : joinedSource [.signs "(?:", .entry entry, .signs ")"] ++ tail =
      "(?:".toList ++ (entry.toList ++ ')' :: tail) := by
    simp only [joinedSource_cons, joinedSource_nil, List.append_assoc]
    rfl
  have hlength : (joinedSource [.signs "(?:", .entry entry, .signs ")"]).length =
      3 + entry.toList.length + 1 := by
    simp only [joinedSource_cons, joinedSource_nil, List.length_append, Nat.add_assoc]
    rfl
  have hflags : entryFlags entry = parsed.flagsAt := by rw [entryFlags, hparse]
  rw [hsource, hlength, behind, flagsOffset, flagsOffset_entry, hflags]
  cases hat : parsed.flagsAt with
  | none =>
    rw [runFrom_nested size offset tail hclear rfl hparse hcount hat, Nat.add_assoc,
      Nat.add_assoc, ← Nat.add_assoc 3]
    rfl
  | some place => exact runFrom_nested_error size offset tail progress hclear rfl hparse hat

/-- The entries of a list are alternatives. -/
theorem adds_alternation (hvalid : ∀ entry ∈ entries, entryFault entry = none) :
    ∃ patterns, entryPatterns entries = .ok patterns ∧ (patterns = [] ↔ entries = []) ∧
      (∀ pattern ∈ patterns, pattern.flaw false = none) ∧
      (entries ≠ [] → Adds (alternation entries) patterns) := by
  induction entries with
  | nil => exact ⟨[], rfl, by simp, by simp, fun hne => absurd rfl hne⟩
  | cons entry entries ih =>
    obtain ⟨hentry, hentries⟩ := List.forall_mem_cons.mp hvalid
    obtain ⟨pattern, hpattern, hflaw, hpushes⟩ := pushes_entry hentry
    obtain ⟨patterns, hpatterns, hnil, hflaws, hadds⟩ := ih hentries
    refine ⟨pattern :: patterns, ?_, by simp, List.forall_mem_cons.mpr ⟨hflaw, hflaws⟩, fun _ => ?_⟩
    · rw [entryPatterns] at hpatterns ⊢
      rw [List.mapM_cons, hpattern, hpatterns]
      rfl
    · cases entries with
      | nil =>
        rw [hnil.mpr rfl]
        exact hpushes.adds
      | cons other entries => exact hpushes.adds.bar (hadds nofun)

/-! ## The parts of the pattern for words in capitals -/

/-- A part that is left out, or one that gives alternatives. -/
def Part (pieces : List Piece) (patterns : List Pattern) : Prop :=
  pieces = [] ∧ patterns = [] ∨ pieces ≠ [] ∧ Adds pieces patterns

theorem Part.join {parts : List (List Piece)} (h : Part pieces patterns)
    (hparts : Part (joinParts parts) others) :
    Part (joinParts (pieces :: parts)) (patterns ++ others) := by
  rcases h with ⟨rfl, rfl⟩ | ⟨hne, hadds⟩
  · exact hparts
  rcases joinParts_cons hne parts with ⟨hrest, hjoin⟩ | ⟨hrest, hjoin⟩
  · rcases hparts with ⟨-, rfl⟩ | ⟨hne', -⟩
    · rw [hjoin, List.append_nil]
      exact .inr ⟨hne, hadds⟩
    · exact absurd hrest hne'
  · rcases hparts with ⟨hnil, -⟩ | ⟨-, hadds'⟩
    · exact absurd hnil hrest
    · rw [hjoin]
      exact .inr ⟨by simp, hadds.bar hadds'⟩

/-- An optional `END_` before a group. -/
theorem runFrom_blockEnd (hclear : progress.IsClear .ignoringCase) (size offset : Nat)
    (tail : List Char) :
    runFrom size offset ("(?:END_)?".toList ++ '(' :: tail) progress =
      runFrom size (offset + 9) ('(' :: tail) (progress.push blockEnd .repetition) := by
  have hparse : Pattern.parse .ignoringCase "END_".toList =
      .ok ⟨.literal "END_".toList true, [], 0, none⟩ :=
    rfl
  have hread (verbose : Bool) :
      readLexeme verbose size ⟨offset + 8, .plain '?'⟩ (tokensFrom (offset + 9) ('(' :: tail)) =
        .ok (.quantifier 0 (some 1) .greedy, tokensFrom (offset + 9) ('(' :: tail)) := by
    cases verbose <;> rfl
  refine (runFrom_nested size offset ('?' :: '(' :: tail) hclear rfl hparse rfl rfl).trans ?_
  exact runFrom_read rfl hread _

/-- Blanks and a parenthesis ahead. -/
theorem runFrom_ahead (hclear : progress.IsClear .ignoringCase) (size offset : Nat)
    (tail : List Char) :
    runFrom size offset ("(?=\\s*\\()".toList ++ tail) progress =
      runFrom size (offset + 9) tail
        (progress.push (.ahead true (.seq (blankRun 0) parenthesis)) .other) := by
  obtain ⟨⟨_, _, flags, _, _⟩, _, _, _, closed, behindFrom, _, _, _⟩ := progress
  obtain ⟨rfl, rfl, rfl⟩ := hclear
  -- Five lexemes are read off seven tokens, so two tries are left over.
  exact Progress.readFrom_of_le (Nat.le_add_right (tokensFrom (offset + 9) tail).length 2) _

theorem runFrom_call (hflags : progress.level.flags = .ignoringCase) (size offset : Nat) :
    runFrom size offset "\\s+\\(".toList progress =
      .ok ((progress.push (blankRun 1) .repetition).push parenthesis .other) := by
  obtain ⟨⟨_, _, flags, _, _⟩, _, _, _, _, _, _, _, _⟩ := progress
  cases hflags
  rfl

theorem adds_blocks (h : Adds pieces patterns) :
    Adds (.signs "(?:END_)?(?:" :: (pieces ++ [.signs ")"]))
      [.seq blockEnd (.choice patterns)] := by
  intro progress hclear _ hitems
  have hclear' : (progress.push blockEnd .repetition).IsClear .ignoringCase :=
    ⟨hclear.closed, hclear.behindFrom, hclear.flags⟩
  refine ⟨progress.level.alternatives, [⟨choice patterns, .other⟩, ⟨blockEnd, .repetition⟩], rfl,
    fun size offset tail => ?_⟩
  have hblock := runFrom_blockEnd hclear size offset
    ("?:".toList ++ joinedSource (pieces ++ [.signs ")"]) ++ tail)
  refine (hblock.trans (h.group _ hclear' size (offset + 9) tail)).trans ?_
  rw [Progress.push, Level.push, Progress.push, Level.push, hitems, length_joinedSource_signs,
    length_joinedSource_signs, ← Nat.add_assoc, ← Nat.add_assoc]
  rfl

theorem adds_calls (h : Adds pieces patterns) :
    Adds (.signs "(?:" :: (pieces ++ [.signs ")(?=\\s*\\()"]))
      [.seq (.choice patterns) (.ahead true (.seq (blankRun 0) parenthesis))] := by
  intro progress hclear _ hitems
  have hclear' : (progress.push (choice patterns) .other).IsClear .ignoringCase :=
    ⟨hclear.closed, hclear.behindFrom, hclear.flags⟩
  refine ⟨progress.level.alternatives, [⟨.ahead true (.seq (blankRun 0) parenthesis), .other⟩,
    ⟨choice patterns, .other⟩], rfl, fun size offset tail => ?_⟩
  have hgroup := h.group _ hclear size offset ("(?=\\s*\\()".toList ++ tail)
  rw [runFrom_ahead hclear'] at hgroup
  have hsource : joinedSource (.signs "(?:" :: (pieces ++ [.signs ")(?=\\s*\\()"])) ++ tail =
      joinedSource (.signs "(?:" :: (pieces ++ [.signs ")"])) ++
      ("(?=\\s*\\()".toList ++ tail) := by
    simp [joinedSource_append, Piece.source]
  rw [hsource, hgroup, behind_signs, behind_signs, behind_append, behind_append, behind_signs,
    behind_signs, behind_nil, behind_nil]
  have hlength : (joinedSource (.signs "(?:" :: (pieces ++ [.signs ")(?=\\s*\\()"]))).length =
      (joinedSource (.signs "(?:" :: (pieces ++ [.signs ")"]))).length + 9 := by
    simp [joinedSource_append, Piece.source, Nat.add_assoc]
  rw [hlength, Progress.push, Level.push, Progress.push, Level.push, hitems, Nat.add_assoc]

/-! ## The combined patterns -/

/-- Joined pieces are read as the pattern of the last progress, or have the fault that the check
finds. -/
theorem compile_joinedSource {final : Progress}
    (hrun : ∀ size, runFrom size 0 (joinedSource pieces) (.start .ignoringCase) =
      behind 0 pieces (.ok final))
    (haround : final.around = []) (hletters : final.letters = []) (hasked : final.asked = [])
    (hflaw : final.level.pattern.flaw false = none) :
    (Pattern.compile .ignoringCase (joinedSource pieces)).map Parsed.pattern =
      checkJoined pieces >>= fun _ => .ok final.level.pattern := by
  have hrun := hrun (joinedSource pieces).length
  rw [behind] at hrun
  have hcompile : Pattern.compile .ignoringCase (joinedSource pieces) =
      if Host.holds true (joinedSource pieces) then
        Pattern.parse .ignoringCase (joinedSource pieces)
      else .error (.at (joinedSource pieces) .exhaustedStack 0) :=
    rfl
  rw [checkJoined, hcompile]
  by_cases hholds : Host.holds true (joinedSource pieces) = true
  · rw [if_pos hholds, if_pos hholds]
    cases hflags : flagsOffset 0 pieces with
    | some flags =>
      rw [hflags] at hrun
      rw [parse_eq_error hrun]
      rfl
    | none =>
      rw [hflags] at hrun
      have hfinished : final.Finished := ⟨haround, by simp [hletters], by simp [hasked]⟩
      have hflaw : final.level.pattern.flaw (final.letters.contains 't') = none := by
        rw [hletters]
        exact hflaw
      rw [parse_eq_ok_iff.mpr ⟨final, Reads.iff_readAll.mpr hrun, hfinished, hflaw, rfl⟩]
      rfl
  · rw [if_neg hholds, if_neg hholds]
    rfl

/-- The signs around the alternatives for words in capitals. -/
theorem runFrom_capitals (h : Adds pieces patterns) (size : Nat) :
    runFrom size 0 (joinedSource (.signs "\\b(?:" :: (pieces ++ [.signs ")\\b"])))
        (.start .ignoringCase) =
      behind 0 (.signs "\\b(?:" :: (pieces ++ [.signs ")\\b"]))
        (.ok ((((Progress.start .ignoringCase).push (.anchor .boundary) .anchor).push
          (choice patterns) .other).push (.anchor .boundary) .anchor)) := by
  have hsource : joinedSource (.signs "\\b(?:" :: (pieces ++ [.signs ")\\b"])) =
      "\\b".toList ++ (joinedSource (.signs "(?:" :: (pieces ++ [.signs ")"])) ++
      "\\b".toList) := by
    simp [joinedSource_append, Piece.source]
  have hgroup := h.group ((Progress.start .ignoringCase).push (.anchor .boundary) .anchor)
    ⟨rfl, rfl, rfl⟩ size 2 "\\b".toList
  rw [hsource, runFrom_boundary _ _ _ _ rfl (by simp [Piece.source]), hgroup]
  simp only [behind_signs, behind_append, behind_nil]
  rfl

/-- The signs around the alternatives for separated function names. -/
theorem runFrom_names (h : Adds pieces patterns) :
    ∃ final : Progress, final.around = [] ∧ final.letters = [] ∧ final.asked = [] ∧
      final.level.pattern = .sequence [.anchor .boundary, .group 1 (.choice patterns), blankRun 1,
        parenthesis] ∧
      ∀ size, runFrom size 0 (joinedSource (.signs "\\b((?:" :: (pieces ++ [.signs "))\\s+\\("])))
        (.start .ignoringCase) =
        behind 0 (.signs "\\b((?:" :: (pieces ++ [.signs "))\\s+\\("])) (.ok final) := by
  have hsource : joinedSource (.signs "\\b((?:" :: (pieces ++ [.signs "))\\s+\\("])) =
      "\\b(".toList ++ (joinedSource (.signs "(?:" :: (pieces ++ [.signs ")"])) ++
        ')' :: "\\s+\\(".toList) := by
    simp [joinedSource_append, Piece.source]
  let outside := (Progress.start .ignoringCase).push (.anchor .boundary) .anchor
  let inside : Progress := { outside.enter (.capture 1) 2 with groupCount := 1 }
  let named : Progress := { outside.push (.group 1 (choice patterns)) .other with
    groupCount := 1, closed := [(1, (choice patterns).width fun _ => .fixed 0)] }
  refine ⟨(named.push (blankRun 1) .repetition).push parenthesis .other, rfl, rfl, rfl, rfl,
    fun size => ?_⟩
  have hopen (tail : List Char) :
      runFrom size 0 ("\\b(".toList ++ '(' :: tail) (.start .ignoringCase) =
        runFrom size 3 ('(' :: tail) inside :=
    (runFrom_boundary size 0 _ _ rfl (by simp)).trans (runFrom_capture size 2 _ outside)
  rw [hsource]
  refine (hopen _).trans ?_
  refine (h.group inside ⟨rfl, rfl, rfl⟩ ..).trans ?_
  have hclose (lexeme : Lexeme) :
      (inside.push (choice patterns) .other).closeGroup lexeme = .ok named := rfl
  rw [runFrom_closing _ _ _ _ hclose, runFrom_call rfl]
  simp only [behind_signs, behind_append, behind_nil]
  rfl

/-- An empty list is left out, and another one gives alternatives, with some signs around them. -/
theorem part_ite (hnil : patterns = [] ↔ entries = []) (hadds : entries ≠ [] → Adds pieces others)
    (hpieces : pieces ≠ []) :
    Part (if entries.isEmpty then [] else pieces) (if patterns.isEmpty then [] else others) := by
  by_cases hempty : entries = []
  · simp only [hempty, hnil.mpr hempty]
    exact .inl ⟨rfl, rfl⟩
  · have hne : patterns ≠ [] := fun h => hempty (hnil.mp h)
    rw [List.isEmpty_eq_false_iff.mpr hempty, List.isEmpty_eq_false_iff.mpr hne]
    exact .inr ⟨hpieces, hadds hempty⟩

theorem part_alternation (hnil : patterns = [] ↔ entries = [])
    (hadds : entries ≠ [] → Adds (alternation entries) patterns) :
    Part (alternation entries) patterns := by
  rcases entries with _ | ⟨entry, _ | ⟨other, entries⟩⟩
  · exact .inl ⟨rfl, hnil.mpr rfl⟩
  · exact .inr ⟨nofun, hadds nofun⟩
  · exact .inr ⟨nofun, hadds nofun⟩

omit [Host] in
theorem flaw_casing {types keywords blocks functions : List Pattern}
    (htypes : ∀ pattern ∈ types, pattern.flaw false = none)
    (hkeywords : ∀ pattern ∈ keywords, pattern.flaw false = none)
    (hblocks : ∀ pattern ∈ blocks, pattern.flaw false = none)
    (hfunctions : ∀ pattern ∈ functions, pattern.flaw false = none) :
    ∀ pattern ∈ types ++ (keywords ++
      ((if blocks.isEmpty then [] else [Pattern.seq blockEnd (.choice blocks)]) ++
        if functions.isEmpty then []
        else [Pattern.seq (.choice functions) (.ahead true (.seq (blankRun 0) parenthesis))])),
      pattern.flaw false = none := by
  intro pattern hmem
  rcases List.mem_append.mp hmem with h | hmem
  · exact htypes pattern h
  rcases List.mem_append.mp hmem with h | hmem
  · exact hkeywords pattern h
  rcases List.mem_append.mp hmem with h | h
  · split at h
    · cases h
    · rw [List.mem_singleton.mp h, flaw, flaw_choice hblocks]
      rfl
  · split at h
    · cases h
    · rw [List.mem_singleton.mp h, flaw, flaw_choice hfunctions]
      rfl

/-- The pattern for words in capitals is what its source is read as. -/
theorem compile_casingPieces (hvalid : vocabulary.IsValid) (hne : vocabulary ≠ .empty) :
    (Pattern.compile .ignoringCase (joinedSource vocabulary.casingPieces)).map Parsed.pattern =
      vocabulary.casingPattern := by
  have hentries (entries : List String) (h : ∀ entry ∈ entries, entryFault entry = none) :=
    adds_alternation h
  obtain ⟨types, htypes, htypesNil, htypesFlaw, htypesAdds⟩ :=
    hentries vocabulary.types (hvalid .types)
  obtain ⟨keywords, hkeywords, hkeywordsNil, hkeywordsFlaw, hkeywordsAdds⟩ :=
    hentries vocabulary.keywords (hvalid .keywords)
  obtain ⟨blocks, hblocks, hblocksNil, hblocksFlaw, hblocksAdds⟩ :=
    hentries vocabulary.blockNames (hvalid .blockNames)
  obtain ⟨functions, hfunctions, hfunctionsNil, hfunctionsFlaw, hfunctionsAdds⟩ :=
    hentries vocabulary.functions (hvalid .functions)
  have hblocksPart := part_ite hblocksNil (fun h => adds_blocks (hblocksAdds h)) nofun
  have hcallsPart := part_ite hfunctionsNil (fun h => adds_calls (hfunctionsAdds h)) nofun
  have hnone : Part (joinParts []) [] := .inl ⟨rfl, rfl⟩
  have hpart := (part_alternation htypesNil htypesAdds).join
    ((part_alternation hkeywordsNil hkeywordsAdds).join (hblocksPart.join (hcallsPart.join hnone)))
  rw [List.append_nil] at hpart
  rcases hpart with ⟨-, hpatterns⟩ | ⟨-, hadds⟩
  · -- A vocabulary without any entry is left out.
    simp only [List.append_eq_nil_iff, ite_eq_left_iff, List.isEmpty_iff, reduceCtorEq, imp_false,
      Classical.not_not, htypesNil, hkeywordsNil, hblocksNil, hfunctionsNil] at hpatterns
    obtain ⟨htypes, hkeywords, hblocks, hfunctions⟩ := hpatterns
    obtain ⟨_, _, _, _⟩ := vocabulary
    exact absurd (by simp_all [empty]) hne
  · have hflaw := flaw_choice (flaw_casing htypesFlaw hkeywordsFlaw hblocksFlaw hfunctionsFlaw)
    have hcompile := compile_joinedSource (runFrom_capitals hadds) rfl rfl rfl
      ((Option.none_or ..).trans ((Option.or_none ..).trans hflaw))
    simp only [casingPattern, htypes, hkeywords, hblocks, hfunctions, List.append_assoc]
    exact hcompile

/-- The pattern for separated function names is what its source is read as. -/
theorem compile_callPieces (hvalid : vocabulary.IsValid) (hne : vocabulary.functions ≠ []) :
    (Pattern.compile .ignoringCase (joinedSource vocabulary.callPieces)).map Parsed.pattern =
      vocabulary.callPattern := by
  obtain ⟨patterns, hpatterns, -, hflaws, hadds⟩ := adds_alternation (hvalid .functions)
  obtain ⟨final, haround, hletters, hasked, hpattern, hrun⟩ := runFrom_names (hadds hne)
  have hflaw : final.level.pattern.flaw false = none := by
    rw [hpattern]
    simp [Pattern.sequence, flaw, flaw_choice hflaws, blankRun, parenthesis, Pattern.char]
  have hcompile := compile_joinedSource hrun haround hletters hasked hflaw
  rw [hpattern] at hcompile
  rw [callPattern, show entryPatterns vocabulary.functions = _ from hpatterns]
  exact hcompile

end StructuredText.Vocabulary
