import StructuredText.Format
import StructuredText.Proofs.CombinedPatterns
import StructuredText.Proofs.Hosts
import StructuredText.Vocabulary.Standard
import StructuredText.Vocabulary.Validation

/-!
# Formatting with any vocabulary

Every vocabulary that passes the checks can be used for formatting, by itself or added to the
standard one, unless one of its entries sets flags for a whole pattern, or the joined entries are
too much for the stack. The checks let such entries pass, and then no text can be formatted.

Results:
1. `checkJoined_eq_ok_iff`: when joined pieces can be read.
2. `extend_eq_merge`: adding a vocabulary to another one never fails.
3. `canonical_dependable`: what formatting with a vocabulary depends on.
4. `canonical_misplacedFlags`: a vocabulary that passes the checks and formats nothing.
-/

namespace StructuredText.Depth

/-! ## The most that has been open -/

/-- The depth, where as many as `most` parentheses have been open before. -/
def raise (depth : Depth) (most : Nat) : Depth :=
  { depth with most := max depth.most most }

variable (depth : Depth) (most : Nat)

theorem enter_raise (place : Place) :
    (depth.raise most).enter place = (depth.enter place).raise most := by
  simp only [enter, raise, Nat.max_right_comm]

theorem outside_raise (c : Char) : (depth.raise most).outside c = (depth.outside c).raise most := by
  unfold outside
  split <;> first | exact enter_raise depth most _ | rfl

theorem unknown_raise (c : Char) : (depth.raise most).unknown c = (depth.unknown c).raise most := by
  unfold unknown
  split <;> first | exact enter_raise depth most _ | rfl

theorem set_raise (c : Char) : (depth.raise most).set c = (depth.set c).raise most := by
  unfold set
  split <;> rfl

theorem step_raise (c : Char) : (depth.raise most).step c = (depth.step c).raise most := by
  obtain ⟨place, now, most'⟩ := depth
  cases place with
  | outside => exact outside_raise _ most c
  | set => exact set_raise _ most c
  | unknown => exact unknown_raise _ most c
  | escaped inSet => rfl
  | opened =>
    refine Eq.trans ?_ (apply_ite (raise · most) (c = '?') _ _).symm
    exact ite_congr rfl (fun _ => rfl) fun _ => outside_raise _ most c
  | asked =>
    refine Eq.trans ?_ (apply_ite (raise · most) (c ∈ _) _ _).symm
    exact ite_congr rfl (fun _ => rfl) fun _ => unknown_raise _ most c
  | setOpened =>
    refine Eq.trans ?_ (apply_ite (raise · most) (c = '^' ∨ c = ']') _ _).symm
    exact ite_congr rfl (fun _ => unknown_raise _ most c) fun _ => set_raise _ most c

/-- What has been open before a source counts for the most that has been open, and for nothing
else. -/
theorem along_raise (source : List Char) :
    (depth.raise most).along source = (depth.along source).raise most := by
  induction source generalizing depth with
  | nil => rfl
  | cons c rest ih => exact (congrArg (along · rest) (step_raise depth most c)).trans (ih _)

end StructuredText.Depth

namespace StructuredText.Vocabulary

open Pattern

/-! ## Entries of joined sources -/

theorem Field.mem_all (field : Field) : field ∈ Field.all := by
  cases field <;> decide

section

variable [Host]

/-- No entry sets flags for a whole pattern. -/
def Flagless (vocabulary : Vocabulary) : Prop :=
  ∀ field, ∀ entry ∈ vocabulary.entries field, entryFlags entry = none

/-- The stack can hold the source of the pattern for words in capitals. -/
def HoldsCasing (vocabulary : Vocabulary) : Prop :=
  Host.holds true (joinedSource vocabulary.casingPieces) = true

/-- The stack can hold the source of the pattern for separated function names. -/
def HoldsCalls (vocabulary : Vocabulary) : Prop :=
  Host.holds true (joinedSource vocabulary.callPieces) = true

/-- The entries can be joined to both patterns. -/
structure Joinable (vocabulary : Vocabulary) : Prop where
  flagless : vocabulary.Flagless
  casing : vocabulary.HoldsCasing
  calls : vocabulary.HoldsCalls

instance (vocabulary : Vocabulary) : Decidable vocabulary.IsValid :=
  decidable_of_iff
    (∀ field ∈ Field.all, ∀ entry ∈ vocabulary.entries field, entryFault entry = none)
    ⟨fun h field => h field field.mem_all, fun h field _ => h field⟩

theorem flagsOffset_eq_none_iff {offset : Nat} {pieces : List Piece} :
    flagsOffset offset pieces = none ↔ ∀ entry, .entry entry ∈ pieces →
      entryFlags entry = none := by
  induction pieces generalizing offset with
  | nil => simp [flagsOffset]
  | cons piece pieces ih =>
    cases piece with
    | signs text => simp [flagsOffset, ih]
    | entry text => simp [flagsOffset_entry, ih]

end

variable {entry : String} {entries : List String} {base additions : Vocabulary}

theorem entry_mem_alternation :
    .entry entry ∈ alternation entries ↔ entry ∈ entries := by
  induction entries using alternation.induct with
  | case1 | case2 other => simp [alternation]
  | case3 other entries hne ih =>
    rw [alternation]
    · simp [ih]
    · exact hne

theorem entry_mem_joinParts {parts : List (List Piece)} :
    .entry entry ∈ joinParts parts ↔ ∃ part ∈ parts, .entry entry ∈ part := by
  induction parts with
  | nil => simp [joinParts]
  | cons pieces parts ih =>
    by_cases hne : pieces = []
    · subst hne
      simp [joinParts_cons_nil, ih]
    · rcases joinParts_cons hne parts with ⟨hrest, hjoin⟩ | ⟨-, hjoin⟩
      · simp [hjoin, ← ih, hrest]
      · simp [hjoin, ← ih]

theorem entry_mem_casingPieces {vocabulary : Vocabulary} :
    .entry entry ∈ vocabulary.casingPieces ↔ ∃ field, entry ∈ vocabulary.entries field := by
  have hblocks : .entry entry ∈ (if vocabulary.blockNames.isEmpty then []
      else [.signs "(?:END_)?(?:"] ++ alternation vocabulary.blockNames ++ [.signs ")"]) ↔
      entry ∈ vocabulary.blockNames := by
    cases vocabulary.blockNames <;> simp [entry_mem_alternation]
  have hcalls : .entry entry ∈ (if vocabulary.functions.isEmpty then []
      else [.signs "(?:"] ++ alternation vocabulary.functions ++ [.signs ")(?=\\s*\\()"]) ↔
      entry ∈ vocabulary.functions := by
    cases vocabulary.functions <;> simp [entry_mem_alternation]
  have hfield : (∃ field, entry ∈ vocabulary.entries field) ↔ entry ∈ vocabulary.types ∨
      entry ∈ vocabulary.keywords ∨ entry ∈ vocabulary.blockNames ∨
      entry ∈ vocabulary.functions := by
    constructor
    · rintro ⟨_ | _ | _ | _, h⟩ <;> simp_all [entries]
    · rintro (h | h | h | h)
      · exact ⟨.types, h⟩
      · exact ⟨.keywords, h⟩
      · exact ⟨.blockNames, h⟩
      · exact ⟨.functions, h⟩
  rw [hfield, casingPieces, List.mem_append, List.mem_append, entry_mem_joinParts]
  simp only [List.mem_cons, List.not_mem_nil, or_false, exists_eq_or_imp, exists_eq_left,
    entry_mem_alternation, hblocks, hcalls, reduceCtorEq, false_or]

theorem entry_mem_callPieces {vocabulary : Vocabulary} :
    .entry entry ∈ vocabulary.callPieces ↔ entry ∈ vocabulary.functions := by
  simp [callPieces, entry_mem_alternation]

theorem strings?_map (entries : List String) : strings? (entries.map .string) = some entries := by
  induction entries with
  | nil => rfl
  | cons entry entries ih => simp [strings?, ih]

/-! ## Entries that close what they open -/

section

variable {now : Nat} {source later : List Char}

/-- The source leaves as many parentheses open as there were, and opens never many. -/
def Levels (now : Nat) (source : List Char) : Prop :=
  ∀ most < 8, ∃ most' < 8, Depth.along ⟨.outside, now, most⟩ source = ⟨.outside, now, most'⟩

theorem levels_iff : Levels now source ↔
    let depth := Depth.along ⟨.outside, now, 0⟩ source
    depth.place = .outside ∧ depth.now = now ∧ depth.most < 8 := by
  constructor
  · intro h
    obtain ⟨most, hmost, heq⟩ := h 0 (by decide)
    rw [heq]
    exact ⟨rfl, rfl, hmost⟩
  · rintro ⟨hplace, hnow, hmost⟩ most hlt
    have hraise := Depth.along_raise ⟨.outside, now, 0⟩ most source
    rw [Depth.raise, Depth.raise, Nat.zero_max, hplace, hnow] at hraise
    exact ⟨_, Nat.max_lt.mpr ⟨hmost, hlt⟩, hraise⟩

instance (now : Nat) (source : List Char) : Decidable (Levels now source) :=
  decidable_of_iff _ levels_iff.symm

theorem Levels.append (h : Levels now source) (hlater : Levels now later) :
    Levels now (source ++ later) := by
  intro most hmost
  obtain ⟨most', hmost', heq⟩ := h most hmost
  rw [Depth.along_append, heq]
  exact hlater most' hmost'

theorem Levels.grouped (h : Levels (now + 1) source) (hnow : now < 7) :
    Levels now ("(?:".toList ++ source ++ ")".toList) := by
  intro most hmost
  obtain ⟨most', hmost', heq⟩ := h (max most (now + 1)) (by omega)
  have hopen : Depth.along ⟨.outside, now, most⟩ "(?:".toList =
    ⟨.outside, now + 1, max most (now + 1)⟩ := rfl
  rw [Depth.along_append, Depth.along_append, hopen, heq]
  exact ⟨most', hmost', rfl⟩

theorem levels_bar : Levels now "|".toList :=
  fun most hmost => ⟨most, hmost, rfl⟩

theorem levels_alternation {entries : List String} (hnow : now < 7)
    (h : ∀ entry ∈ entries, Levels (now + 1) entry.toList) :
    Levels now (joinedSource (alternation entries)) := by
  induction entries using alternation.induct with
  | case1 => exact fun most hmost => ⟨most, hmost, rfl⟩
  | case2 entry =>
    simpa [joinedSource, alternation, Piece.source] using
      (h entry List.mem_cons_self).grouped hnow
  | case3 entry entries hne ih =>
    obtain ⟨hentry, hentries⟩ := List.forall_mem_cons.mp h
    rw [alternation]
    · simpa [joinedSource, Piece.source] using
        ((hentry.grouped hnow).append levels_bar).append (ih hentries)
    · exact hne

theorem levels_joinParts {parts : List (List Piece)}
    (h : ∀ part ∈ parts, Levels now (joinedSource part)) :
    Levels now (joinedSource (joinParts parts)) := by
  induction parts with
  | nil => exact fun most hmost => ⟨most, hmost, rfl⟩
  | cons part parts ih =>
    obtain ⟨hpart, hparts⟩ := List.forall_mem_cons.mp h
    by_cases hne : part = []
    · subst hne
      exact ih hparts
    · rcases joinParts_cons hne parts with ⟨-, heq⟩ | ⟨-, heq⟩
      · rwa [heq]
      · rw [heq, ← List.singleton_append, joinedSource_append, joinedSource_append]
        exact hpart.append (levels_bar.append (ih hparts))

/-- Entries that close what they open can be joined, however many there are. -/
theorem isShallow_casingPieces {vocabulary : Vocabulary}
    (h : ∀ field, ∀ entry ∈ vocabulary.entries field, ∀ now < 4, Levels now entry.toList) :
    IsShallow (joinedSource vocabulary.casingPieces) := by
  have hentries (field : Field) (now : Nat) (hnow : now < 3) :
      Levels now (joinedSource (alternation (vocabulary.entries field))) :=
    levels_alternation (by omega) fun entry hentry => h field entry hentry (now + 1) (by omega)
  have hjoined : Levels 1 (joinedSource (joinParts [alternation vocabulary.types,
      alternation vocabulary.keywords,
      if vocabulary.blockNames.isEmpty then []
      else [.signs "(?:END_)?(?:"] ++ alternation vocabulary.blockNames ++ [.signs ")"],
      if vocabulary.functions.isEmpty then []
      else [.signs "(?:"] ++ alternation vocabulary.functions ++ [.signs ")(?=\\s*\\()"]])) := by
    refine levels_joinParts ?_
    simp only [List.forall_mem_cons]
    refine ⟨hentries .types 1 (by decide), hentries .keywords 1 (by decide), ?_, ?_, nofun⟩
    · split
      · exact fun most hmost => ⟨most, hmost, rfl⟩
      · have hblocks := (hentries .blockNames 2 (by decide)).grouped (by decide)
        have hend : Levels 1 "(?:END_)?".toList := by decide +kernel
        simpa [joinedSource, Piece.source, entries] using hend.append hblocks
    · split
      · exact fun most hmost => ⟨most, hmost, rfl⟩
      · have hcalls := (hentries .functions 2 (by decide)).grouped (by decide)
        have hend : Levels 1 "(?=\\s*\\()".toList := by decide +kernel
        simpa [joinedSource, Piece.source, entries] using hcalls.append hend
  obtain ⟨most, hmost, heq⟩ := hjoined 1 (by decide)
  have hopen : Depth.along {} (joinedSource [.signs "\\b(?:"]) = ⟨.outside, 1, 1⟩ := rfl
  have hclose : (Depth.along ⟨.outside, 1, most⟩ (joinedSource [.signs ")\\b"])).most = most := rfl
  rw [IsShallow, casingPieces, joinedSource_append, joinedSource_append, Depth.along_append,
    Depth.along_append, hopen, heq, hclose]
  omega

end

/-! ## Combined patterns -/

variable [Host]

theorem checkJoined_eq_ok_iff {pieces : List Piece} :
    checkJoined pieces = .ok () ↔ (∀ entry, .entry entry ∈ pieces → entryFlags entry = none) ∧
      Host.holds true (joinedSource pieces) = true := by
  rw [← flagsOffset_eq_none_iff, checkJoined]
  cases flagsOffset 0 pieces <;> by_cases hholds : Host.holds true (joinedSource pieces) = true <;>
    simp [hholds]

theorem exists_entryPatterns (hvalid : ∀ entry ∈ entries, entryFault entry = none) :
    ∃ patterns, entryPatterns entries = .ok patterns := by
  obtain ⟨patterns, hpatterns, -⟩ := adds_alternation hvalid
  exact ⟨patterns, hpatterns⟩

variable {vocabulary : Vocabulary}

/-- The pattern for words in capitals can be built if and only if the entries can be joined. -/
theorem casingPattern_eq_ok_iff (hvalid : vocabulary.IsValid) :
    (∃ pattern, vocabulary.casingPattern = .ok pattern) ↔
      vocabulary.Flagless ∧ vocabulary.HoldsCasing := by
  obtain ⟨types, htypes⟩ := exists_entryPatterns (hvalid .types)
  obtain ⟨keywords, hkeywords⟩ := exists_entryPatterns (hvalid .keywords)
  obtain ⟨blockNames, hblockNames⟩ := exists_entryPatterns (hvalid .blockNames)
  obtain ⟨functions, hfunctions⟩ := exists_entryPatterns (hvalid .functions)
  have hjoined : checkJoined vocabulary.casingPieces = .ok () ↔
      vocabulary.Flagless ∧ vocabulary.HoldsCasing := by
    simp only [checkJoined_eq_ok_iff, entry_mem_casingPieces, Flagless, HoldsCasing,
      forall_exists_index]
    rw [forall_comm]
  rw [← hjoined, casingPattern]
  cases checkJoined vocabulary.casingPieces with
  | error fault =>
    constructor
    · rintro ⟨pattern, hpattern⟩
      cases hpattern
    · intro hchecked
      cases hchecked
  | ok =>
    refine ⟨fun _ => rfl, fun _ => ?_⟩
    simp only [entries] at htypes hkeywords hblockNames hfunctions
    rw [htypes, hkeywords, hblockNames, hfunctions]
    exact ⟨_, rfl⟩

theorem callPattern_eq_ok_iff (hvalid : vocabulary.IsValid) :
    (∃ pattern, vocabulary.callPattern = .ok pattern) ↔
      (∀ entry ∈ vocabulary.functions, entryFlags entry = none) ∧ vocabulary.HoldsCalls := by
  obtain ⟨functions, hfunctions⟩ := exists_entryPatterns (hvalid .functions)
  have hjoined : checkJoined vocabulary.callPieces = .ok () ↔
      (∀ entry ∈ vocabulary.functions, entryFlags entry = none) ∧ vocabulary.HoldsCalls := by
    simp only [checkJoined_eq_ok_iff, entry_mem_callPieces, HoldsCalls]
  rw [← hjoined, callPattern]
  cases checkJoined vocabulary.callPieces with
  | error fault =>
    constructor
    · rintro ⟨pattern, hpattern⟩
      cases hpattern
    · intro hchecked
      cases hchecked
  | ok =>
    refine ⟨fun _ => rfl, fun _ => ?_⟩
    rw [show entryPatterns vocabulary.functions = .ok functions from hfunctions]
    exact ⟨_, rfl⟩

/-! ## Extended vocabularies -/

theorem entriesOf_toFields (hvalid : vocabulary.IsValid) (field : Field) :
    entriesOf vocabulary.toFields field = .ok (vocabulary.entries field) := by
  have hlookup : vocabulary.toFields.lookup field.key =
      some (.array ((vocabulary.entries field).map .string)) := by
    cases field <;> rfl
  have hfault : entriesFault (vocabulary.entries field) = none :=
    List.findSome?_eq_none_iff.mpr (hvalid field)
  rw [entriesOf, hlookup]
  simp only [fieldEntries, strings?_map, hfault]

/-- A vocabulary that passes the checks is read back from its fields. -/
theorem ofFields_toFields (hvalid : vocabulary.IsValid) :
    ofFields vocabulary.toFields = .ok vocabulary := by
  have hunknown : unknownKeys vocabulary.toFields = [] := rfl
  have hlimit : limitFault vocabulary.toFields = none := by
    rw [limitFault, List.findSome?_eq_none_iff]
    intro field _
    rw [entriesOf_toFields hvalid]
  have hfindings : findings vocabulary.toFields = [] := by
    rw [findings, hunknown, List.append_nil, List.flatMap_eq_nil_iff]
    intro field _
    rw [entriesOf_toFields hvalid]
  rw [ofFields, hlimit, hfindings]
  simp only [entriesOf_toFields hvalid]
  rfl

theorem extend_eq_merge (hbase : base.IsValid) (hadditions : additions.IsValid) :
    base.extend additions = .ok (base.merge additions) :=
  ofFields_toFields (hbase.merge hadditions)

theorem flagless_merge :
    (base.merge additions).Flagless ↔ base.Flagless ∧ additions.Flagless := by
  simp only [Flagless, merge, entries_ofEntries, mem_mergeEntries, or_imp, forall_and]

/-- Sources with shallow parentheses are never too much for the stack. -/
theorem joinable_iff_flagless
    (hcasing : IsShallow (joinedSource vocabulary.casingPieces))
    (hcalls : IsShallow (joinedSource vocabulary.callPieces)) :
    vocabulary.Joinable ↔ vocabulary.Flagless :=
  ⟨Joinable.flagless, fun h =>
    ⟨h, Host.holds_of_isShallow _ _ hcasing, Host.holds_of_isShallow _ _ hcalls⟩⟩

theorem empty_isValid : empty.IsValid := by
  intro field entry h
  cases field <;> cases h

/-! ## The standard vocabulary on every host -/

omit [Host] in
theorem standard_isHomely :
    (∀ field ∈ Field.all, ∀ entry ∈ standard.entries field, IsHomely entry.toList) ∧
    IsShallow (joinedSource standard.casingPieces) ∧
    IsShallow (joinedSource standard.callPieces) := by
  decide +kernel

section

omit [Host]

variable (host other : Host)

theorem entryPatterns_host {entries : List String}
    (h : ∀ entry ∈ entries, IsHomely entry.toList) :
    @entryPatterns host entries = @entryPatterns other entries := by
  rw [@entryPatterns.eq_1 host, @entryPatterns.eq_1 other]
  induction entries with
  | nil => rw [List.mapM_nil, List.mapM_nil]
  | cons entry entries ih =>
    obtain ⟨hentry, hentries⟩ := List.forall_mem_cons.mp h
    rw [List.mapM_cons, List.mapM_cons, ih hentries, @entryPattern.eq_1 host,
      @entryPattern.eq_1 other, parse_host host other hentry.unescaped]

theorem checkJoined_host {pieces : List Piece}
    (h : ∀ entry, .entry entry ∈ pieces → IsHomely entry.toList)
    (hshallow : IsShallow (joinedSource pieces)) :
    @checkJoined host pieces = @checkJoined other pieces := by
  have hflags (offset : Nat) : @flagsOffset host offset pieces =
      @flagsOffset other offset pieces := by
    clear hshallow
    induction pieces generalizing offset with
    | nil => rw [@flagsOffset.eq_1 host, @flagsOffset.eq_1 other]
    | cons piece pieces ih =>
      have ih := ih fun entry hmem => h entry (List.mem_cons_of_mem _ hmem)
      cases piece with
      | signs text => rw [@flagsOffset.eq_2 host, @flagsOffset.eq_2 other, ih]
      | entry text =>
        have hentry := (h text List.mem_cons_self).unescaped
        rw [@flagsOffset_entry host, @flagsOffset_entry other, @entryFlags.eq_1 host,
          @entryFlags.eq_1 other, parse_host host other hentry, ih]
  rw [@checkJoined.eq_1 host, @checkJoined.eq_1 other]
  simp only [host.holds_of_isShallow _ _ hshallow, other.holds_of_isShallow _ _ hshallow, hflags]

/-- The combined patterns of the standard vocabulary are the same on every host. -/
theorem standard_casingPattern : @casingPattern host standard = @casingPattern other standard := by
  obtain ⟨hentries, hshallow, -⟩ := standard_isHomely
  have hentries (field : Field) := hentries field field.mem_all
  have hjoined := @checkJoined_host host other standard.casingPieces (fun entry hmem => by
    obtain ⟨field, hfield⟩ := entry_mem_casingPieces.mp hmem
    exact hentries field entry hfield) hshallow
  have hpatterns (entries : List String) (h : ∀ entry ∈ entries, IsHomely entry.toList) :=
    entryPatterns_host host other h
  rw [@casingPattern.eq_1 host, @casingPattern.eq_1 other, hjoined,
    hpatterns standard.types (hentries .types), hpatterns standard.keywords (hentries .keywords),
    hpatterns standard.blockNames (hentries .blockNames),
    hpatterns standard.functions (hentries .functions)]

theorem standard_callPattern : @callPattern host standard = @callPattern other standard := by
  obtain ⟨hentries, -, hshallow⟩ := standard_isHomely
  have hfunctions : ∀ entry ∈ standard.functions, IsHomely entry.toList :=
    hentries .functions (Field.mem_all _)
  have hjoined := @checkJoined_host host other standard.callPieces
    (fun entry hmem => hfunctions entry (entry_mem_callPieces.mp hmem)) hshallow
  rw [@callPattern.eq_1 host, @callPattern.eq_1 other, hjoined,
    entryPatterns_host host other hfunctions]

end

theorem standard_isValid : standard.IsValid ∧ standard.Joinable := by
  obtain ⟨hentries, hcasing, hcalls⟩ := standard_isHomely
  have hplain : ∀ field ∈ Field.all, ∀ entry ∈ standard.entries field,
      @entryFault Host.plain entry = none ∧ @entryFlags Host.plain entry = none := by
    decide +kernel
  refine ⟨fun field entry hentry => ?_, (joinable_iff_flagless hcasing hcalls).mpr
    fun field entry hentry => ?_⟩
  · rw [entryFault, compile_host _ Host.plain (hentries field field.mem_all entry hentry)]
    exact (hplain field field.mem_all entry hentry).1
  · rw [entryFlags, parse_host _ Host.plain (hentries field field.mem_all entry hentry).unescaped]
    exact (hplain field field.mem_all entry hentry).2

end StructuredText.Vocabulary

namespace StructuredText.Format

open Pattern Vocabulary

section

variable [Host] {vocabulary : Vocabulary}

/-- A text can be formatted if and only if the entries of the vocabulary can be joined. -/
theorem canonical_eq_ok_iff (hvalid : vocabulary.IsValid) (file : String) (text : List Char) :
    (∃ formatted, canonical vocabulary file text = .ok formatted) ↔ vocabulary.Joinable := by
  rw [canonical, Casing.apply]
  constructor
  · rintro ⟨formatted, h⟩
    cases hcasing : vocabulary.casingPattern with
    | error fault =>
      rw [hcasing] at h
      cases h
    | ok casing =>
      rw [hcasing] at h
      cases hcalls : vocabulary.callPattern with
      | error fault =>
        simp only [bind, Except.bind, pure, Except.pure, Spacing.normalize, Spacing.closeCalls,
          hcalls] at h
        cases h
      | ok calls =>
        obtain ⟨hflagless, hholds⟩ := (casingPattern_eq_ok_iff hvalid).mp ⟨casing, hcasing⟩
        exact ⟨hflagless, hholds, ((callPattern_eq_ok_iff hvalid).mp ⟨calls, hcalls⟩).2⟩
  · intro hjoinable
    obtain ⟨casing, hcasing⟩ :=
      (casingPattern_eq_ok_iff hvalid).mpr ⟨hjoinable.flagless, hjoinable.casing⟩
    obtain ⟨calls, hcalls⟩ :=
      (callPattern_eq_ok_iff hvalid).mpr ⟨hjoinable.flagless .functions, hjoinable.calls⟩
    rw [hcasing]
    simp only [bind, Except.bind, pure, Except.pure, Spacing.normalize, Spacing.closeCalls, hcalls]
    exact ⟨_, rfl⟩

/-- Formatting with a vocabulary depends on its entries and on the stack alone, and so does reading
the sources of its combined patterns: all of it works unless an entry sets flags for a whole pattern
or the stack is too small. -/
structure Dependable (vocabulary : Vocabulary) : Prop where
  canonical : ∀ file text,
    (∃ formatted, canonical vocabulary file text = .ok formatted) ↔ vocabulary.Joinable
  casing : (∃ pattern, vocabulary.casingPattern = .ok pattern) ↔
    vocabulary.Flagless ∧ vocabulary.HoldsCasing
  calls : (∃ pattern, vocabulary.callPattern = .ok pattern) ↔
    (∀ entry ∈ vocabulary.functions, entryFlags entry = none) ∧ vocabulary.HoldsCalls
  /-- The combined patterns are what their sources are read as, faults included. -/
  casingSource : vocabulary ≠ .empty →
    (compile .ignoringCase (joinedSource vocabulary.casingPieces)).map Parsed.pattern =
      vocabulary.casingPattern
  callSource : vocabulary.functions ≠ [] →
    (compile .ignoringCase (joinedSource vocabulary.callPieces)).map Parsed.pattern =
      vocabulary.callPattern
  /-- The stack is large enough for sources with shallow parentheses. -/
  joinable : IsShallow (joinedSource vocabulary.casingPieces) →
    IsShallow (joinedSource vocabulary.callPieces) →
      (vocabulary.Joinable ↔ vocabulary.Flagless)

theorem dependable (hvalid : vocabulary.IsValid) : Dependable vocabulary where
  canonical := canonical_eq_ok_iff hvalid
  casing := casingPattern_eq_ok_iff hvalid
  calls := callPattern_eq_ok_iff hvalid
  casingSource := compile_casingPieces hvalid
  callSource := compile_callPieces hvalid
  joinable := joinable_iff_flagless

/-- Every vocabulary that passes the checks can be added to the standard one, and formatting with
either fails only if an entry sets flags for a whole pattern or the stack is too small. -/
theorem canonical_dependable (hvalid : vocabulary.IsValid) :
    Dependable vocabulary ∧ ∃ merged, Vocabulary.standard.extend vocabulary = .ok merged ∧
      Dependable merged ∧ (merged.Flagless ↔ vocabulary.Flagless) := by
  obtain ⟨hstandard, hjoinable⟩ := standard_isValid
  refine ⟨dependable hvalid, _, extend_eq_merge hstandard hvalid,
    dependable (hstandard.merge hvalid), ?_⟩
  rw [flagless_merge]
  exact and_iff_right hjoinable.flagless

end

theorem canonical_dependable_groups :
    let vocabulary : Vocabulary := ⟨["ad(?:d|)\\d*"], ["(?<=x)y|z{2,}?"], [], ["(?x: st ep )"]⟩
    @IsValid Host.plain vocabulary ∧ @Dependable Host.plain vocabulary ∧
      ∃ merged, @extend Host.plain .standard vocabulary = .ok merged ∧
        @Dependable Host.plain merged ∧
        (@Flagless Host.plain merged ↔ @Flagless Host.plain vocabulary) := by
  intro vocabulary
  have hvalid : @IsValid Host.plain vocabulary := by decide +kernel
  exact ⟨hvalid, @canonical_dependable Host.plain _ hvalid⟩

/-- The checks let an entry pass that sets flags for a whole pattern, and no text can be formatted
then. -/
theorem canonical_misplacedFlags :
    let vocabulary : Vocabulary := ⟨["(?i)x"], [], [], []⟩
    @IsValid Host.plain vocabulary ∧ @canonical Host.plain vocabulary "" "x".toList =
      .error (.at "\\b(?:(?:(?:(?i)x))(?=\\s*\\())\\b".toList .misplacedFlags 11) := by
  refine ⟨by decide +kernel, ?_⟩
  rfl

end StructuredText.Format
