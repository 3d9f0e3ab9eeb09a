import StructuredText.Pattern.Parser
import StructuredText.Proofs.Lexemes

/-!
# Patterns inside other patterns

What a source means does not depend on where it stands, as long as it keeps no groups and sets no
flags for a whole pattern: it can be read inside a group of another source, and under other flags.
Only the flag for verbose patterns changes which lexemes there are.

Results:
1. `Reads`: a whole run over the tokens of a source, one lexeme after another.
2. `parse_other_flags`: flags do not change whether a source can be read.
3. `Within.reads`: reading a source inside an open group of another one.
4. `Progress.readAll_nested`, `Progress.readAll_nested_error`: what a source does to the group
   around it, and why one that sets flags for a whole pattern cannot stand there.
-/

namespace StructuredText.Pattern

variable {flags : Flags} {source : List Char} {offset size : Nat} {parsed : Parsed}
  {tokens rest : List Token}

/-! ## Runs -/

namespace Progress

section

variable [Host]

/-- Takes in all lexemes of the tokens. -/
def readAll (size : Nat) (progress : Progress) (tokens : List Token) : Reading Progress :=
  readFrom size tokens.length progress tokens

variable {token : Token} {meaning : Meaning}

theorem length_le_of_readLexeme {verbose : Bool}
    (h : readLexeme verbose size token tokens = .ok (meaning, rest)) :
    rest.length ≤ tokens.length := by
  obtain ⟨⟨taken, rfl, -⟩, -⟩ := readLexeme_place h
  simp

/-- More tries than there are tokens make no difference. -/
theorem readFrom_of_le {tries : Nat} (h : tokens.length ≤ tries) (progress : Progress) :
    readFrom size tries progress tokens = progress.readAll size tokens := by
  suffices ∀ tries' : Nat, tokens.length ≤ tries' →
      readFrom size tries progress tokens = readFrom size tries' progress tokens from
    this _ (Nat.le_refl _)
  induction tries generalizing tokens progress with
  | zero =>
    intro tries' _
    cases List.eq_nil_of_length_eq_zero (Nat.le_zero.mp h)
    cases tries' <;> rfl
  | succ tries ih =>
    intro tries' h'
    cases tokens with
    | nil => cases tries' <;> rfl
    | cons token tokens =>
      rw [List.length_cons] at h h'
      cases tries' with
      | zero => omega
      | succ tries' =>
        rw [readFrom, readFrom]
        cases hread : readLexeme progress.level.flags.verbose size token tokens with
        | error fault => rfl
        | ok result =>
          obtain ⟨meaning, rest⟩ := result
          have hle := length_le_of_readLexeme hread
          simp only [bind, Except.bind]
          cases progress.step ⟨token.offset, offsetOf size rest, meaning⟩ with
          | error fault => rfl
          | ok next => exact ih (by omega) next tries' (by omega)

theorem readAll_cons {progress : Progress}
    (h : readLexeme progress.level.flags.verbose size token tokens = .ok (meaning, rest)) :
    progress.readAll size (token :: tokens) =
      progress.step ⟨token.offset, offsetOf size rest, meaning⟩ >>= fun next =>
        next.readAll size rest := by
  have hle := length_le_of_readLexeme h
  rw [readAll, List.length_cons, readFrom, h]
  simp only [bind, Except.bind]
  cases progress.step ⟨token.offset, offsetOf size rest, meaning⟩ with
  | error fault => rfl
  | ok next => exact readFrom_of_le hle next

end

end Progress

/-- A run that takes in all lexemes of the tokens. -/
inductive Reads [Host] (size : Nat) : Progress → List Token → Progress → Prop
  | nil (progress : Progress) : Reads size progress [] progress
  | cons {progress next final : Progress} {token : Token} {tokens rest : List Token}
      {meaning : Meaning}
      (read : readLexeme progress.level.flags.verbose size token tokens = .ok (meaning, rest))
      (step : progress.step ⟨token.offset, offsetOf size rest, meaning⟩ = .ok next)
      (tail : Reads size next rest final) : Reads size progress (token :: tokens) final

theorem Progress.readFrom_eq_ok [Host] {tries : Nat} {progress final : Progress}
    (h : progress.readFrom size tries tokens = .ok final) (hle : tokens.length ≤ tries) :
    Reads size progress tokens final := by
  induction tries generalizing tokens progress with
  | zero =>
    cases List.eq_nil_of_length_eq_zero (Nat.le_zero.mp hle)
    cases h
    exact .nil _
  | succ tries ih =>
    cases tokens with
    | nil =>
      cases h
      exact .nil _
    | cons token tokens =>
      rw [readFrom] at h
      obtain ⟨⟨meaning, rest⟩, hread, h⟩ := exists_of_bind_ok h
      obtain ⟨next, hnext, h⟩ := exists_of_bind_ok h
      have hshorter := length_le_of_readLexeme hread
      rw [List.length_cons] at hle
      exact .cons hread hnext (ih h (by omega))

namespace Reads

variable [Host] {progress final : Progress}

theorem iff_readAll :
    Reads size progress tokens final ↔ progress.readAll size tokens = .ok final := by
  refine ⟨fun h => ?_, fun h => Progress.readFrom_eq_ok h (Nat.le_refl _)⟩
  induction h with
  | nil => rfl
  | cons read step tail ih =>
    rw [Progress.readAll_cons read, step]
    exact ih

/-- What each step keeps, a run keeps. -/
theorem keeps (hrun : Reads size progress tokens final) (Holds : Progress → Prop)
    (hstep : ∀ {progress next : Progress} {lexeme : Lexeme}, Holds progress →
      progress.step lexeme = .ok next → Holds next)
    (h : Holds progress) : Holds final := by
  induction hrun with
  | nil => exact h
  | cons read step tail ih => exact ih (hstep h step)

theorem no_dangling (h : Reads size progress tokens final) :
    ∀ token ∈ tokens, token.sign ≠ .dangling := by
  induction h with
  | nil => nofun
  | cons read step tail ih =>
    obtain ⟨⟨taken, rfl, htaken⟩, -⟩ := readLexeme_place read
    rw [← List.cons_append, List.forall_mem_append]
    exact ⟨htaken, ih⟩

end Reads

/-! ## Patterns up to flags -/

/-- The form of a pattern: what it says about single code points and places is left out. -/
def erase : Pattern → Pattern
  | .empty => .empty
  | .one _ => .one ⟨[], false, false⟩
  | .anchor _ => .anchor .boundary
  | .seq first second => .seq first.erase second.erase
  | .either first second => .either first.erase second.erase
  | .repeated body least most greedy => .repeated body.erase least most greedy
  | .group index body => .group index body.erase
  | .reference index _ => .reference index .exact
  | .ahead wanted body => .ahead wanted body.erase
  | .behind wanted width body => .behind wanted width body.erase
  | .atomic body => .atomic body.erase
  | .conditional index present absent => .conditional index present.erase absent.erase

@[simp] theorem width_erase (groups : Nat → Width) (pattern : Pattern) :
    pattern.erase.width groups = pattern.width groups := by
  induction pattern with
  | seq first second ihfirst ihsecond => simp only [erase, width, ihfirst, ihsecond]
  | either first second ihfirst ihsecond => simp only [erase, width, ihfirst, ihsecond]
  | repeated body least most greedy ih => simp only [erase, width, ih]
  | group index body ih => simp only [erase, width, ih]
  | atomic body ih => simp only [erase, width, ih]
  | conditional index present absent ihpresent ihabsent =>
    simp only [erase, width, ihpresent, ihabsent]
  | empty | one | anchor | reference | ahead | behind => rfl

@[simp] theorem erase_erase (pattern : Pattern) : pattern.erase.erase = pattern.erase := by
  induction pattern <;> simp_all [erase]

@[simp] theorem erase_sequence (patterns : List Pattern) :
    (sequence patterns).erase = sequence (patterns.map erase) := by
  induction patterns using sequence.induct with
  | case1 | case2 pattern => rfl
  | case3 pattern patterns hne ih =>
    cases patterns with
    | nil => rfl
    | cons second patterns => simp only [sequence, erase, ih, List.map_cons]

@[simp] theorem erase_choice (patterns : List Pattern) :
    (choice patterns).erase = choice (patterns.map erase) := by
  induction patterns using choice.induct with
  | case1 | case2 pattern => rfl
  | case3 pattern patterns hne ih =>
    cases patterns with
    | nil => rfl
    | cons second patterns => simp only [choice, erase, ih, List.map_cons]

theorem isPossessive_erase (pattern : Pattern) :
    pattern.erase.isPossessive = pattern.isPossessive := by
  cases pattern with
  | repeated body least most greedy => cases body <;> rfl
  | _ => rfl

/-- The form of a pattern tells whether it has a flaw. -/
@[simp] theorem flaw_erase (template : Bool) (pattern : Pattern) :
    pattern.erase.flaw template = pattern.flaw template := by
  induction pattern with
  | empty | one | anchor | reference => rfl
  | seq first second ihfirst ihsecond => simp only [erase, flaw, ihfirst, ihsecond]
  | either first second ihfirst ihsecond => simp only [erase, flaw, ihfirst, ihsecond]
  | conditional index present absent ihpresent ihabsent =>
    simp only [erase, flaw, ihpresent, ihabsent]
  | repeated body least most greedy ih | group index body ih | ahead wanted body ih
  | behind wanted width body ih => simp only [erase, flaw, ih]
  | atomic body ih => simp only [erase, flaw, ih, isPossessive_erase]

def Item.erase (item : Item) : Item :=
  { item with pattern := item.pattern.erase }

def Level.erase (level : Level) : Level :=
  { level with
    flags := { Flags.none with verbose := level.flags.verbose }
    alternatives := level.alternatives.map Pattern.erase
    items := level.items.map Item.erase }

namespace Level

@[simp] theorem current_erase (level : Level) : level.erase.current = level.current.erase := by
  simp only [current, erase, erase_sequence, List.map_reverse, List.map_map]
  rfl

@[simp] theorem pattern_erase (level : Level) : level.erase.pattern = level.pattern.erase := by
  simp only [pattern, current_erase, erase_choice, List.map_reverse, List.map_cons]
  rfl

end Level

@[simp] theorem Level.purpose_erase (level : Level) : level.erase.purpose = level.purpose :=
  rfl

@[simp] theorem Level.erase_push (level : Level) (pattern : Pattern) (shape : Shape) :
    (level.push pattern shape).erase = level.erase.push pattern.erase shape :=
  rfl

@[simp] theorem Item.erase_erase (item : Item) : item.erase.erase = item.erase := by
  simp only [Item.erase, Pattern.erase_erase]

@[simp] theorem Level.erase_erase (level : Level) : level.erase.erase = level.erase := by
  simp [Level.erase]

theorem Level.erase_nextAlternative (level : Level) :
    level.nextAlternative.erase = level.erase.nextAlternative.erase := by
  have hcurrent : level.erase.current.erase = level.current.erase := by simp
  simp only [Level.erase] at hcurrent
  simp [nextAlternative, Level.erase, hcurrent]

namespace Flags

variable {flags' : Flags}

theorem verbose_set (value : Bool) (h : flags.verbose = flags'.verbose) (c : Char) :
    (set value flags c).verbose = (set value flags' c).verbose := by
  simp only [set]
  split <;> first | exact h | rfl

theorem verbose_foldl (value : Bool) (h : flags.verbose = flags'.verbose) (letters : List Char) :
    (letters.foldl (set value) flags).verbose = (letters.foldl (set value) flags').verbose := by
  induction letters generalizing flags flags' with
  | nil => exact h
  | cons c letters ih => exact ih (verbose_set value h c)

/-- Whether patterns are verbose behind a change of flags depends on whether they were before. -/
theorem verbose_change (h : flags.verbose = flags'.verbose) (update : FlagChange) :
    (flags.change update).verbose = (flags'.change update).verbose :=
  verbose_foldl false (verbose_foldl true h _) _

end Flags

namespace Progress

/-- The progress up to flags. -/
def erase (progress : Progress) : Progress :=
  { progress with level := progress.level.erase, around := progress.around.map Level.erase }

@[simp] theorem erase_erase (progress : Progress) : progress.erase.erase = progress.erase := by
  simp [erase]

theorem erase_push (progress : Progress) (pattern : Pattern) (shape : Shape) :
    (progress.push pattern shape).erase = progress.erase.push pattern.erase shape :=
  rfl

/-- Patterns of one form make the same difference. -/
theorem erase_push_congr (progress : Progress) {pattern pattern' : Pattern} (shape : Shape)
    (h : pattern.erase = pattern'.erase) :
    (progress.push pattern shape).erase = (progress.erase.push pattern' shape).erase := by
  rw [erase_push, erase_push, erase_erase, h]

theorem verbose_erase (progress : Progress) :
    progress.erase.level.flags.verbose = progress.level.flags.verbose :=
  rfl

theorem erase_openLevel (progress : Progress) (purpose : Purpose) (start : Nat) {flags' : Flags}
    (h : flags.verbose = flags'.verbose) :
    (progress.openLevel purpose start flags).erase =
      (progress.erase.openLevel purpose start flags').erase := by
  simp [openLevel, erase, Level.opened, Level.erase, h]

theorem erase_enter (progress : Progress) (purpose : Purpose) (start : Nat) :
    (progress.enter purpose start).erase = (progress.erase.enter purpose start).erase :=
  erase_openLevel progress purpose start rfl

theorem openConditional_erase (progress : Progress) (lexeme : Lexeme) (test : Test) :
    (progress.openConditional lexeme test).map erase =
      (progress.erase.openConditional lexeme test).map erase := by
  have hcheck (index : Nat) :
      progress.erase.checkBehind lexeme index = progress.checkBehind lexeme index := rfl
  cases test with
  | name name =>
    simp only [openConditional, show progress.erase.names = progress.names from rfl, hcheck]
    cases progress.names.lookup name with
    | none => rfl
    | some index =>
      dsimp only
      cases progress.checkBehind lexeme index with
      | error fault => rfl
      | ok => exact congrArg Except.ok (erase_enter ..)
  | number index width =>
    simp only [openConditional, hcheck]
    split
    · rfl
    cases progress.checkBehind lexeme index with
    | error fault => rfl
    | ok => exact congrArg Except.ok (by simp [enter, openLevel, erase, Level.opened, Level.erase])

theorem openGroup_erase (progress : Progress) (lexeme : Lexeme) (kind : Opening) :
    (progress.openGroup lexeme kind).map erase =
      (progress.erase.openGroup lexeme kind).map erase := by
  cases kind with
  | capture name =>
    cases name with
    | none =>
        exact congrArg Except.ok (by simp [enter, openLevel, erase, Level.opened, Level.erase])
    | some name =>
      simp only [openGroup, show progress.erase.names = progress.names from rfl]
      cases progress.names.lookup name with
      | some earlier => rfl
      | none =>
          exact congrArg Except.ok (by simp [enter, openLevel, erase, Level.opened, Level.erase])
  | plain change =>
    have hverbose := Flags.verbose_change (verbose_erase progress).symm change
    exact congrArg Except.ok (erase_openLevel _ _ _ hverbose)
  | ahead wanted => exact congrArg Except.ok (erase_enter ..)
  | behind wanted =>
    exact congrArg Except.ok (by simp [enter, openLevel, erase, Level.opened, Level.erase])
  | atomic => exact congrArg Except.ok (erase_enter ..)
  | conditional test => exact openConditional_erase ..

theorem closeGroup_erase (progress : Progress) (lexeme : Lexeme) :
    (progress.closeGroup lexeme).map erase = (progress.erase.closeGroup lexeme).map erase := by
  obtain ⟨level, around, names, groupCount, closed, behindFrom, flagsAt, letters, asked⟩ := progress
  cases around with
  | nil => simp only [closeGroup, erase, List.map_nil, checkLetters]
  | cons outer around =>
    have hgroups (tail : List Level) (level' : Level) :
        groupWidth ⟨level', tail, names, groupCount, closed, behindFrom, flagsAt, letters, asked⟩ =
          fun index => (closed.lookup index).getD (.fixed 0) :=
      rfl
    have halternatives : level.erase.alternatives = level.alternatives.map Pattern.erase := rfl
    simp only [closeGroup, erase, List.map_cons, Level.purpose_erase, Level.pattern_erase, hgroups,
      width_erase, Level.current_erase, halternatives]
    cases level.purpose with
    | conditional index =>
      cases level.alternatives <;>
        simp [push, erase, Pattern.erase, Except.map, pure, Except.pure, Function.comp_def]
    | _ => simp [push, erase, Pattern.erase, Except.map, pure, Except.pure]

theorem quantify_erase (progress : Progress) (lexeme : Lexeme) (least : Nat) (most : Option Nat)
    (greed : Greed) :
    (progress.quantify lexeme least most greed).map erase =
      (progress.erase.quantify lexeme least most greed).map erase := by
  obtain ⟨⟨purpose, start, flags, alternatives, items⟩, around, names, groupCount, closed,
    behindFrom, flagsAt, letters, asked⟩ := progress
  cases items with
  | nil => rfl
  | cons item items =>
    obtain ⟨pattern, shape⟩ := item
    cases shape with
    | anchor | repetition => rfl
    | other =>
      cases greed <;>
        simp [quantify, erase, Level.erase, Item.erase, Pattern.erase, Except.map, pure,
          Except.pure]

theorem refer_erase (progress : Progress) (lexeme : Lexeme) (index offset : Nat) :
    (progress.refer lexeme index offset).map erase =
      (progress.erase.refer lexeme index offset).map erase := by
  have hcheck : progress.erase.checkBehind lexeme index = progress.checkBehind lexeme index := rfl
  simp only [refer, show progress.erase.closed = progress.closed from rfl, hcheck]
  split
  · rfl
  cases progress.checkBehind lexeme index with
  | error fault => rfl
  | ok => exact congrArg Except.ok (erase_push_congr progress .other rfl)

theorem isFresh_erase (progress : Progress) : progress.erase.isFresh = progress.isFresh := by
  simp [isFresh, erase, Level.erase]

theorem isComplete_erase (progress : Progress) :
    progress.erase.isComplete = progress.isComplete := by
  simp only [isComplete, erase, Level.purpose_erase]
  cases progress.level.purpose <;> simp [Level.erase]

/-- Flags do not change what a lexeme does to the form of a pattern. -/
theorem step_erase (progress : Progress) (lexeme : Lexeme) :
    (progress.step lexeme).map erase = (progress.erase.step lexeme).map erase := by
  obtain ⟨start, stop, meaning⟩ := lexeme
  cases meaning with
  | set items complement | any => exact congrArg Except.ok (erase_push_congr progress .other rfl)
  | lineStart => exact congrArg Except.ok (erase_push_congr progress .anchor rfl)
  | lineEnd => exact congrArg Except.ok (erase_push_congr progress .anchor rfl)
  | anchor condition => exact congrArg Except.ok (erase_push_congr progress .anchor rfl)
  | quantifier least most greed => exact quantify_erase ..
  | reference index width =>
    simp only [step]
    by_cases hindex : index > progress.groupCount
    · simp only [if_pos hindex, show index > progress.erase.groupCount from hindex]
      rfl
    · simp only [if_neg hindex, show ¬ index > progress.erase.groupCount from hindex]
      exact refer_erase ..
  | namedReference name =>
    simp only [step, show progress.erase.names = progress.names from rfl]
    cases progress.names.lookup name with
    | none => rfl
    | some index => exact refer_erase ..
  | opening kind => exact openGroup_erase ..
  | closing => exact closeGroup_erase ..
  | bar =>
    simp only [step, isComplete_erase]
    cases progress.isComplete with
    | true => rfl
    | false => exact congrArg Except.ok (by simp [erase, Level.erase_nextAlternative])
  | comment => exact congrArg Except.ok progress.erase_erase.symm
  | globalFlags letters =>
    simp only [step, isFresh_erase]
    cases progress.isFresh with
    | false => rfl
    | true =>
      have hverbose := Flags.verbose_change (verbose_erase progress).symm ⟨letters, []⟩
      exact congrArg Except.ok (by simp [erase, Level.erase, hverbose])

end Progress

/-- Two runs that start with the same form stay together. -/
theorem Reads.erase [Host] {first second final : Progress} (h : first.erase = second.erase)
    (hrun : Reads size first tokens final) :
    ∃ final', Reads size second tokens final' ∧ final.erase = final'.erase := by
  induction hrun generalizing second with
  | nil => exact ⟨second, .nil _, h⟩
  | @cons first next final token tokens rest meaning read step tail ih =>
    have hverbose : first.level.flags.verbose = second.level.flags.verbose :=
      (congrArg (·.level.flags.verbose) h :)
    have hstep : (first.step ⟨token.offset, offsetOf size rest, meaning⟩).map Progress.erase =
        (second.step ⟨token.offset, offsetOf size rest, meaning⟩).map Progress.erase := by
      rw [Progress.step_erase, Progress.step_erase second, h]
    rw [step] at hstep
    cases hsecond : second.step ⟨token.offset, offsetOf size rest, meaning⟩ with
    | error fault =>
      rw [hsecond] at hstep
      cases hstep
    | ok next' =>
      rw [hsecond] at hstep
      obtain ⟨final', htail, hfinal⟩ := ih (Except.ok.inj hstep)
      exact ⟨final', .cons (hverbose ▸ read) hsecond htail, hfinal⟩

/-! ## Reading a source -/

namespace Progress

/-- What holds of the progress once all lexemes of a whole source are taken in: no group is open,
flags agree, and conditions ask for groups that are there. -/
structure Finished (progress : Progress) : Prop where
  around : progress.around = []
  letters : ¬('a' ∈ progress.letters ∧ 'u' ∈ progress.letters)
  asked : ∀ ask ∈ progress.asked, ask.1 ≤ progress.groupCount

theorem finish_eq_ok_iff {progress final : Progress} :
    progress.finish = .ok final ↔ final = progress ∧ progress.Finished := by
  obtain ⟨level, around, names, groupCount, closed, behindFrom, flagsAt, letters, asked⟩ := progress
  rw [finish]
  cases around with
  | cons outer around => exact ⟨nofun, fun h => absurd h.2.around nofun⟩
  | nil =>
    simp only [checkLetters]
    by_cases hletters : (letters.contains 'a' && letters.contains 'u') = true
    · rw [if_pos hletters]
      refine ⟨nofun, fun h => absurd ?_ h.2.letters⟩
      simpa using hletters
    rw [if_neg hletters]
    simp only [pure_bind]
    cases hasked : asked.find? fun ask => ask.1 > groupCount with
    | some ask =>
      refine ⟨nofun, fun h => ?_⟩
      have hle := h.2.asked ask (List.mem_of_find?_eq_some hasked)
      have hgt := List.find?_some hasked
      simp only [decide_eq_true_eq] at hgt hle
      omega
    | none =>
      have hfinished : Finished ⟨level, [], names, groupCount, closed, behindFrom, flagsAt, letters,
          asked⟩ := by
        refine ⟨rfl, by simpa using hletters, fun ask hask => ?_⟩
        have hle := List.find?_eq_none.mp hasked ask hask
        simpa using hle
      constructor
      · intro h
        cases h
        exact ⟨rfl, hfinished⟩
      · rintro ⟨rfl, -⟩
        rfl

end Progress

section

variable [Host]

/-- A source is read if its lexemes are taken in up to the end and the pattern has no flaw. -/
theorem parse_eq_ok_iff :
    parse flags source = .ok parsed ↔
      ∃ final, Reads source.length (.start flags) (tokensFrom 0 source) final ∧ final.Finished ∧
        final.level.pattern.flaw (final.letters.contains 't') = none ∧
        parsed = ⟨final.level.pattern, final.names, final.groupCount, final.flagsAt⟩ := by
  simp only [Reads.iff_readAll, parse, Progress.readAll]
  cases Progress.readFrom source.length (tokensFrom 0 source).length
    (.start flags) (tokensFrom 0 source) with
  | error fault => exact ⟨nofun, nofun⟩
  | ok final =>
    simp only [bind, Except.bind, Except.ok.injEq, exists_eq_left']
    cases hfinish : final.finish with
    | error fault =>
      refine ⟨nofun, fun h => ?_⟩
      rw [Progress.finish_eq_ok_iff.mpr ⟨rfl, h.1⟩] at hfinish
      cases hfinish
    | ok final' =>
      obtain ⟨rfl, hfinished⟩ := Progress.finish_eq_ok_iff.mp hfinish
      simp only [hfinished, true_and]
      cases final'.level.pattern.flaw (final'.letters.contains 't') with
      | some cause => exact ⟨nofun, fun h => absurd h.1 nofun⟩
      | none =>
        constructor
        · intro h
          cases h
          exact ⟨rfl, rfl⟩
        · rintro ⟨-, rfl⟩
          rfl

theorem parse_eq_error {cause : Cause}
    (h : (Progress.start flags).readAll source.length (tokensFrom 0 source) =
      .error (cause, offset)) :
    parse flags source = .error (.at source cause offset) := by
  rw [Progress.readAll] at h
  simp only [parse, h]
  rfl

/-- Flags change neither whether a source can be read nor what it says about groups and flags,
unless they make it verbose. -/
theorem parse_other_flags (h : parse flags source = .ok parsed) {flags' : Flags}
    (hverbose : flags.verbose = flags'.verbose) :
    ∃ parsed', parse flags' source = .ok parsed' ∧ parsed'.groupCount = parsed.groupCount ∧
      parsed'.flagsAt = parsed.flagsAt := by
  obtain ⟨final, hrun, hfinished, hflaw, rfl⟩ := parse_eq_ok_iff.mp h
  have hstart : (Progress.start flags).erase = (Progress.start flags').erase := by
    simp [Progress.start, Progress.erase, Level.opened, Level.erase, hverbose]
  obtain ⟨final', hrun', herase⟩ := hrun.erase hstart
  have hpattern : final'.level.pattern.erase = final.level.pattern.erase := by
    rw [← Level.pattern_erase, ← Level.pattern_erase]
    exact (congrArg (·.level.pattern) herase).symm
  simp only [Progress.erase, Progress.mk.injEq] at herase
  obtain ⟨-, haround, -, hcount, -, -, hflags, hletters, hasked⟩ := herase
  refine ⟨_, parse_eq_ok_iff.mpr ⟨final', hrun', ⟨?_, ?_, ?_⟩, ?_, rfl⟩, hcount.symm, hflags.symm⟩
  · rw [hfinished.around] at haround
    exact List.map_eq_nil_iff.mp haround.symm
  · exact hletters ▸ hfinished.letters
  · exact hasked ▸ hcount ▸ hfinished.asked
  · rw [← flaw_erase, hpattern, flaw_erase, ← hletters]
    exact hflaw

end

/-- A pattern without a flaw has none where repetitions are allowed. -/
theorem flaw_false {template : Bool} {pattern : Pattern} (h : pattern.flaw template = none) :
    pattern.flaw false = none := by
  cases template with
  | false => exact h
  | true =>
    induction pattern with
    | empty | one | anchor | reference => rfl
    | seq first second ihfirst ihsecond | either first second ihfirst ihsecond
    | conditional index first second ihfirst ihsecond =>
      simp only [flaw, Option.or_eq_none_iff] at h ⊢
      exact ⟨ihfirst h.1, ihsecond h.2⟩
    | repeated body least most greedy ih => cases h
    | group index body ih | ahead wanted body ih => exact ih h
    | atomic body ih =>
      rw [flaw] at h ⊢
      split at h
      · cases h
      · exact ih h
    | behind wanted width body ih =>
      rw [flaw] at h ⊢
      split at h
      · cases h
      next hnear =>
      split at h
      · cases h
      next hfixed =>
      rw [if_neg hnear, if_neg hfixed]
      exact ih h

/-! ## Groups and flags along a run -/

/-- Whether closing a level makes one more group that keeps its text. -/
def Purpose.groups : Purpose → Nat
  | .capture _ => 1
  | .whole | .plain | .ahead _ | .behind _ _ | .atomic | .conditional _ => 0

namespace Progress

variable {progress next : Progress} {lexeme : Lexeme}

variable {index : Nat} {kind : Opening} {item : Item} {items : List Item}

theorem refer_eq_ok (h : progress.refer lexeme index offset = .ok next) :
    (progress.closed.lookup index).isSome ∧
      next = progress.push (.reference index progress.level.flags.caseRule) .other := by
  rw [refer] at h
  split at h
  · cases h
  next hclosed =>
  obtain ⟨_, -, h⟩ := exists_of_bind_ok h
  cases h
  exact ⟨by simpa [Option.isSome_iff_ne_none] using hclosed, rfl⟩

/-- A condition asks for a group that has a name, or for one by its number. -/
theorem openConditional_eq_ok {test : Test} (h : progress.openConditional lexeme test = .ok next) :
    ∃ index asked, next = { progress.enter (.conditional index) lexeme.start with asked } ∧
      (asked = progress.asked ∧ (∃ name, progress.names.lookup name = some index) ∨
        ∃ place, asked = progress.asked ++ [(index, place)] ∧ 0 < index) := by
  cases test with
  | name name =>
    rw [openConditional] at h
    split at h
    · cases h
    next index hname =>
    obtain ⟨_, -, h⟩ := exists_of_bind_ok h
    cases h
    exact ⟨index, progress.asked, rfl, .inl ⟨rfl, name, hname⟩⟩
  | number index width =>
    simp only [openConditional] at h
    split at h
    · cases h
    next hzero =>
    obtain ⟨_, -, h⟩ := exists_of_bind_ok h
    cases h
    exact ⟨index, _, rfl, .inr ⟨_, rfl, Nat.pos_of_ne_zero hzero⟩⟩

/-- What each opening has in common. -/
structure Opens (progress next : Progress) (purpose : Purpose) : Prop where
  level : ∃ start flags, next.level = .opened purpose start flags
  around : next.around = progress.level :: progress.around
  groupCount : next.groupCount = progress.groupCount + purpose.groups
  flagsAt : next.flagsAt = progress.flagsAt
  letters : next.letters = progress.letters
  asked : next.asked = progress.asked ∨
    ∃ ask, next.asked = progress.asked ++ [ask] ∧ 0 < ask.1

theorem opens_of_openGroup (h : progress.openGroup lexeme kind = .ok next) :
    ∃ purpose, Opens progress next purpose := by
  cases kind with
  | capture name =>
    cases name with
    | none =>
      cases h
      exact ⟨_, ⟨_, _, rfl⟩, rfl, rfl, rfl, rfl, .inl rfl⟩
    | some name =>
      simp only [openGroup] at h
      split at h
      · cases h
      · cases h
        exact ⟨_, ⟨_, _, rfl⟩, rfl, rfl, rfl, rfl, .inl rfl⟩
  | plain change | ahead wanted | behind wanted | atomic =>
    cases h
    exact ⟨_, ⟨_, _, rfl⟩, rfl, rfl, rfl, rfl, .inl rfl⟩
  | conditional test =>
    obtain ⟨index, asked, rfl, hasked⟩ := openConditional_eq_ok h
    refine ⟨.conditional index, ⟨_, _, rfl⟩, rfl, rfl, rfl, rfl, ?_⟩
    obtain ⟨hasked, -⟩ | ⟨place, hasked, hpos⟩ := hasked
    · exact .inl hasked
    · exact .inr ⟨(index, place), hasked, hpos⟩

theorem closeGroup_ne_ok (h : progress.around = []) : progress.closeGroup lexeme ≠ .ok next := by
  intro hclose
  rw [closeGroup, h] at hclose
  obtain ⟨_, -, hclose⟩ := exists_of_bind_ok hclose
  cases hclose

theorem isFresh_of_items (h : progress.level.items = item :: items) : progress.isFresh = false := by
  simp [isFresh, h]

theorem isFresh_of_around {level : Level} {around : List Level}
    (h : progress.around = level :: around) : progress.isFresh = false := by
  simp [isFresh, h]

/-- Behind the start of a pattern, where flags for the whole of it may stand. -/
structure Further (progress next : Progress) : Prop where
  notFresh : next.isFresh = false
  flagsAt : next.flagsAt = progress.flagsAt
  letters : next.letters = progress.letters
  groupCount : progress.groupCount ≤ next.groupCount
  asked : next.asked = progress.asked ∨
    ∃ ask, next.asked = progress.asked ++ [ask] ∧ 0 < ask.1

/-- What only adds to the items of the innermost level goes further. -/
theorem Further.of_items (hitems : next.level.items = item :: items)
    (hflags : next.flagsAt = progress.flagsAt) (hletters : next.letters = progress.letters)
    (hcount : next.groupCount = progress.groupCount) (hasked : next.asked = progress.asked) :
    Further progress next :=
  ⟨isFresh_of_items hitems, hflags, hletters, Nat.le_of_eq hcount.symm, .inl hasked⟩

theorem further_openGroup (h : progress.openGroup lexeme kind = .ok next) :
    Further progress next := by
  obtain ⟨purpose, hopens⟩ := opens_of_openGroup h
  refine ⟨isFresh_of_around hopens.around, hopens.flagsAt, hopens.letters, ?_, hopens.asked⟩
  rw [hopens.groupCount]
  exact Nat.le_add_right _ _

theorem further_closeGroup (h : progress.closeGroup lexeme = .ok next) : Further progress next := by
  cases haround : progress.around with
  | nil => exact absurd h (closeGroup_ne_ok haround)
  | cons level around =>
    simp only [closeGroup, haround] at h
    split at h <;> cases h <;> exact .of_items rfl rfl rfl rfl rfl

theorem further_quantify {least : Nat} {most : Option Nat} {greed : Greed}
    (h : progress.quantify lexeme least most greed = .ok next) : Further progress next := by
  rw [quantify] at h
  split at h
  · cases h
  · split at h
    · cases h
    · cases h
    · cases h
      exact .of_items rfl rfl rfl rfl rfl

theorem further_refer (h : progress.refer lexeme index offset = .ok next) :
    Further progress next := by
  obtain ⟨-, rfl⟩ := refer_eq_ok h
  exact .of_items rfl rfl rfl rfl rfl

/-- A lexeme is a comment, sets flags for the whole pattern, or ends the part in which that can be
done. -/
theorem step_cases (h : progress.step lexeme = .ok next) :
    (lexeme.meaning = .comment ∧ next = progress) ∨
    (∃ letters, lexeme.meaning = .globalFlags letters ∧ progress.isFresh = true ∧
      next.groupCount = progress.groupCount ∧ next.asked = progress.asked ∧
      next.flagsAt = progress.flagsAt.orElse fun _ => some lexeme.start) ∨
    Further progress next := by
  obtain ⟨start, stop, meaning⟩ := lexeme
  cases meaning with
  | set | any | lineStart | lineEnd | anchor =>
    cases h
    exact .inr (.inr (.of_items rfl rfl rfl rfl rfl))
  | quantifier least most greed => exact .inr (.inr (further_quantify h))
  | reference index width =>
    simp only [step] at h
    split at h
    · cases h
    · exact .inr (.inr (further_refer h))
  | namedReference name =>
    simp only [step] at h
    split at h
    · cases h
    · exact .inr (.inr (further_refer h))
  | opening kind => exact .inr (.inr (further_openGroup h))
  | closing => exact .inr (.inr (further_closeGroup h))
  | bar =>
    simp only [step] at h
    split at h
    · cases h
    · cases h
      refine .inr (.inr ⟨?_, rfl, rfl, Nat.le_refl _, .inl rfl⟩)
      simp [isFresh, Level.nextAlternative]
  | comment =>
    cases h
    exact .inl ⟨rfl, rfl⟩
  | globalFlags letters =>
    simp only [step] at h
    split at h
    · next hfresh =>
      cases h
      exact .inr (.inl ⟨letters, rfl, hfresh, rfl, rfl, rfl⟩)
    · cases h

/-- No group is kept, no flags are set for the whole pattern, and no condition asks for a number. -/
structure Quiet (progress : Progress) : Prop where
  groupCount : progress.groupCount = 0
  flagsAt : progress.flagsAt = none
  asked : progress.asked = []

/-- What has been quiet so far has been so before. -/
theorem Quiet.of_step (hnext : next.Quiet) (h : progress.step lexeme = .ok next) :
    progress.Quiet := by
  obtain ⟨hcount, hflags, hasked⟩ := hnext
  rcases step_cases h with ⟨-, rfl⟩ | ⟨letters, -, -, -, -, hat⟩ | hfurther
  · exact ⟨hcount, hflags, hasked⟩
  · rw [hflags] at hat
    cases hbefore : progress.flagsAt <;> rw [hbefore] at hat <;> cases hat
  · refine ⟨Nat.le_zero.mp (hcount ▸ hfurther.groupCount), hfurther.flagsAt.symm.trans hflags, ?_⟩
    rcases hfurther.asked with heq | ⟨ask, heq, -⟩
    · exact heq.symm.trans hasked
    · rw [hasked] at heq
      simp at heq

end Progress

namespace Reads

variable [Host] {progress final : Progress} {offset : Nat}

section

variable (h : Reads size progress tokens final)
include h

theorem quiet (hfinal : final.Quiet) : progress.Quiet := by
  induction h with
  | nil => exact hfinal
  | cons read step tail ih => exact (ih hfinal).of_step step

theorem flagsAt_of_not_fresh (hfresh : progress.isFresh = false) :
    final.flagsAt = progress.flagsAt := by
  refine (h.keeps (fun current => current.isFresh = false ∧ current.flagsAt = progress.flagsAt) ?_
    ⟨hfresh, rfl⟩).2
  intro current next lexeme hcurrent hnext
  rcases Progress.step_cases hnext with ⟨-, rfl⟩ | ⟨-, -, hfresh', -⟩ | hfurther
  · exact hcurrent
  · rw [hcurrent.1] at hfresh'
    cases hfresh'
  · exact ⟨hfurther.notFresh, hfurther.flagsAt.trans hcurrent.2⟩

theorem flagsAt_of_some (hflags : progress.flagsAt = some offset) :
    final.flagsAt = some offset := by
  refine h.keeps (·.flagsAt = some offset) ?_ hflags
  intro current next lexeme hcurrent hnext
  rcases Progress.step_cases hnext with ⟨-, rfl⟩ | ⟨-, -, -, -, -, hnext⟩ | hfurther
  · exact hcurrent
  · rw [hnext, hcurrent]
    rfl
  · rw [hfurther.flagsAt, hcurrent]

/-- Conditions ask for numbers from one on. -/
theorem asked_pos (hasked : ∀ ask ∈ progress.asked, 0 < ask.1) :
    ∀ ask ∈ final.asked, 0 < ask.1 := by
  refine h.keeps (∀ ask ∈ ·.asked, 0 < ask.1) ?_ hasked
  intro current next lexeme hcurrent hnext
  rcases Progress.step_cases hnext with ⟨-, rfl⟩ | ⟨-, -, -, -, hasked, -⟩ | hfurther
  · exact hcurrent
  · exact hasked ▸ hcurrent
  rcases hfurther.asked with heq | ⟨ask, heq, hpos⟩
  · exact heq ▸ hcurrent
  · rw [heq, List.forall_mem_append, List.forall_mem_singleton]
    exact ⟨hcurrent, hpos⟩

end

/-- A source that keeps no groups and sets no flags is quiet: no condition can ask for a group. -/
theorem quiet_of_finished (h : Reads size (.start flags) tokens final) (hfinished : final.Finished)
    (hcount : final.groupCount = 0) (hflags : final.flagsAt = none) : final.Quiet := by
  refine ⟨hcount, hflags, List.eq_nil_iff_forall_not_mem.mpr fun ask hask => ?_⟩
  have hpos := h.asked_pos nofun ask hask
  have hle := hfinished.asked ask hask
  omega

end Reads

/-! ## A source inside a group -/

/-- Whether no look-behind is open any more once a group is closed, given whether that is so
within. -/
def Purpose.freeOutside (free : Bool) : Purpose → Bool
  | .behind _ true => true
  | .behind _ false | .whole | .plain | .capture _ | .ahead _ | .atomic | .conditional _ => free

/-- The levels of a source by itself, and inside a group that has the levels `base` around it. The
outermost level, which is not verbose, becomes that of the group, and the others keep all but their
offsets. -/
inductive Lodged (base : List Level) : Bool → Level → List Level → Level → List Level → Prop
  | outermost (level : Level) (start : Nat) (whole : level.purpose = .whole)
      (terse : level.flags.verbose = false) :
      Lodged base true level [] { level with purpose := .plain, start } base
  | nested {free : Bool} {outer outer' : Level} {around around' : List Level} (level : Level)
      (start : Nat) (uncaptured : ∀ index, level.purpose ≠ .capture index)
      (below : Lodged base (level.purpose.freeOutside free) outer around outer' around') :
      Lodged base free level (outer :: around) { level with start } (outer' :: around')

namespace Lodged

variable {base : List Level} {free : Bool} {level level' : Level} {around around' : List Level}

theorem eq_with (h : Lodged base free level around level' around') :
    level' = { level with purpose := level'.purpose, start := level'.start } := by
  cases h <;> rfl

/-- Items and alternatives are read in the same way. -/
theorem update (h : Lodged base free level around level' around') (alternatives : List Pattern)
    (items : List Item) :
    Lodged base free { level with alternatives, items } around { level' with alternatives, items }
      around' := by
  cases h with
  | outermost _ start whole terse =>
    exact .outermost { level with alternatives, items } start whole terse
  | nested _ start uncaptured below =>
    exact .nested { level with alternatives, items } start uncaptured below

/-- A group that is opened inside. -/
theorem enter (h : Lodged base free level around level' around') (purpose : Purpose) {free' : Bool}
    (huncaptured : ∀ index, purpose ≠ .capture index) (hfree : purpose.freeOutside free' = free)
    (start start' : Nat) (flags : Flags) :
    Lodged base free' (.opened purpose start flags) (level :: around) (.opened purpose start' flags)
      (level' :: around') := by
  subst hfree
  exact .nested (.opened purpose start flags) start' huncaptured h

end Lodged

/-- How far reading has come in a source by itself, where all is quiet, and in the same source
inside a group that has been opened at `base`. -/
inductive Within (base : Progress) : Progress → Progress → Prop
  | intro {level level' : Level} {around around' : List Level} {behindFrom behindFrom' : Option Nat}
      {letters : List Char} {free : Bool}
      (levels : Lodged base.around free level around level' around')
      (hfree : behindFrom.isNone = free) (hfree' : behindFrom'.isNone = free) :
      Within base ⟨level, around, [], 0, [], behindFrom, none, letters, []⟩
        ⟨level', around', base.names, base.groupCount, [], behindFrom', base.flagsAt, base.letters,
          base.asked⟩

namespace Within

variable {start start' stop stop' : Nat} {base inner outer next : Progress}

section

variable (h : Within base inner outer)
include h

theorem flags_eq : outer.level.flags = inner.level.flags := by
  obtain ⟨levels, -, -⟩ := h
  exact (congrArg Level.flags levels.eq_with :)

theorem update (alternatives : List Pattern) (items : List Item) :
    Within base { inner with level := { inner.level with alternatives, items } }
      { outer with level := { outer.level with alternatives, items } } := by
  obtain ⟨levels, hfree, hfree'⟩ := h
  exact .intro (levels.update alternatives items) hfree hfree'

theorem push (pattern : Pattern) (shape : Shape) :
    Within base (inner.push pattern shape) (outer.push pattern shape) := by
  have hpush := h.update inner.level.alternatives (⟨pattern, shape⟩ :: inner.level.items)
  obtain ⟨levels, -, -⟩ := h
  rw [levels.eq_with] at hpush ⊢
  exact hpush

theorem openLevel (purpose : Purpose) (huncaptured : ∀ index, purpose ≠ .capture index)
    (hpurpose : ∀ free, purpose.freeOutside free = free) (start start' : Nat) (flags : Flags) :
    Within base (inner.openLevel purpose start flags) (outer.openLevel purpose start' flags) := by
  obtain ⟨levels, hfree, hfree'⟩ := h
  exact .intro (levels.enter purpose huncaptured (hpurpose _) start start' flags) hfree hfree'

theorem enter (purpose : Purpose) (huncaptured : ∀ index, purpose ≠ .capture index)
    (hpurpose : ∀ free, purpose.freeOutside free = free) (start start' : Nat) :
    Within base (inner.enter purpose start) (outer.enter purpose start') := by
  rw [Progress.enter, Progress.enter, h.flags_eq]
  exact h.openLevel purpose huncaptured hpurpose start start' _

variable {meaning : Meaning} {lexeme lexeme' : Lexeme}

theorem openGroup {kind : Opening} {meaning' : Meaning}
    (hopen : inner.openGroup ⟨start, stop, meaning⟩ kind = .ok next) (hquiet : next.Quiet) :
    ∃ next', outer.openGroup ⟨start', stop', meaning'⟩ kind = .ok next' ∧
    Within base next next' := by
  have hflags := h.flags_eq
  cases kind with
  | capture name =>
    have hgroups : next.groupCount = inner.groupCount + 1 := by
      cases name with
      | none =>
        cases hopen
        rfl
      | some name =>
        simp only [Progress.openGroup] at hopen
        split at hopen
        · cases hopen
        · cases hopen
          rfl
    have hcount := hquiet.groupCount
    omega
  | plain change =>
    cases hopen
    exact ⟨_, rfl, hflags ▸ h.openLevel .plain (fun _ => nofun) (fun _ => rfl) ..⟩
  | ahead wanted =>
    cases hopen
    exact ⟨_, rfl, h.enter (.ahead wanted) (fun _ => nofun) (fun _ => rfl) ..⟩
  | behind wanted =>
    obtain @⟨_, _, _, _, behindFrom, behindFrom', _, free, levels, hfree, hfree'⟩ := h
    cases hopen
    refine ⟨_, rfl, ?_⟩
    dsimp only [Progress.enter, Progress.openLevel] at hflags ⊢
    rw [hflags]
    -- Both or neither are inside a look-behind already.
    rcases behindFrom with _ | from' <;> rcases behindFrom' with _ | from''
    · subst hfree
      exact .intro (levels.enter (.behind wanted true) (fun _ => nofun) rfl ..) rfl rfl
    · exact absurd (hfree.trans hfree'.symm) nofun
    · exact absurd (hfree.trans hfree'.symm) nofun
    · subst hfree
      exact .intro (levels.enter (.behind wanted false) (fun _ => nofun) rfl ..) rfl rfl
  | atomic =>
    cases hopen
    exact ⟨_, rfl, h.enter .atomic (fun _ => nofun) (fun _ => rfl) ..⟩
  | conditional test =>
    -- Without groups there is neither a name nor a number to ask for.
    obtain ⟨index, asked, rfl, hasked⟩ := Progress.openConditional_eq_ok hopen
    obtain ⟨levels, -, -⟩ := h
    rcases hasked with ⟨-, name, hname⟩ | ⟨place, rfl, -⟩
    · cases hname
    · exact absurd hquiet.asked nofun

theorem closeGroup (hclose : inner.closeGroup lexeme = .ok next) :
    ∃ next', outer.closeGroup lexeme' = .ok next' ∧ Within base next next' := by
  obtain @⟨level, _, _, _, _, _, _, _, levels, hfree, hfree'⟩ := h
  cases levels with
  | outermost => exact absurd hclose (Progress.closeGroup_ne_ok rfl)
  | nested _ _ uncaptured below =>
    obtain ⟨purpose, start, flags, alternatives, items⟩ := level
    cases purpose with
    | capture index => exact absurd rfl (uncaptured index)
    | whole | plain | ahead wanted | atomic | conditional index =>
      cases hclose
      exact ⟨_, rfl, push (.intro below hfree hfree') _ _⟩
    | behind wanted outermost =>
      cases hclose
      refine ⟨_, rfl, ?_⟩
      dsimp only [Progress.push]
      cases outermost with
      | true => exact push (.intro below rfl rfl) _ _
      | false => exact push (.intro below hfree hfree') _ _

theorem quantify {least : Nat} {most : Option Nat} {greed : Greed}
    (hquantify : inner.quantify lexeme least most greed = .ok next) :
    ∃ next', outer.quantify lexeme' least most greed = .ok next' ∧ Within base next next' := by
  obtain @⟨level, level', _, _, _, _, _, _, levels, hfree, hfree'⟩ := h
  obtain ⟨purpose, start, flags, alternatives, items⟩ := level
  have hlevel := levels.eq_with
  obtain ⟨purpose', start', flags', alternatives', items'⟩ := level'
  cases hlevel
  cases items with
  | nil => cases hquantify
  | cons item items =>
    obtain ⟨pattern, shape⟩ := item
    cases shape with
    | anchor | repetition => cases hquantify
    | other =>
      cases hquantify
      exact ⟨_, rfl, .intro (levels.update _ _) hfree hfree'⟩

/-- The group around the source is no condition. -/
theorem isComplete_eq : outer.isComplete = inner.isComplete := by
  obtain ⟨levels, -, -⟩ := h
  cases levels with
  | outermost level start whole terse => simp only [Progress.isComplete, whole]
  | nested level start uncaptured below => rfl

theorem bar : Within base { inner with level := inner.level.nextAlternative }
    { outer with level := outer.level.nextAlternative } := by
  have hbar := h.update (inner.level.current :: inner.level.alternatives) []
  obtain ⟨levels, -, -⟩ := h
  rw [levels.eq_with] at hbar ⊢
  exact hbar

/-- A lexeme that can be taken in where the source stands by itself can be taken in inside a
group. -/
theorem step (hstep : inner.step ⟨start, stop, meaning⟩ = .ok next) (hquiet : next.Quiet)
    (start' stop' : Nat) :
    ∃ next', outer.step ⟨start', stop', meaning⟩ = .ok next' ∧ Within base next next' := by
  have hsame := h.flags_eq
  cases meaning with
  | set | any | lineStart | lineEnd | anchor =>
    cases hstep
    exact ⟨_, rfl, hsame ▸ h.push ..⟩
  | quantifier least most greed => exact h.quantify hstep
  | reference index width =>
    obtain ⟨levels, -, -⟩ := h
    simp only [Progress.step] at hstep
    split at hstep
    · cases hstep
    · exact absurd (Progress.refer_eq_ok hstep).1 nofun
  | namedReference name =>
    obtain ⟨levels, -, -⟩ := h
    cases hstep
  | opening kind => exact h.openGroup hstep hquiet
  | closing => exact h.closeGroup hstep
  | bar =>
    simp only [Progress.step, h.isComplete_eq] at hstep ⊢
    split at hstep
    · cases hstep
    · next hcomplete =>
      cases hstep
      exact ⟨_, if_neg hcomplete, h.bar⟩
  | comment =>
    cases hstep
    exact ⟨outer, rfl, h⟩
  | globalFlags letters =>
    obtain ⟨levels, -, -⟩ := h
    simp only [Progress.step] at hstep
    split at hstep
    · cases hstep
      exact absurd hquiet.flagsAt nofun
    · cases hstep

/-- Where no group of the source is open, all of it is in the level of the group around it. -/
theorem eq_of_around_eq_nil (haround : inner.around = []) :
    inner.level.flags.verbose = false ∧
      ∃ start, outer = ⟨{ inner.level with purpose := .plain, start }, base.around, base.names,
        base.groupCount, [], none, base.flagsAt, base.letters, base.asked⟩ := by
  obtain @⟨_, _, _, _, _, behindFrom', _, _, levels, hfree, hfree'⟩ := h
  cases haround
  cases levels with
  | outermost _ start whole terse =>
    cases behindFrom' with
    | none => exact ⟨terse, start, rfl⟩
    | some _ => cases hfree'

end

/-- What can be read where the source stands by itself can be read inside a group, up to the
parenthesis that closes it. -/
theorem reads [Host] {final : Progress} (h : Within base inner outer)
    (hrun : Reads size inner tokens final) (hquiet : final.Quiet) (haround : final.around = [])
    (site : Site) (size' : Nat) :
    ∃ final', outer.readAll size' (site.place tokens) = final'.readAll size' site.close ∧
      Within base final final' := by
  induction hrun generalizing outer with
  | nil => exact ⟨outer, rfl, h⟩
  | @cons inner next final token tokens rest meaning read step tail ih =>
    rcases (readLexeme_place read).2 with hplace | ⟨hverbose, rfl, rfl⟩
    · obtain ⟨next', hnext', hwithin⟩ := h.step step (tail.quiet hquiet)
        (site.distance + token.offset) (offsetOf size' (site.place rest))
      obtain ⟨final', hfinal', hwithin⟩ := ih hwithin hquiet haround
      refine ⟨final', ?_, hwithin⟩
      have hplace := hplace site size'
      rw [← h.flags_eq] at hplace
      rw [Site.place_cons, Progress.readAll_cons hplace, Token.moved, hnext']
      exact hfinal'
    · -- Nothing ends a comment in a verbose group, and so nothing closes that group.
      cases step
      cases tail
      rw [(h.eq_of_around_eq_nil haround).1] at hverbose
      cases hverbose

end Within

namespace Progress

/-- Nothing that has been read before changes what comes: no group is closed, no look-behind is
open, and the flags are these. -/
structure IsClear (progress : Progress) (flags : Flags) : Prop where
  closed : progress.closed = []
  behindFrom : progress.behindFrom = none
  flags : progress.level.flags = flags

/-- The progress once a group has been opened. -/
def opening (progress : Progress) (start : Nat) : Progress :=
  progress.enter .plain start

variable {progress : Progress} {flags : Flags} {source : List Char} {parsed : Parsed}

theorem within_opening (hclear : progress.IsClear flags) (hterse : flags.verbose = false)
    (start : Nat) : Within (progress.opening start) (.start flags) (progress.opening start) := by
  obtain ⟨level, around, names, groupCount, closed, behindFrom, flagsAt, letters, asked⟩ := progress
  obtain ⟨rfl, rfl, rfl⟩ := hclear
  exact .intro (.outermost (.opened .whole 0 level.flags) start rfl hterse) rfl rfl

variable [Host]

/-- A source that keeps no groups and sets no flags adds its pattern to the group around it. -/
theorem readAll_nested (hclear : progress.IsClear flags) (hterse : flags.verbose = false)
    (hparse : parse flags source = .ok parsed) (hcount : parsed.groupCount = 0)
    (hflags : parsed.flagsAt = none) (start size : Nat) (site : Site) :
    ∃ final : Progress, (progress.opening start).readAll size (site.place (tokensFrom 0 source)) =
        final.readAll size site.close ∧
      ∀ lexeme, final.closeGroup lexeme = .ok (progress.push parsed.pattern .other) := by
  obtain ⟨inner, hrun, hfinished, -, rfl⟩ := parse_eq_ok_iff.mp hparse
  have hquiet := hrun.quiet_of_finished hfinished hcount hflags
  obtain ⟨final, hfinal, hwithin⟩ :=
    (within_opening hclear hterse start).reads hrun hquiet hfinished.around site size
  obtain ⟨-, start', rfl⟩ := hwithin.eq_of_around_eq_nil hfinished.around
  refine ⟨_, hfinal, fun lexeme => ?_⟩
  obtain ⟨level, around, names, groupCount, closed, behindFrom, flagsAt, letters, asked⟩ := progress
  obtain ⟨rfl, rfl, rfl⟩ := hclear
  rfl

/-- Flags for a whole pattern cannot be set behind its start. -/
theorem readAll_misplaced {inner final outer : Progress} (hrun : Reads size inner tokens final)
    (hterse : inner.level.flags.verbose = false) (hnone : inner.flagsAt = none)
    (hflags : final.flagsAt = some offset) (hfresh : outer.isFresh = false)
    (hterse' : outer.level.flags.verbose = false) (site : Site) (size' : Nat) :
    outer.readAll size' (site.place tokens) = .error (.misplacedFlags, site.distance + offset) := by
  induction hrun with
  | nil =>
    rw [hnone] at hflags
    cases hflags
  | @cons inner next final token tokens rest meaning read step tail ih =>
    rcases (readLexeme_place read).2 with hplace | ⟨hverbose, -⟩
    · have hplace := hplace site size'
      rw [hterse, ← hterse'] at hplace
      rw [Site.place_cons, readAll_cons hplace]
      rcases step_cases step with ⟨rfl, rfl⟩ | ⟨letters, rfl, -, -, -, hat⟩ | hfurther
      · exact ih hterse hnone hflags
      · rw [hnone] at hat
        have hsome := tail.flagsAt_of_some hat
        rw [hflags, Option.some.injEq] at hsome
        simp only [Progress.step, hfresh, hsome]
        rfl
      · rw [tail.flagsAt_of_not_fresh hfurther.notFresh, hfurther.flagsAt, hnone] at hflags
        cases hflags
    · rw [hterse] at hverbose
      cases hverbose

/-- A source that sets flags for a whole pattern cannot stand in a group. -/
theorem readAll_nested_error (hparse : parse flags source = .ok parsed)
    (hterse : flags.verbose = false) (hflags : parsed.flagsAt = some offset)
    (hsame : progress.level.flags = flags) (start size : Nat) (site : Site) :
    (progress.opening start).readAll size (site.place (tokensFrom 0 source)) =
      .error (.misplacedFlags, site.distance + offset) := by
  obtain ⟨final, hrun, -, -, rfl⟩ := parse_eq_ok_iff.mp hparse
  refine readAll_misplaced hrun hterse rfl hflags (isFresh_of_around rfl) ?_ site size
  exact hsame ▸ hterse

end Progress

end StructuredText.Pattern
