import StructuredText.Proofs.Nesting

/-!
# Groups of a pattern

While a source is read, the groups that keep their text are counted as they open. Each of them is
closed before the source ends, so that the count is the number of groups that the pattern has.

Results:
1. `Progress.step_counted`: a lexeme keeps the count right.
2. `parse_groupCount`: the count is the number of groups of the pattern.
-/

namespace StructuredText.Pattern

/-- How many groups of a pattern keep the text that they match. -/
def groups : Pattern → Nat
  | .empty | .one _ | .anchor _ | .reference _ _ => 0
  | .seq first second | .either first second | .conditional _ first second =>
      first.groups + second.groups
  | .repeated body _ _ _ | .ahead _ body | .behind _ _ body | .atomic body => body.groups
  | .group _ body => body.groups + 1

theorem groups_sequence_cons (pattern : Pattern) (patterns : List Pattern) :
    (sequence (pattern :: patterns)).groups = pattern.groups + (sequence patterns).groups := by
  cases patterns <;> rfl

theorem groups_sequence_concat (patterns : List Pattern) (pattern : Pattern) :
    (sequence (patterns ++ [pattern])).groups = (sequence patterns).groups + pattern.groups := by
  induction patterns with
  | nil => simp [sequence, groups]
  | cons first patterns ih =>
    rw [List.cons_append, groups_sequence_cons, groups_sequence_cons, ih, Nat.add_assoc]

theorem groups_choice_cons (pattern : Pattern) (patterns : List Pattern) :
    (choice (pattern :: patterns)).groups = pattern.groups + (choice patterns).groups := by
  cases patterns <;> rfl

theorem groups_choice_concat (patterns : List Pattern) (pattern : Pattern) :
    (choice (patterns ++ [pattern])).groups = (choice patterns).groups + pattern.groups := by
  induction patterns with
  | nil => simp [choice, groups]
  | cons first patterns ih =>
    rw [List.cons_append, groups_choice_cons, groups_choice_cons, ih, Nat.add_assoc]

/-! ## Levels -/

namespace Level

/-- The groups of a level once it is closed. -/
def groups (level : Level) : Nat :=
  level.pattern.groups + level.purpose.groups

theorem groups_pattern (level : Level) :
    level.pattern.groups = (choice level.alternatives.reverse).groups + level.current.groups := by
  rw [pattern, List.reverse_cons, groups_choice_concat]

theorem groups_opened (purpose : Purpose) (start : Nat) (flags : Flags) :
    (opened purpose start flags).groups = purpose.groups :=
  Nat.zero_add _

theorem groups_push (level : Level) (pattern : Pattern) (shape : Shape) :
    (level.push pattern shape).groups = level.groups + pattern.groups := by
  have hcurrent : (level.push pattern shape).current.groups =
      level.current.groups + pattern.groups := by
    simp only [current, push, List.reverse_cons, List.map_append, List.map_cons, List.map_nil,
      groups_sequence_concat]
  rw [groups, groups, groups_pattern, groups_pattern, hcurrent]
  simp only [push]
  omega

/-- The next alternative has no groups yet. -/
theorem groups_nextAlternative (level : Level) : level.nextAlternative.groups = level.groups := by
  simp only [groups, groups_pattern, nextAlternative, List.reverse_cons, groups_choice_concat]
  rfl

/-- A condition has the groups of its branches. -/
theorem groups_conditional (level : Level) (index : Nat) :
    (if level.alternatives.isEmpty then Pattern.conditional index level.current .empty
      else .conditional index (choice level.alternatives.reverse) level.current).groups =
      level.pattern.groups := by
  rw [groups_pattern]
  cases level.alternatives with
  | nil => exact (Nat.zero_add _).symm
  | cons first alternatives => rfl

/-- The last item can be put in place of one with the same groups. -/
theorem groups_replace {level : Level} {item other : Item} {items : List Item}
    (hitems : level.items = item :: items) (h : other.pattern.groups = item.pattern.groups) :
    groups { level with items := other :: items } = level.groups := by
  have hlevel : level = push { level with items } item.pattern item.shape := by
    obtain ⟨purpose, start, flags, alternatives, _⟩ := level
    cases hitems
    rfl
  have hother := groups_push { level with items } other.pattern other.shape
  rw [h, ← groups_push _ _ item.shape, ← hlevel] at hother
  exact hother

end Level

/-- The groups of levels once they are closed. -/
def levelGroups : List Level → Nat
  | [] => 0
  | level :: levels => level.groups + levelGroups levels

/-! ## Reading -/

namespace Progress

/-- The levels that are open, innermost first. -/
def levels (progress : Progress) : List Level :=
  progress.level :: progress.around

/-- The count is that of the groups of all levels, the outermost of which is the whole pattern. -/
structure Counted (progress : Progress) : Prop where
  count : progress.groupCount = levelGroups progress.levels
  outermost : (progress.levels.map Level.purpose).getLast? = some .whole

theorem counted_start (flags : Flags) : Counted (.start flags) :=
  ⟨rfl, rfl⟩

section

variable {progress next : Progress} {lexeme : Lexeme}

section

variable (h : progress.Counted)
include h

/-- What keeps the innermost level's groups and purpose keeps the count right. -/
theorem Counted.of_level (hgroups : next.level.groups = progress.level.groups)
    (hpurpose : next.level.purpose = progress.level.purpose)
    (haround : next.around = progress.around)
    (hcount : next.groupCount = progress.groupCount) : next.Counted := by
  obtain ⟨hsum, houtermost⟩ := h
  simp only [levels, levelGroups, List.map_cons] at hsum houtermost
  constructor
  · rw [hcount, hsum, levels, levelGroups, haround, hgroups]
  · rw [levels, List.map_cons, haround, hpurpose, houtermost]

theorem Counted.push {pattern : Pattern} (hgroups : pattern.groups = 0)
    (shape : Shape) : (progress.push pattern shape).Counted := by
  refine h.of_level ?_ rfl rfl rfl
  rw [Progress.push, Level.groups_push, hgroups, Nat.add_zero]

/-- A level that opens counts itself if it is to keep its text. -/
theorem counted_openGroup {kind : Opening}
    (hnext : progress.openGroup lexeme kind = .ok next) : next.Counted := by
  obtain ⟨purpose, ⟨start, flags, hlevel⟩, haround, hcount, -⟩ := opens_of_openGroup hnext
  have hlevels : next.levels = .opened purpose start flags :: progress.levels := by
    rw [levels, hlevel, haround, levels]
  constructor
  · rw [hcount, h.count, hlevels, levelGroups, Level.groups_opened, Nat.add_comm]
  · have houtermost := h.outermost
    rw [levels, List.map_cons] at houtermost
    rw [hlevels, levels, List.map_cons, List.map_cons, List.getLast?_cons_cons, houtermost]

/-- The groups of a level that closes become groups of the level around it. -/
theorem counted_closeGroup (hnext : progress.closeGroup lexeme = .ok next) :
    next.Counted := by
  obtain ⟨hsum, houtermost⟩ := h
  cases haround : progress.around with
  | nil => exact absurd hnext (closeGroup_ne_ok haround)
  | cons level around =>
    rw [levels, haround] at hsum houtermost
    simp only [List.map_cons, List.getLast?_cons_cons] at houtermost
    -- Whatever the level is for, the item that it makes has its groups.
    have hpush : ∀ item : Pattern, item.groups = progress.level.groups →
        next.level = level.push item .other → next.around = around →
        next.groupCount = progress.groupCount → next.Counted := by
      intro item hitem hlevel haround hcount
      constructor
      · rw [hcount, hsum, levels, hlevel, haround]
        simp only [levelGroups, Level.groups_push]
        omega
      · rw [levels, hlevel, haround]
        exact houtermost
    have hgroups : progress.level.groups =
      progress.level.pattern.groups + progress.level.purpose.groups := rfl
    simp only [closeGroup, haround] at hnext
    split at hnext
    all_goals
      next hpurpose =>
      rw [hpurpose] at hgroups
      cases hnext
      refine hpush _ ?_ rfl rfl rfl
      first
      | exact hgroups.symm
      | exact (progress.level.groups_conditional _).trans hgroups.symm

theorem counted_quantify {least : Nat} {most : Option Nat} {greed : Greed}
    (hnext : progress.quantify lexeme least most greed = .ok next) : next.Counted := by
  rw [quantify] at hnext
  split at hnext
  · cases hnext
  next pattern shape items hitems =>
    split at hnext
    · cases hnext
    · cases hnext
    · cases hnext
      refine h.of_level (Level.groups_replace hitems ?_) rfl rfl rfl
      cases greed <;> rfl

theorem counted_refer {index offset : Nat}
    (hnext : progress.refer lexeme index offset = .ok next) : next.Counted := by
  obtain ⟨-, rfl⟩ := refer_eq_ok hnext
  exact h.push rfl _

/-- A lexeme keeps the count right. -/
theorem step_counted (hnext : progress.step lexeme = .ok next) :
    next.Counted := by
  obtain ⟨start, stop, meaning⟩ := lexeme
  cases meaning with
  | set | any | lineStart | lineEnd | anchor =>
    cases hnext
    exact h.push rfl _
  | quantifier least most greed => exact counted_quantify h hnext
  | reference index width =>
    simp only [step] at hnext
    split at hnext
    · cases hnext
    · exact counted_refer h hnext
  | namedReference name =>
    simp only [step] at hnext
    split at hnext
    · cases hnext
    · exact counted_refer h hnext
  | opening kind => exact counted_openGroup h hnext
  | closing => exact counted_closeGroup h hnext
  | bar =>
    simp only [step] at hnext
    split at hnext
    · cases hnext
    · cases hnext
      exact h.of_level (Level.groups_nextAlternative _) rfl rfl rfl
  | comment =>
    cases hnext
    exact h
  | globalFlags letters =>
    simp only [step] at hnext
    split at hnext
    · cases hnext
      exact h.of_level rfl rfl rfl rfl
    · cases hnext

end

end

end Progress

/-- The groups that are counted are those of the pattern. -/
theorem parse_groupCount [Host] {flags : Flags} {source : List Char} {parsed : Parsed}
    (h : parse flags source = .ok parsed) : parsed.groupCount = parsed.pattern.groups := by
  obtain ⟨final, hrun, hfinished, -, rfl⟩ := parse_eq_ok_iff.mp h
  obtain ⟨hcount, houtermost⟩ :=
    hrun.keeps _ Progress.step_counted (Progress.counted_start flags)
  rw [Progress.levels, hfinished.around] at hcount houtermost
  have hwhole : final.level.purpose = .whole := Option.some.inj houtermost
  change final.groupCount = final.level.pattern.groups
  rw [hcount, levelGroups, levelGroups, Level.groups, hwhole]
  rfl

end StructuredText.Pattern
