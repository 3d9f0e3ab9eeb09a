import StructuredText.Proofs.VocabularyFields
import StructuredText.Vocabulary.Change

/-!
# Sessions on a vocabulary

Whatever a session does to its vocabulary, all that the vocabulary lists may be entries: a change
puts another such vocabulary in its place, or fails and leaves it.

Results:
1. `Change.apply_eq_ok_iff`: what a change makes of a vocabulary.
2. `Change.Makes.isValid`, `afterChanges_isValid`: what one change keeps, and what a session keeps.
3. `describes_of_perm`: a vocabulary is read back from its lists.
4. `afterChanges_session`: vocabularies that sessions can reach.
-/

namespace StructuredText.Vocabulary

variable [Host]

/-- What a change makes of a vocabulary. There is no case for a change that fails. -/
inductive Change.Makes (current : Vocabulary) : Change → Vocabulary → Prop
  | clear : Makes current .clear .empty
  | reset : Makes current .reset .standard
  | parse {file : String} {fields : List (String × Json)} {vocabulary : Vocabulary} :
      Describes fields vocabulary → Makes current (.parse file (.object fields)) vocabulary
  | build {fields : List (String × Json)} {vocabulary : Vocabulary} :
      Describes fields vocabulary → Makes current (.build fields) vocabulary
  | extend {fields : List (String × Json)} {additions : Vocabulary} :
      Describes fields additions →
      Makes current (.extend (.object fields)) (current.merge additions)
  | load {tree : FileTree} {path : Path} {ontoCurrent : Bool} {text : List Char}
      {fields : List (String × Json)} {additions : Vocabulary} :
      tree.readText path = .ok text → Json.parse text = .ok (.object fields) →
      Describes fields additions →
      Makes current (.load tree path ontoCurrent)
        ((if ontoCurrent then current else .standard).merge additions)

/-! ## Reading vocabularies -/

section

variable {file : String} {vocabulary : Vocabulary}

theorem parseText_eq_ok_iff {text : List Char} : parseText file text = .ok vocabulary ↔
    ∃ fields, Json.parse text = .ok (.object fields) ∧ Describes fields vocabulary := by
  rw [parseText]
  cases Json.parse text with
  | error fault => by_cases hlimit : fault.cause.isLimit <;> simp [hlimit]
  | ok value => simp [parse_eq_ok_iff]

theorem load_eq_ok_iff {tree : FileTree} {path : Path} {base : Vocabulary}
    (hbase : base.IsValid) :
    load tree path base = .ok vocabulary ↔
      ∃ text fields additions, tree.readText path = .ok text ∧
        Json.parse text = .ok (.object fields) ∧ Describes fields additions ∧
        base.merge additions = vocabulary := by
  constructor
  · intro h
    rw [load] at h
    split at h
    · cases h
    · cases h
    next text hread =>
      obtain ⟨additions, hparsed, hmerged⟩ := Pattern.exists_of_bind_ok h
      obtain ⟨fields, hjson, hdescribes⟩ := parseText_eq_ok_iff.mp hparsed
      rw [mapError_eq_ok_iff, extend_eq_merge hbase hdescribes.isValid] at hmerged
      cases hmerged
      exact ⟨text, fields, additions, hread, hjson, hdescribes, rfl⟩
  · rintro ⟨text, fields, additions, hread, hjson, hdescribes, rfl⟩
    simp only [load, hread, parseText_eq_ok_iff.mpr ⟨fields, hjson, hdescribes⟩]
    exact mapError_eq_ok_iff.mpr (extend_eq_merge hbase hdescribes.isValid)

end

/-! ## One change -/

namespace Change

variable {current next : Vocabulary} {change : Change}

/-- What a file is added to. -/
theorem isValid_base (hcurrent : current.IsValid) (ontoCurrent : Bool) :
    (if ontoCurrent then current else standard).IsValid := by
  cases ontoCurrent with
  | false => exact standard_isValid.1
  | true => exact hcurrent

theorem Makes.isValid (h : change.Makes current next) (hcurrent : current.IsValid) :
    next.IsValid := by
  cases h with
  | clear => exact empty_isValid
  | reset => exact standard_isValid.1
  | parse hdescribes | build hdescribes => exact hdescribes.isValid
  | extend hdescribes => exact hcurrent.merge hdescribes.isValid
  | load _ _ hdescribes => exact (isValid_base hcurrent _).merge hdescribes.isValid

/-- A change succeeds with what it makes of the vocabulary, and fails if that is nothing. -/
theorem apply_eq_ok_iff (hcurrent : current.IsValid) :
    change.apply current = .ok next ↔ change.Makes current next := by
  constructor
  · intro h
    cases change with
    | clear =>
      cases h
      exact .clear
    | reset =>
      cases h
      exact .reset
    | parse file value =>
      obtain ⟨fields, rfl, hdescribes⟩ := parse_eq_ok_iff.mp h
      exact .parse hdescribes
    | build fields => exact .build (ofFields_eq_ok_iff.mp (mapError_eq_ok_iff.mp h))
    | extend value =>
      obtain ⟨additions, hadditions, hmerged⟩ := Pattern.exists_of_bind_ok h
      obtain ⟨fields, rfl, hdescribes⟩ := parse_eq_ok_iff.mp hadditions
      rw [mapError_eq_ok_iff, extend_eq_merge hcurrent hdescribes.isValid] at hmerged
      cases hmerged
      exact .extend hdescribes
    | load tree path ontoCurrent =>
      obtain ⟨text, fields, additions, hread, hjson, hdescribes, rfl⟩ :=
        (load_eq_ok_iff (isValid_base hcurrent ontoCurrent)).mp h
      exact .load hread hjson hdescribes
  · intro h
    cases h with
    | clear | reset => rfl
    | parse hdescribes => exact parse_eq_ok_iff.mpr ⟨_, rfl, hdescribes⟩
    | build hdescribes => exact mapError_eq_ok_iff.mpr (ofFields_eq_ok_iff.mpr hdescribes)
    | extend hdescribes =>
      rw [apply, parse_eq_ok_iff.mpr ⟨_, rfl, hdescribes⟩]
      exact mapError_eq_ok_iff.mpr (extend_eq_merge hcurrent hdescribes.isValid)
    | load hread hjson hdescribes =>
      exact (load_eq_ok_iff (isValid_base hcurrent _)).mpr
        ⟨_, _, _, hread, hjson, hdescribes, rfl⟩

theorem next_eq_of_makes (hcurrent : current.IsValid) (h : change.Makes current next) :
    Change.next current change = next := by
  rw [Change.next, (apply_eq_ok_iff hcurrent).mpr h]

/-- A change that makes nothing of a vocabulary leaves it. -/
theorem next_eq_self (hcurrent : current.IsValid) (h : ∀ other, ¬ change.Makes current other) :
    Change.next current change = current := by
  rw [Change.next]
  cases happly : change.apply current with
  | error error => rfl
  | ok other => exact absurd ((apply_eq_ok_iff hcurrent).mp happly) (h other)

theorem next_isValid (hcurrent : current.IsValid) (change : Change) :
    (Change.next current change).IsValid := by
  by_cases h : ∃ other, change.Makes current other
  · obtain ⟨other, hother⟩ := h
    rw [next_eq_of_makes hcurrent hother]
    exact hother.isValid hcurrent
  · rw [next_eq_self hcurrent (not_exists.mp h)]
    exact hcurrent

end Change

/-! ## Sessions -/

theorem afterChanges_concat (changes : List Change) (change : Change) :
    afterChanges (changes ++ [change]) = Change.next (afterChanges changes) change := by
  rw [afterChanges, List.foldl_append]
  rfl

theorem foldl_next_isValid {current : Vocabulary} (hcurrent : current.IsValid)
    (changes : List Change) : (changes.foldl Change.next current).IsValid := by
  induction changes generalizing current with
  | nil => exact hcurrent
  | cons change changes ih => exact ih (Change.next_isValid hcurrent change)

theorem afterChanges_isValid (changes : List Change) : (afterChanges changes).IsValid :=
  foldl_next_isValid empty_isValid changes

omit [Host] in
theorem mem_toFields_iff {vocabulary : Vocabulary} {key : String} {value : Json} :
    (key, value) ∈ vocabulary.toFields ↔ ∃ field : Field, field.key = key ∧
      value = .array ((vocabulary.entries field).map .string) := by
  simp only [toFields, List.mem_map, Prod.mk.injEq, Field.mem_all, true_and, @eq_comm _ value]

omit [Host] in
theorem Field.key_injective : Function.Injective Field.key := by
  intro first second h
  cases first <;> cases second <;> first | rfl | exact absurd h (by decide)

/-- The order of the lists in an object makes no difference. -/
theorem describes_of_perm {vocabulary : Vocabulary} (hvalid : vocabulary.IsValid)
    {fields : List (String × Json)} (h : fields.Perm vocabulary.toFields) :
    Describes fields vocabulary := by
  refine ⟨fun key value hmem => ?_, fun field => ?_⟩
  · obtain ⟨field, hfield, -⟩ := mem_toFields_iff.mp (h.mem_iff.mp hmem)
    exact ⟨field, hfield⟩
  · refine .listed ?_ (isValid_iff.mp hvalid field)
    cases hlookup : fields.lookup field.key with
    | none =>
      have hmem := h.mem_iff.mpr (mem_toFields_iff.mpr ⟨field, rfl, rfl⟩)
      have := List.lookup_eq_none_iff.mp hlookup _ hmem
      simp at this
    | some value =>
      obtain ⟨first, second, hfields, -⟩ := List.lookup_eq_some_iff.mp hlookup
      have hmem : (field.key, value) ∈ fields := by simp [hfields]
      obtain ⟨other, hother, rfl⟩ := mem_toFields_iff.mp (h.mem_iff.mp hmem)
      rw [Field.key_injective hother]

/-- What a session keeps, whatever its changes are. All that its vocabulary lists may be entries;
the next change puts in its place what the change makes of it, or leaves it; and the object that has
its lists, in any order, is read as the vocabulary. Two vocabularies with only such entries can be
merged, and a value is refused for the reasons that there are, and no others. -/
theorem afterChanges_session (changes : List Change) :
    (afterChanges changes).HasEntries ∧
    (∀ change next, change.Makes (afterChanges changes) next →
      afterChanges (changes ++ [change]) = next) ∧
    (∀ change, (∀ next, ¬ change.Makes (afterChanges changes) next) →
      afterChanges (changes ++ [change]) = afterChanges changes) ∧
    (∀ file fields, fields.Perm (afterChanges changes).toFields →
      parse file (.object fields) = .ok (afterChanges changes)) ∧
    (∀ current parsed : Vocabulary, current.HasEntries → parsed.HasEntries →
      current.extend parsed = .ok (current.merge parsed)) ∧
    ∀ file value, (∃ error, parse file value = .error error) ↔ Refused value := by
  have hvalid := afterChanges_isValid changes
  refine ⟨isValid_iff.mp hvalid, fun change next hmakes => ?_, fun change hnone => ?_,
    fun file fields hperm => ?_, fun current parsed hcurrent hparsed => ?_,
    fun file value => parse_eq_error_iff⟩
  · rw [afterChanges_concat, Change.next_eq_of_makes hvalid hmakes]
  · rw [afterChanges_concat, Change.next_eq_self hvalid hnone]
  · exact parse_eq_ok_iff.mpr ⟨fields, rfl, describes_of_perm hvalid hperm⟩
  · exact extend_eq_merge (isValid_iff.mpr hcurrent) (isValid_iff.mpr hparsed)

end StructuredText.Vocabulary
