import Mathlib.Data.List.Basic
import StructuredText.Proofs.PatternGroups
import StructuredText.Proofs.Totality
import StructuredText.Vocabulary.Load

/-!
# Vocabularies as objects

When an object describes a vocabulary, and which one, said without the check that reports what is
wrong with it. The check finds nothing exactly if there is such a vocabulary.

Results:
1. `entryFault_eq_none_iff`: what may be an entry.
2. `ofFields_eq_ok_iff`: an object gives the vocabulary that it describes.
3. `parse_eq_error_iff`: why a value is refused.
-/

namespace StructuredText.Vocabulary

variable {value : Json} {entries : List String}

section

variable [Host]

/-- A text that may be an entry: it is not empty, and it is a pattern by itself that keeps no
group. -/
structure IsEntry (entry : String) : Prop where
  ne_empty : entry ≠ ""
  isPattern : ∃ parsed,
    Pattern.compile .none entry.toList = .ok parsed ∧ parsed.pattern.groups = 0

/-- All that the vocabulary lists may be entries. -/
def HasEntries (vocabulary : Vocabulary) : Prop :=
  ∀ field, ∀ entry ∈ vocabulary.entries field, IsEntry entry

/-- What an object gives a field: the entries that it lists under the key of the field, or none if
it does not have the key. -/
inductive Lists (fields : List (String × Json)) (field : Field) : List String → Prop
  | listed {entries : List String} :
      fields.lookup field.key = some (.array (entries.map .string)) →
      (∀ entry ∈ entries, IsEntry entry) → Lists fields field entries
  | absent : fields.lookup field.key = none → Lists fields field []

/-- The object has no other keys than those of the fields, and gives them the vocabulary's
entries. -/
structure Describes (fields : List (String × Json)) (vocabulary : Vocabulary) : Prop where
  known : ∀ key value, (key, value) ∈ fields → ∃ field : Field, field.key = key
  lists : ∀ field, Lists fields field (vocabulary.entries field)

/-- Why a value describes no vocabulary. -/
inductive Refused : Json → Prop
  | notAnObject {value : Json} : (∀ fields, value ≠ .object fields) → Refused value
  | unknownKey {fields : List (String × Json)} {key : String} {value : Json} :
      (key, value) ∈ fields → (∀ field : Field, field.key ≠ key) → Refused (.object fields)
  | notAList {fields : List (String × Json)} {field : Field} {value : Json} :
      fields.lookup field.key = some value → (∀ items, value ≠ .array items) →
      Refused (.object fields)
  | notAString {fields : List (String × Json)} {field : Field} {items : List Json} {item : Json} :
      fields.lookup field.key = some (.array items) → item ∈ items →
      (∀ text, item ≠ .string text) → Refused (.object fields)
  | wrongEntry {fields : List (String × Json)} {field : Field} {items : List Json} {text : String} :
      fields.lookup field.key = some (.array items) → .string text ∈ items → ¬ IsEntry text →
      Refused (.object fields)

/-! ## Entries -/

/-- The check lets those texts pass that may be entries. -/
theorem entryFault_eq_none_iff {entry : String} : entryFault entry = none ↔ IsEntry entry := by
  rw [entryFault]
  by_cases hempty : entry = ""
  · subst hempty
    exact ⟨fun h => absurd h (by simp), fun h => absurd rfl h.ne_empty⟩
  rw [if_neg (by simpa using hempty)]
  cases hcompile : Pattern.compile .none entry.toList with
  | error fault =>
    constructor
    · intro h
      cases h
    · intro h
      obtain ⟨parsed, hparsed, -⟩ := h.isPattern
      rw [hcompile] at hparsed
      cases hparsed
  | ok parsed =>
    have hgroups := Pattern.parse_groupCount (Pattern.compile_eq_ok_iff.mp hcompile).2
    constructor
    · intro h
      by_cases hcount : parsed.groupCount = 0
      · exact ⟨hempty, parsed, hcompile, hgroups ▸ hcount⟩
      · simp [hcount] at h
    · intro h
      obtain ⟨other, hother, hnone⟩ := h.isPattern
      rw [hcompile] at hother
      cases hother
      simp [hgroups, hnone]

/-- A vocabulary passes the check if all that it lists may be entries. -/
theorem isValid_iff {vocabulary : Vocabulary} : vocabulary.IsValid ↔ vocabulary.HasEntries := by
  simp only [IsValid, HasEntries, entryFault_eq_none_iff]

theorem entriesFault_eq_none_iff :
    entriesFault entries = none ↔ ∀ entry ∈ entries, IsEntry entry := by
  simp only [entriesFault, List.findSome?_eq_none_iff, entryFault_eq_none_iff]

end

/-! ## Fields -/

theorem strings?_eq_some_iff {items : List Json} :
    strings? items = some entries ↔ items = entries.map .string := by
  constructor
  · intro h
    fun_induction strings? items generalizing entries with
    | case1 =>
      cases h
      rfl
    | case2 text items ih =>
      obtain ⟨rest, hrest, rfl⟩ := Option.map_eq_some_iff.mp h
      rw [ih hrest, List.map_cons]
    | case3 => cases h
  · rintro rfl
    exact strings?_map entries

/-- A list whose items are not all strings has findings on the others. -/
theorem exists_of_strings?_eq_none {items : List Json} (h : strings? items = none) (key : String)
    (index : Nat) :
    (∃ item ∈ items, ∀ text, item ≠ .string text) ∧ itemFindings key index items ≠ [] := by
  fun_induction strings? items generalizing index with
  | case1 => cases h
  | case2 text items ih =>
    obtain ⟨⟨item, hitem, hnone⟩, hfindings⟩ := ih (Option.map_eq_none_iff.mp h) (index + 1)
    exact ⟨⟨item, List.mem_cons_of_mem _ hitem, hnone⟩, hfindings⟩
  | case3 item items hnone =>
    refine ⟨⟨item, List.mem_cons_self, hnone⟩, ?_⟩
    rw [itemFindings]
    · simp
    · exact hnone

theorem unknownKeys_eq_nil_iff {fields : List (String × Json)} : unknownKeys fields = [] ↔
    ∀ key value, (key, value) ∈ fields → ∃ field : Field, field.key = key := by
  simp [unknownKeys, Field.mem_all]

variable [Host] {fields : List (String × Json)} {field : Field} {vocabulary : Vocabulary}

theorem lists_of_entriesOf (h : entriesOf fields field = .ok entries) :
    Lists fields field entries := by
  rw [entriesOf] at h
  split at h
  next value hlookup =>
    unfold fieldEntries at h
    split at h
    next items =>
      split at h
      · cases h
      next entries' hstrings =>
        split at h
        · cases h
        next hfault =>
          cases h
          rw [strings?_eq_some_iff] at hstrings
          exact .listed (hstrings ▸ hlookup) (entriesFault_eq_none_iff.mp hfault)
    next => cases h
  next hlookup =>
    cases h
    exact .absent hlookup

theorem Lists.entriesOf_eq (h : Lists fields field entries) :
    entriesOf fields field = .ok entries := by
  rw [entriesOf]
  cases h with
  | listed hlookup hentries =>
    simp only [hlookup, fieldEntries, strings?_map, entriesFault_eq_none_iff.mpr hentries]
  | absent hlookup => simp only [hlookup]

/-- What stands under the key of a field lists its entries. -/
theorem Lists.of_lookup (h : Lists fields field entries)
    (hlookup : fields.lookup field.key = some value) : value = .array (entries.map .string) := by
  cases h with
  | listed hlookup' =>
    rw [hlookup] at hlookup'
    exact Option.some.inj hlookup'
  | absent hlookup' =>
    rw [hlookup] at hlookup'
    cases hlookup'

theorem Lists.isEntry (h : Lists fields field entries) : ∀ entry ∈ entries, IsEntry entry := by
  cases h with
  | listed _ hentries => exact hentries
  | absent => simp

/-- A field is refused for a limit, or with findings, and then so is the object. -/
theorem refused_of_entriesOf {refusal : Refusal} (h : entriesOf fields field = .error refusal) :
    refusal ≠ .findings [] ∧ Refused (.object fields) := by
  rw [entriesOf] at h
  split at h
  next value hlookup =>
    unfold fieldEntries at h
    split at h
    next items =>
      split at h
      next hstrings =>
        cases h
        obtain ⟨⟨item, hitem, hnone⟩, hfindings⟩ :=
          exists_of_strings?_eq_none hstrings field.key 0
        exact ⟨fun hnil => hfindings (Refusal.findings.inj hnil), .notAString hlookup hitem hnone⟩
      next entries hstrings =>
        rw [strings?_eq_some_iff] at hstrings
        subst hstrings
        split at h
        next fault hfault =>
          cases h
          obtain ⟨entry, hentry, hfault⟩ := List.exists_of_findSome?_eq_some hfault
          refine ⟨?_, .wrongEntry hlookup (List.mem_map_of_mem hentry) fun hright => ?_⟩
          · rw [Refusal.ofEntry]
            split <;> simp
          · rw [entryFault_eq_none_iff.mpr hright] at hfault
            cases hfault
        next => cases h
    next hlist =>
      cases h
      exact ⟨by simp, .notAList hlookup hlist⟩
  next => cases h

/-! ## Objects -/

theorem limitFault_eq_none_iff : limitFault fields = none ↔
    ∀ field fault, entriesOf fields field ≠ .error (.limit fault) := by
  rw [limitFault, List.findSome?_eq_none_iff]
  constructor
  · intro h field fault hlimit
    have hfield := h field field.mem_all
    rw [hlimit] at hfield
    cases hfield
  · intro h field _
    split
    next fault hlimit => exact absurd hlimit (h field fault)
    next => rfl

/-- There is no limit and no finding exactly if the object gives each field its entries. -/
theorem findings_eq_nil_iff : limitFault fields = none ∧ findings fields = [] ↔
    (∀ key value, (key, value) ∈ fields → ∃ field : Field, field.key = key) ∧
      ∀ field, ∃ entries, Lists fields field entries := by
  rw [findings, List.append_eq_nil_iff, List.flatMap_eq_nil_iff, unknownKeys_eq_nil_iff,
    limitFault_eq_none_iff]
  constructor
  · rintro ⟨hlimit, hfields, hknown⟩
    refine ⟨hknown, fun field => ?_⟩
    have hfield := hfields field field.mem_all
    cases hentries : entriesOf fields field with
    | error refusal =>
      cases refusal with
      | limit fault => exact absurd hentries (hlimit field fault)
      | findings found =>
        rw [hentries] at hfield
        exact absurd (congrArg _ hfield) (refused_of_entriesOf hentries).1
    | ok entries => exact ⟨entries, lists_of_entriesOf hentries⟩
  · rintro ⟨hknown, hlists⟩
    refine ⟨fun field fault hlimit => ?_, fun field _ => ?_, hknown⟩
    · obtain ⟨entries, hentries⟩ := hlists field
      rw [hentries.entriesOf_eq] at hlimit
      cases hlimit
    · obtain ⟨entries, hentries⟩ := hlists field
      rw [hentries.entriesOf_eq]

/-- An object gives the vocabulary that it describes. -/
theorem ofFields_eq_ok_iff : ofFields fields = .ok vocabulary ↔ Describes fields vocabulary := by
  constructor
  · intro h
    rw [ofFields] at h
    split at h
    · cases h
    next hlimit hfindings =>
      cases h
      obtain ⟨hknown, hlists⟩ := findings_eq_nil_iff.mp ⟨hlimit, hfindings⟩
      refine ⟨hknown, fun field => ?_⟩
      obtain ⟨entries, hentries⟩ := hlists field
      rw [entries_ofEntries, hentries.entriesOf_eq]
      exact hentries
    next => cases h
  · intro h
    obtain ⟨hlimit, hfindings⟩ :=
      findings_eq_nil_iff.mpr ⟨h.known, fun field => ⟨_, h.lists field⟩⟩
    have hentries :
        (fun field => (entriesOf fields field).toOption.getD []) = vocabulary.entries := by
      funext field
      rw [(h.lists field).entriesOf_eq]
      rfl
    rw [ofFields, hlimit, hfindings, hentries]
    rfl

theorem refused_of_ofFields {refusal : Refusal} (h : ofFields fields = .error refusal) :
    Refused (.object fields) := by
  by_contra hnone
  have hlists : (∀ key value, (key, value) ∈ fields → ∃ field : Field, field.key = key) ∧
      ∀ field, ∃ entries, Lists fields field entries := by
    refine ⟨fun key value hmem => ?_, fun field => ?_⟩
    · by_contra hkey
      exact hnone (.unknownKey hmem (not_exists.mp hkey))
    · cases hentries : entriesOf fields field with
      | error refusal => exact absurd (refused_of_entriesOf hentries).2 hnone
      | ok entries => exact ⟨entries, lists_of_entriesOf hentries⟩
  obtain ⟨hlimit, hfindings⟩ := findings_eq_nil_iff.mpr hlists
  rw [ofFields, hlimit, hfindings] at h
  cases h

/-- An object that describes a vocabulary is not refused. -/
theorem Describes.not_refused (h : Describes fields vocabulary) : ¬ Refused (.object fields) := by
  intro hrefused
  cases hrefused with
  | notAnObject hobject => exact hobject fields rfl
  | unknownKey hmem hnone =>
    obtain ⟨field, hfield⟩ := h.known _ _ hmem
    exact hnone field hfield
  | notAList hlookup hlist => exact hlist _ ((h.lists _).of_lookup hlookup)
  | notAString hlookup hmem hnone =>
    cases (h.lists _).of_lookup hlookup
    obtain ⟨text, -, rfl⟩ := List.mem_map.mp hmem
    exact hnone text rfl
  | wrongEntry hlookup hmem hwrong =>
    cases (h.lists _).of_lookup hlookup
    obtain ⟨_, hentry, ⟨⟩⟩ := List.mem_map.mp hmem
    exact hwrong ((h.lists _).isEntry _ hentry)

theorem Describes.isValid (h : Describes fields vocabulary) : vocabulary.IsValid :=
  isValid_iff.mpr fun field => (h.lists field).isEntry

/-! ## Values -/

omit [Host] in
theorem mapError_eq_ok_iff {ε ε' α : Type} {source : Except ε α} {f : ε → ε'} {value : α} :
    source.mapError f = .ok value ↔ source = .ok value := by
  cases source <;> simp [Except.mapError]

variable {file : String}

theorem parse_eq_ok_iff : parse file value = .ok vocabulary ↔
    ∃ fields, value = .object fields ∧ Describes fields vocabulary := by
  cases value with
  | object fields => simp [parse, mapError_eq_ok_iff, ofFields_eq_ok_iff]
  | _ => simp [parse]

/-- A value is refused for one of the reasons that there are, and for each of them. -/
theorem parse_eq_error_iff : (∃ error, parse file value = .error error) ↔ Refused value := by
  constructor
  · rintro ⟨error, herror⟩
    cases value with
    | object fields =>
      cases hfields : ofFields fields with
      | error refusal => exact refused_of_ofFields hfields
      | ok vocabulary =>
        rw [parse, hfields] at herror
        cases herror
    | _ => exact .notAnObject (by simp)
  · intro hrefused
    cases hvalue : parse file value with
    | error error => exact ⟨error, rfl⟩
    | ok vocabulary =>
      obtain ⟨fields, rfl, hdescribes⟩ := parse_eq_ok_iff.mp hvalue
      exact absurd hrefused hdescribes.not_refused

end StructuredText.Vocabulary
