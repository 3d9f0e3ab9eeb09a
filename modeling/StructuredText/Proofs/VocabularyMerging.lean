import StructuredText.Proofs.Totality

/-!
# Merging vocabularies

Entries are tried in the order in which they are listed, so that a merged vocabulary is told apart
by the order and the repetitions of its entries, and not only by which entries it has. What is added
is compared with the entries before it, but not with other additions.

Results:
1. `mergeEntries_assoc`, `mergeEntries_of_subset`: laws of merging lists of entries.
2. `merge_assoc`, `merge_of_subset`: the same for vocabularies.
3. `extend_lawful`: laws of extending a vocabulary.
-/

namespace StructuredText.Vocabulary

/-! ## Lists of entries -/

theorem mergeEntries_nil_left (entries : List String) : mergeEntries [] entries = entries := by
  simp [mergeEntries]

theorem mergeEntries_nil_right (entries : List String) : mergeEntries entries [] = entries := by
  simp [mergeEntries]

/-- What is there already is not added. -/
theorem mergeEntries_of_subset {a b : List String} (h : b ⊆ a) : mergeEntries a b = a := by
  have hnone : b.filter (fun entry => !a.contains entry) = [] := by
    rw [List.filter_eq_nil_iff]
    intro entry hentry
    simp [h hentry]
  rw [mergeEntries, hnone, List.append_nil]

/-- What two lists together do not have is what neither of them has. -/
theorem contains_mergeEntries (a b : List String) (entry : String) :
    (!(mergeEntries a b).contains entry) = (!a.contains entry && !b.contains entry) := by
  simp only [List.contains_eq_mem, mem_mergeEntries, Bool.decide_or, Bool.not_or]

theorem mergeEntries_assoc (a b c : List String) :
    mergeEntries (mergeEntries a b) c = mergeEntries a (mergeEntries b c) := by
  calc mergeEntries (mergeEntries a b) c
      = mergeEntries a b ++ c.filter fun entry => !a.contains entry && !b.contains entry := by
        rw [mergeEntries, funext (contains_mergeEntries a b)]
    _ = a ++ (b.filter (fun entry => !a.contains entry) ++
          (c.filter fun entry => !b.contains entry).filter fun entry => !a.contains entry) := by
        rw [List.filter_filter, mergeEntries, List.append_assoc]
    _ = mergeEntries a (mergeEntries b c) := by
        rw [← List.filter_append, ← mergeEntries, ← mergeEntries]

/-! ## Vocabularies -/

variable {a b c : Vocabulary}

/-- A vocabulary is known by its entries. -/
theorem ext_entries (h : ∀ field, a.entries field = b.entries field) : a = b :=
  congrArg ofEntries (funext h)

theorem entries_merge (a b : Vocabulary) (field : Field) :
    (a.merge b).entries field = mergeEntries (a.entries field) (b.entries field) :=
  entries_ofEntries _ _

theorem entries_empty (field : Field) : empty.entries field = [] := by
  cases field <;> rfl

theorem empty_merge (a : Vocabulary) : empty.merge a = a := by
  refine ext_entries fun field => ?_
  rw [entries_merge, entries_empty, mergeEntries_nil_left]

theorem merge_empty (a : Vocabulary) : a.merge empty = a := by
  refine ext_entries fun field => ?_
  rw [entries_merge, entries_empty, mergeEntries_nil_right]

theorem merge_assoc (a b c : Vocabulary) : (a.merge b).merge c = a.merge (b.merge c) := by
  refine ext_entries fun field => ?_
  rw [entries_merge, entries_merge, entries_merge, entries_merge, mergeEntries_assoc]

/-- A vocabulary that has all entries of another one stays as it is. -/
theorem merge_of_subset (h : ∀ field, b.entries field ⊆ a.entries field) : a.merge b = a := by
  refine ext_entries fun field => ?_
  rw [entries_merge, mergeEntries_of_subset (h field)]

/-! ## Extending -/

section

variable [Host]

/-- The laws of extending vocabularies, for three of them. -/
structure ExtendsLawfully (a b c : Vocabulary) : Prop where
  assoc : ∃ ab bc abc, a.extend b = .ok ab ∧ b.extend c = .ok bc ∧
    ab.extend c = .ok abc ∧ a.extend bc = .ok abc
  empty_left : empty.extend a = .ok a
  empty_right : a.extend empty = .ok a
  /-- Extending again by what was merged adds nothing. -/
  again : ∃ ab, a.extend b = .ok ab ∧ ab.extend a = .ok ab ∧ ab.extend b = .ok ab
  /-- The entries of `a` come first, and then those of `b` that `a` does not have. -/
  order : ∃ ab, a.extend b = .ok ab ∧ ∀ field, ab.entries field =
    a.entries field ++ (b.entries field).filter (· ∉ a.entries field)
  members : ∃ ab, a.extend b = .ok ab ∧ ∀ field entry,
    entry ∈ ab.entries field ↔ entry ∈ a.entries field ∨ entry ∈ b.entries field

/-- Extending vocabularies that pass the checks is lawful. -/
theorem extend_lawful (ha : a.IsValid) (hb : b.IsValid) (hc : c.IsValid) :
    ExtendsLawfully a b c := by
  have hab := ha.merge hb
  have hextend := extend_eq_merge ha hb
  have hmem : ∀ field entry, entry ∈ (a.merge b).entries field ↔
      entry ∈ a.entries field ∨ entry ∈ b.entries field := by
    intro field entry
    rw [entries_merge, mem_mergeEntries]
  refine ⟨?_, ?_, ?_, ?_, ⟨_, hextend, fun field => ?_⟩, ⟨_, hextend, hmem⟩⟩
  · refine ⟨_, _, _, hextend, extend_eq_merge hb hc, extend_eq_merge hab hc, ?_⟩
    rw [merge_assoc]
    exact extend_eq_merge ha (hb.merge hc)
  · rw [extend_eq_merge empty_isValid ha, empty_merge]
  · rw [extend_eq_merge ha empty_isValid, merge_empty]
  · refine ⟨_, hextend, ?_, ?_⟩
    · rw [extend_eq_merge hab ha,
        merge_of_subset fun field entry h => (hmem field entry).mpr (.inl h)]
    · rw [extend_eq_merge hab hb,
        merge_of_subset fun field entry h => (hmem field entry).mpr (.inr h)]
  · rw [entries_merge, mergeEntries]
    simp only [List.contains_eq_mem, decide_not]

end

/-- Vocabularies that repeat entries, of their own and of each other. -/
theorem extend_lawful_repeated :
    let a : Vocabulary := ⟨["sin", "abs", "sin"], ["then"], [], []⟩
    let b : Vocabulary := ⟨["abs", "x\\d+", "x\\d+"], ["do", "then"], ["INT"], []⟩
    let c : Vocabulary := ⟨["x\\d+", "cos"], [], ["BOOL", "INT"], ["var"]⟩
    (@IsValid Host.plain a ∧ @IsValid Host.plain b ∧ @IsValid Host.plain c) ∧
      @ExtendsLawfully Host.plain a b c := by
  intro a b c
  have ha : @IsValid Host.plain a := by decide +kernel
  have hb : @IsValid Host.plain b := by decide +kernel
  have hc : @IsValid Host.plain c := by decide +kernel
  exact ⟨⟨ha, hb, hc⟩, @extend_lawful a b c Host.plain ha hb hc⟩

end StructuredText.Vocabulary
