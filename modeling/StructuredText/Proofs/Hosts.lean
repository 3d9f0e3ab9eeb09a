import StructuredText.Proofs.Nesting

/-!
# Patterns on every host

A host knows the names of code points, which only escapes can use, and the stack of every host holds
a source whose parentheses are not too deep. So such a source, if it has no backslash, is read alike
on every host.

Results:
1. `readLexeme_host`: a lexeme that starts with no escape, and has none inside, is the same.
2. `Progress.readFrom_host`: so are all lexemes of a source.
3. `parse_host`, `compile_host`: and so is the pattern.
-/

namespace StructuredText.Pattern

/-- The source can be read without asking a host. -/
structure IsHomely (source : List Char) : Prop where
  unescaped : '\\' ∉ source
  shallow : IsShallow source

instance (source : List Char) : Decidable (IsHomely source) :=
  decidable_of_iff ('\\' ∉ source ∧ IsShallow source)
    ⟨fun h => ⟨h.1, h.2⟩, fun h => ⟨h.unescaped, h.shallow⟩⟩

/-- No token is an escape. -/
def Unescaped (tokens : List Token) : Prop :=
  ∀ token ∈ tokens, ∀ c, token.sign ≠ .escaped c

variable {source : List Char} {α β : Type}

theorem unescaped_tokensFrom (h : '\\' ∉ source) (offset : Nat) :
    Unescaped (tokensFrom offset source) := by
  induction offset, source using tokensFrom.induct with
  | case1 offset => exact fun token hmem => absurd hmem List.not_mem_nil
  | case2 offset | case3 offset c rest ih => exact absurd List.mem_cons_self h
  | case4 offset c rest hnil hcons ih =>
    rw [tokensFrom]
    · have hrest : '\\' ∉ rest := fun hmem => h (List.mem_cons_of_mem _ hmem)
      refine List.forall_mem_cons.mpr ⟨fun d hd => ?_, ih hrest⟩
      cases hd
    · exact hnil
    · exact hcons

theorem ok_bind (value : α) (next : α → Reading β) :
    (Except.ok value : Reading α) >>= next = next value :=
  rfl

theorem error_bind (fault : Cause × Nat) (next : α → Reading β) :
    (Except.error fault : Reading α) >>= next = .error fault :=
  rfl

-- Two hosts are never compared by `rfl`, which would unfold all that is read from them.
variable (host other : Host) {tokens : List Token}

theorem readSetItems_host (h : Unescaped tokens) (size opened tries : Nat) (items : List SetItem) :
    @readSetItems host size opened tries items tokens =
      @readSetItems other size opened tries items tokens := by
  induction tries generalizing items tokens with
  | zero => rw [@readSetItems.eq_1 host, @readSetItems.eq_1 other]
  | succ tries ih =>
    rcases tokens with _ | ⟨⟨offset, c | c | _⟩, rest⟩
    · rw [@readSetItems.eq_2 host, @readSetItems.eq_2 other]
    · obtain ⟨-, hrest⟩ := List.forall_mem_cons.mp h
      simp only [readSetItems]
      refine bind_congr fun _ => ?_
      split
      · rfl
      dsimp only [readSetMember]
      rw [pure_bind, pure_bind]
      cases hfound : acceptSign '-' rest with
      | error fault => rw [error_bind, error_bind]
      | ok found =>
        rw [ok_bind, ok_bind]
        rcases acceptSign_eq_ok hfound with rfl | ⟨_, later, rfl, rfl, -⟩
        · exact ih hrest _
        · obtain ⟨-, hlater⟩ := List.forall_mem_cons.mp hrest
          rcases later with _ | ⟨⟨_, d | d | _⟩, later⟩
          · rfl
          · obtain ⟨-, hlater⟩ := List.forall_mem_cons.mp hlater
            refine bind_congr fun _ => ?_
            split
            · rfl
            · rw [pure_bind, pure_bind]
              exact bind_congr fun range => ih hlater _
          · exact absurd rfl ((List.forall_mem_cons.mp hlater).1 d)
          · rfl
    · exact absurd rfl ((List.forall_mem_cons.mp h).1 c)
    · rfl

theorem readLexeme_host {token : Token} (htoken : ∀ c, token.sign ≠ .escaped c)
    (h : Unescaped tokens) (verbose : Bool) (size : Nat) :
    @readLexeme host verbose size token tokens = @readLexeme other verbose size token tokens := by
  have hsign (offset : Nat) (c : Char) :
      @readSign host size offset c tokens = @readSign other size offset c tokens := by
    unfold readSign
    split
    · cases hfound : acceptSign '^' tokens with
      | error fault => rw [error_bind, error_bind]
      | ok found =>
        have hrest : Unescaped (found.getD tokens) := by
          rcases acceptSign_eq_ok hfound with rfl | ⟨_, rest, rfl, rfl, -⟩
          · exact h
          · exact (List.forall_mem_cons.mp h).2
        rw [ok_bind, ok_bind, readSetItems_host host other hrest]
    all_goals rfl
  obtain ⟨offset, c | c | _⟩ := token
  · unfold readLexeme
    dsimp only
    split
    · rfl
    · rfl
    · rfl
    next heq => cases heq
    · simp only [hsign]
  · exact absurd rfl (htoken c)
  · rfl

theorem Progress.readFrom_host (h : Unescaped tokens) (size tries : Nat) (progress : Progress) :
    @readFrom host size tries progress tokens = @readFrom other size tries progress tokens := by
  induction tries generalizing progress tokens with
  | zero => rw [@readFrom.eq_1 host, @readFrom.eq_1 other]
  | succ tries ih =>
    cases tokens with
    | nil => rw [@readFrom.eq_2 host, @readFrom.eq_2 other]
    | cons token tokens =>
      obtain ⟨htoken, htokens⟩ := List.forall_mem_cons.mp h
      have hlexeme := readLexeme_host host other htoken htokens progress.level.flags.verbose size
      cases hread : @readLexeme other progress.level.flags.verbose size token tokens with
      | error fault =>
        rw [hread] at hlexeme
        rw [@readFrom.eq_3 host, @readFrom.eq_3 other, hlexeme, hread, error_bind, error_bind]
      | ok result =>
        obtain ⟨meaning, rest⟩ := result
        rw [hread] at hlexeme
        obtain ⟨⟨taken, rfl, -⟩, -⟩ := @readLexeme_place _ _ _ other _ _ _ hread
        have hrest : Unescaped rest := fun token hmem =>
          htokens token (List.mem_append_right _ hmem)
        rw [@readFrom.eq_3 host, @readFrom.eq_3 other, hlexeme, hread, ok_bind, ok_bind]
        exact bind_congr fun next => ih hrest next

theorem parse_host (h : '\\' ∉ source) (flags : Flags) :
    @parse host flags source = @parse other flags source := by
  unfold parse
  simp only [Progress.readFrom_host host other (unescaped_tokensFrom h 0)]

theorem compile_host (h : IsHomely source) (flags : Flags) :
    @compile host flags source = @compile other flags source := by
  rw [@compile.eq_1 host, @compile.eq_1 other, if_pos (host.holds_of_isShallow _ _ h.shallow),
    if_pos (other.holds_of_isShallow _ _ h.shallow), parse_host host other h.unescaped]

end StructuredText.Pattern
