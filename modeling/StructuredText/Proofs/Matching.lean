import StructuredText.Pattern.Replace
import StructuredText.Proofs.Marking
import StructuredText.Proofs.Reading

/-!
# What patterns match

`Pattern.Matches pattern text` says that `text` is among the texts that a pattern describes, without
regard to conditions on the place. What the search for a match reads is such a text.

Results:
1. `run_sound`: the search reads a text that the pattern describes.
2. `recognize_eq_some`: so does the recogniser of a pattern.
-/

namespace StructuredText.Pattern

/-- The texts that a pattern describes. A reference may stand for any text. -/
inductive Matches : Pattern → List Char → Prop
  | empty : Matches .empty []
  | one {set : CharSet} {c : Char} : set.holds c = true → Matches (.one set) [c]
  | anchor {condition : Anchor} : Matches (.anchor condition) []
  | seq {first second : Pattern} {text text' : List Char} :
      Matches first text → Matches second text' → Matches (.seq first second) (text ++ text')
  | left {first second : Pattern} {text : List Char} :
      Matches first text → Matches (.either first second) text
  | right {first second : Pattern} {text : List Char} :
      Matches second text → Matches (.either first second) text
  | repeated {body : Pattern} {least : Nat} {most : Option Nat} {greedy : Bool}
      {texts : List (List Char)} :
      (∀ text ∈ texts, Matches body text) → least ≤ texts.length →
      Matches (.repeated body least most greedy) texts.flatten
  | group {index : Nat} {body : Pattern} {text : List Char} :
      Matches body text → Matches (.group index body) text
  | reference {index : Nat} {rule : CaseRule} {text : List Char} :
      Matches (.reference index rule) text
  | ahead {wanted : Bool} {body : Pattern} : Matches (.ahead wanted body) []
  | behind {wanted : Bool} {width : Width} {body : Pattern} :
      Matches (.behind wanted width body) []
  | atomic {body : Pattern} {text : List Char} : Matches body text → Matches (.atomic body) text
  | present {index : Nat} {first second : Pattern} {text : List Char} :
      Matches first text → Matches (.conditional index first second) text
  | absent {index : Nat} {first second : Pattern} {text : List Char} :
      Matches second text → Matches (.conditional index first second) text

/-- Whether a pattern keeps the text of a group. -/
def binds : Pattern → Bool
  | .empty | .one _ | .anchor _ | .reference _ _ => false
  | .seq first second | .either first second | .conditional _ first second =>
      first.binds || second.binds
  | .repeated body _ _ _ | .ahead _ body | .behind _ _ body | .atomic body => body.binds
  | .group _ _ => true

/-- Behind a text of the language, which is read from `state` on, `accept` gives the result. The
groups are the same if none are to be kept. -/
def Continues (language : List Char → Prop) (plain : Prop) (accept : Continuation)
    (state result : State) : Prop :=
  ∃ stop text, language text ∧ state.cursor.Reads stop.cursor text ∧
    (plain → stop.groups = state.groups) ∧ accept stop = some result

/-- A search that reads a text of the language before it goes on. -/
def Sound (language : List Char → Prop) (plain : Prop) (search : Continuation → Continuation) :
    Prop :=
  ∀ accept state result, search accept state = some result →
    Continues language plain accept state result

/-- Texts of a language, one after another, `least` of them at least. -/
def Rounds (language : List Char → Prop) (least : Nat) (text : List Char) : Prop :=
  ∃ texts : List (List Char), (∀ part ∈ texts, language part) ∧ least ≤ texts.length ∧
    text = texts.flatten

section

variable {body : Continuation → Continuation} {least : Nat} {most : Option Nat} {greedy : Bool}
  {accept : Continuation} {result : State}

/-- A repetition ends, or it reads one round more where that is due or allowed. -/
theorem repeatFrom_cases {rounds count : Nat} {last : Option Nat} {state : State}
    (h : repeatFrom body least most greedy accept (rounds + 1) count last state = some result) :
    least ≤ count ∧ accept state = some result ∨
      (count < least ∨ ∀ k ∈ most, count < k) ∧
        ∃ last', body (repeatFrom body least most greedy accept rounds (count + 1) last') state =
          some result := by
  rw [repeatFrom] at h
  split at h
  next hcount => exact .inr ⟨.inl hcount, last, h⟩
  next hcount =>
    have hagain : (if most.all (count < ·) && last != some state.cursor.pos then
        body (repeatFrom body least most greedy accept rounds (count + 1)
          (some state.cursor.pos)) state else none) = some result →
        (∀ k ∈ most, count < k) ∧
          ∃ last', body (repeatFrom body least most greedy accept rounds (count + 1) last') state =
            some result := by
      intro hrun
      split at hrun
      next hlimit =>
        rw [Bool.and_eq_true, Option.all_eq_true] at hlimit
        exact ⟨fun k hk => by simpa using hlimit.1 k hk, _, hrun⟩
      next => cases hrun
    rw [Nat.not_lt] at hcount
    simp only at h
    split at h
    · split at h
      next hsome =>
        cases h
        exact .inr ((hagain hsome).imp_left .inr)
      next => exact .inl ⟨hcount, h⟩
    · split at h
      next hsome =>
        cases h
        exact .inl ⟨hcount, hsome⟩
      next => exact .inr ((hagain h).imp_left .inr)

/-- Rounds of a sound search read one text after another. -/
theorem repeatFrom_sound {language : List Char → Prop} {plain : Prop}
    (hbody : Sound language plain body) (rounds : Nat) :
    ∀ count last state, least ≤ rounds + count →
      repeatFrom body least most greedy accept rounds count last state = some result →
      Continues (Rounds language (least - count)) plain accept state result := by
  induction rounds with
  | zero =>
    intro count last state hle h
    exact ⟨state, [], ⟨[], by simp, by rw [List.length_nil]; omega, rfl⟩, .refl _, fun _ => rfl, h⟩
  | succ rounds ih =>
    intro count last state hle h
    rcases repeatFrom_cases h with ⟨hcount, haccept⟩ | ⟨-, last', hrun⟩
    · exact ⟨state, [], ⟨[], by simp, by rw [List.length_nil]; omega, rfl⟩, .refl _, fun _ => rfl,
        haccept⟩
    · obtain ⟨middle, text, htext, hreads, hgroups, hrest⟩ := hbody _ _ _ hrun
      obtain ⟨stop, _, ⟨texts, htexts, hcount, rfl⟩, hreads', hgroups', haccept⟩ :=
        ih (count + 1) last' middle (by omega) hrest
      refine ⟨stop, _, ⟨text :: texts, by simpa using ⟨htext, htexts⟩, ?_, rfl⟩, ?_, ?_, haccept⟩
      · rw [List.length_cons]
        omega
      · rw [List.flatten_cons]
        exact hreads.trans hreads'
      · intro hplain
        rw [hgroups' hplain, hgroups hplain]

end

variable {text : List Char} {cursor : Cursor} {size : Nat} {pattern : Pattern}

theorem reads_rereadFrom {rule : CaseRule} {stop : Cursor}
    (h : rereadFrom rule text cursor = some stop) : ∃ read, cursor.Reads stop read := by
  induction text generalizing cursor with
  | nil =>
    cases h
    exact ⟨[], .refl _⟩
  | cons c rest ih =>
    obtain ⟨middle, hnext, hrest⟩ := Option.bind_eq_some_iff.mp h
    obtain ⟨d, -, hreads⟩ := Cursor.reads_next hnext
    obtain ⟨read, hread⟩ := ih hrest
    exact ⟨d :: read, hreads.trans hread⟩

/-- The search reads a text that the pattern describes. -/
theorem run_sound (size : Nat) (pattern : Pattern) :
    Sound pattern.Matches (pattern.binds = false) (pattern.run size) := by
  induction pattern with
  | empty =>
    intro accept state result h
    exact ⟨state, [], .empty, .refl _, fun _ => rfl, h⟩
  | one set =>
    intro accept state result h
    rw [run] at h
    split at h
    next cursor hnext =>
      obtain ⟨c, hc, hreads⟩ := Cursor.reads_next hnext
      exact ⟨⟨cursor, state.groups⟩, [c], .one hc, hreads, fun _ => rfl, h⟩
    next => cases h
  | anchor condition =>
    intro accept state result h
    rw [run] at h
    split at h
    · exact ⟨state, [], .anchor, .refl _, fun _ => rfl, h⟩
    · cases h
  | seq first second ihfirst ihsecond =>
    intro accept state result h
    obtain ⟨middle, text, htext, hreads, hgroups, h⟩ := ihfirst _ _ _ h
    obtain ⟨stop, text', htext', hreads', hgroups', haccept⟩ := ihsecond _ _ _ h
    refine ⟨stop, _, .seq htext htext', hreads.trans hreads', fun hplain => ?_, haccept⟩
    rw [binds, Bool.or_eq_false_iff] at hplain
    rw [hgroups' hplain.2, hgroups hplain.1]
  | either first second ihfirst ihsecond =>
    intro accept state result h
    rw [run] at h
    split at h
    next hfirst =>
      cases h
      obtain ⟨stop, text, htext, hreads, hgroups, haccept⟩ := ihfirst _ _ _ hfirst
      refine ⟨stop, text, .left htext, hreads, fun hplain => hgroups ?_, haccept⟩
      exact (Bool.or_eq_false_iff.mp hplain).1
    next =>
      obtain ⟨stop, text, htext, hreads, hgroups, haccept⟩ := ihsecond _ _ _ h
      refine ⟨stop, text, .right htext, hreads, fun hplain => hgroups ?_, haccept⟩
      exact (Bool.or_eq_false_iff.mp hplain).2
  | repeated body least most greedy ih =>
    intro accept state result h
    obtain ⟨stop, _, ⟨texts, htexts, hleast, rfl⟩, hreads, hgroups, haccept⟩ :=
      repeatFrom_sound ih _ _ _ _ (by omega) h
    exact ⟨stop, _, .repeated htexts hleast, hreads, hgroups, haccept⟩
  | group index body ih =>
    intro accept state result h
    obtain ⟨stop, text, htext, hreads, -, haccept⟩ := ih _ _ _ h
    exact ⟨⟨stop.cursor, (index, _) :: stop.groups⟩, text, .group htext, hreads, nofun, haccept⟩
  | reference index rule =>
    intro accept state result h
    rw [run] at h
    split at h
    next =>
      split at h
      next cursor hread =>
        obtain ⟨read, hreads⟩ := reads_rereadFrom hread
        exact ⟨⟨cursor, state.groups⟩, read, .reference, hreads, fun _ => rfl, h⟩
      next => cases h
    next => cases h
  | ahead wanted body ih =>
    intro accept state result h
    rw [run] at h
    split at h
    next found hfound =>
      split at h
      · obtain ⟨stop, -, -, -, hgroups, heq⟩ := ih _ _ _ hfound
        cases heq
        exact ⟨⟨state.cursor, found.groups⟩, [], .ahead, .refl _, hgroups, h⟩
      · cases h
    next =>
      split at h
      · cases h
      · exact ⟨state, [], .ahead, .refl _, fun _ => rfl, h⟩
  | behind wanted width body ih =>
    intro accept state result h
    rw [run] at h
    split at h
    next found hfound =>
      split at h
      · obtain ⟨cursor, -, hrun⟩ := Option.bind_eq_some_iff.mp hfound
        obtain ⟨stop, -, -, -, hgroups, heq⟩ := ih _ _ _ hrun
        cases heq
        exact ⟨⟨state.cursor, found.groups⟩, [], .behind, .refl _, hgroups, h⟩
      · cases h
    next =>
      split at h
      · cases h
      · exact ⟨state, [], .behind, .refl _, fun _ => rfl, h⟩
  | atomic body ih =>
    intro accept state result h
    rw [run] at h
    split at h
    next found hfound =>
      obtain ⟨stop, text, htext, hreads, hgroups, heq⟩ := ih _ _ _ hfound
      cases heq
      exact ⟨found, text, .atomic htext, hreads, hgroups, h⟩
    next => cases h
  | conditional index present absent ihpresent ihabsent =>
    intro accept state result h
    rw [run] at h
    split at h
    · obtain ⟨stop, text, htext, hreads, hgroups, haccept⟩ := ihpresent _ _ _ h
      refine ⟨stop, text, .present htext, hreads, fun hplain => hgroups ?_, haccept⟩
      exact (Bool.or_eq_false_iff.mp hplain).1
    · obtain ⟨stop, text, htext, hreads, hgroups, haccept⟩ := ihabsent _ _ _ h
      refine ⟨stop, text, .absent htext, hreads, fun hplain => hgroups ?_, haccept⟩
      exact (Bool.or_eq_false_iff.mp hplain).2

/-- The recogniser of a pattern finds a text that the pattern describes. -/
theorem recognize_eq_some {advance : Bool} {n : Nat} {found : Found}
    (h : pattern.recognize size advance cursor = some (n, found)) :
    pattern.Matches found.text ∧ n = found.text.length ∧
      ∃ rest, cursor.after = found.text ++ rest := by
  obtain ⟨stop, hrun, heq⟩ := Option.map_eq_some_iff.mp h
  obtain ⟨stop', text, htext, hreads, -, haccept⟩ := run_sound size pattern _ _ _ hrun
  have hstop : stop' = stop := by
    simp only at haccept
    split at haccept
    · cases haccept
    · cases haccept
      rfl
  subst hstop
  cases heq
  have hlength : stop'.cursor.pos - cursor.pos = text.length := by
    rw [hreads.pos, Nat.add_sub_cancel_left]
  have hafter : cursor.after.take text.length = text := by
    rw [hreads.after, List.take_left]
  simp only [hlength, hafter]
  exact ⟨htext, trivial, stop'.cursor.after, hreads.after⟩

/-! ## Languages of patterns -/

/-- All code points that the pattern reads are in sets that `p` accepts. -/
def readsOnly (p : CharSet → Bool) : Pattern → Bool
  | .empty | .anchor _ | .ahead _ _ | .behind _ _ _ => true
  | .one set => p set
  | .seq first second | .either first second | .conditional _ first second =>
      first.readsOnly p && second.readsOnly p
  | .repeated body _ _ _ | .group _ body | .atomic body => body.readsOnly p
  | .reference _ _ => false

theorem Matches.mem_of_readsOnly {p : CharSet → Bool} {good : Char → Prop}
    (hp : ∀ set, p set = true → ∀ c, set.holds c = true → good c) (h : pattern.Matches text)
    (hreads : pattern.readsOnly p = true) :
    ∀ c ∈ text, good c := by
  induction h with
  | empty => simp
  | one hc => simpa using hp _ hreads _ hc
  | anchor => simp
  | seq _ _ ihfirst ihsecond =>
    rw [readsOnly, Bool.and_eq_true] at hreads
    intro c hc
    rcases List.mem_append.mp hc with hc | hc
    · exact ihfirst hreads.1 c hc
    · exact ihsecond hreads.2 c hc
  | left _ ih | present _ ih => exact ih (Bool.and_eq_true _ _ ▸ hreads).1
  | right _ ih | absent _ ih => exact ih (Bool.and_eq_true _ _ ▸ hreads).2
  | repeated _ _ ih =>
    intro c hc
    obtain ⟨text, htext, hc⟩ := List.mem_flatten.mp hc
    exact ih text htext hreads c hc
  | group _ ih => exact ih hreads
  | reference => cases hreads
  | ahead | behind => simp
  | atomic _ ih => exact ih hreads

/-- The pattern reads at least one code point. -/
def consumes : Pattern → Bool
  | .empty | .anchor _ | .ahead _ _ | .behind _ _ _ | .reference _ _ => false
  | .one _ => true
  | .seq first second => first.consumes || second.consumes
  | .either first second | .conditional _ first second => first.consumes && second.consumes
  | .repeated body least _ _ => decide (0 < least) && body.consumes
  | .group _ body | .atomic body => body.consumes

theorem Matches.ne_nil_of_consumes (h : pattern.Matches text)
    (hconsumes : pattern.consumes = true) : text ≠ [] := by
  induction h with
  | empty => cases hconsumes
  | one _ => simp
  | anchor => cases hconsumes
  | seq _ _ ihfirst ihsecond =>
    rw [consumes, Bool.or_eq_true] at hconsumes
    rcases hconsumes with hfirst | hsecond
    · exact List.append_ne_nil_of_left_ne_nil (ihfirst hfirst) _
    · exact List.append_ne_nil_of_right_ne_nil _ (ihsecond hsecond)
  | left _ ih | present _ ih => exact ih (Bool.and_eq_true _ _ ▸ hconsumes).1
  | right _ ih | absent _ ih => exact ih (Bool.and_eq_true _ _ ▸ hconsumes).2
  | @repeated _ least _ _ texts _ hleast ih =>
    rw [consumes, Bool.and_eq_true, decide_eq_true_eq] at hconsumes
    obtain ⟨text, texts, rfl⟩ :=
      List.exists_cons_of_length_pos (Nat.lt_of_lt_of_le hconsumes.1 hleast)
    rw [List.flatten_cons]
    exact List.append_ne_nil_of_left_ne_nil (ih text List.mem_cons_self hconsumes.2) _
  | group _ ih => exact ih hconsumes
  | reference | ahead | behind => cases hconsumes
  | atomic _ ih => exact ih hconsumes

theorem recognize_isProper (h : pattern.consumes = true) :
    (pattern.recognize size).IsProper := by
  intro advance cursor n found hfound
  obtain ⟨hmatches, rfl, rest, hafter⟩ := recognize_eq_some hfound
  refine ⟨List.length_pos_iff.mpr (hmatches.ne_nil_of_consumes h), ?_⟩
  rw [hafter, List.length_append]
  omega

end StructuredText.Pattern
