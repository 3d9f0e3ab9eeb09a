import StructuredText.Proofs.Matching

/-!
# Texts in their places

`Pattern.Describes pattern before text rest` says exactly what a pattern stands for: `text` is one
of the texts that it describes where `before` stands in front, nearest code point first, and `rest`
behind. Conditions on the place and upper limits count, other than for `Pattern.Matches`.

Results:
1. `run_describes`: the search reads a text that the pattern describes in its place.
2. `run_isSome`: the search misses none.
3. `recognize_describes`, `recognize_ne_none`: so does the recogniser of the pattern.
-/

namespace StructuredText.Pattern

variable {language : List Char → List Char → List Char → Prop} {least : Nat} {most : Option Nat}

/-- Texts of a language one after another, from `least` to `most` of them. -/
inductive Repeats (language : List Char → List Char → List Char → Prop) :
    Nat → Option Nat → List Char → List Char → List Char → Prop
  | stop {most : Option Nat} {before rest : List Char} : Repeats language 0 most before [] rest
  | round {least : Nat} {most : Option Nat} {before text later rest : List Char} :
      most ≠ some 0 → language before text (later ++ rest) →
      Repeats language (least - 1) (most.map (· - 1)) (text.reverse ++ before) later rest →
      Repeats language least most before (text ++ later) rest

/-- The pattern describes `text` in its place. Patterns that keep, read or ask for groups, look back
or refuse what follows are left out. -/
def Describes : Pattern → (before text rest : List Char) → Prop
  | .empty, _, text, _ => text = []
  | .one set, _, text, _ => ∃ c, text = [c] ∧ set.holds c = true
  | .anchor condition, before, text, rest =>
      text = [] ∧ condition.holds ⟨before.length, before, rest⟩ = true
  | .seq first second, before, text, rest =>
      ∃ start later, text = start ++ later ∧ first.Describes before start (later ++ rest) ∧
        second.Describes (start.reverse ++ before) later rest
  | .either first second, before, text, rest =>
      first.Describes before text rest ∨ second.Describes before text rest
  | .repeated body least most _, before, text, rest =>
      Repeats body.Describes least most before text rest
  | .ahead true body, before, text, rest =>
      text = [] ∧ ∃ next later, rest = next ++ later ∧ body.Describes before next later
  | .ahead false _, _, _, _ | .group _ _, _, _, _ | .reference _ _, _, _, _
  | .behind _ _ _, _, _, _ | .atomic _, _, _, _ | .conditional _ _ _, _, _, _ => False

/-- The pattern is none of those left out, and all rounds of its repetitions read something. -/
def isDirect : Pattern → Bool
  | .empty | .one _ | .anchor _ => true
  | .seq first second | .either first second => first.isDirect && second.isDirect
  | .repeated body least most _ => body.isDirect && body.consumes && most.all (least ≤ ·)
  | .ahead wanted body => wanted && body.isDirect
  | .group _ _ | .reference _ _ | .behind _ _ _ | .atomic _ | .conditional _ _ _ => false

variable {before text rest : List Char} {pattern : Pattern} {greedy : Bool} {accept : Continuation}
  {size : Nat}

theorem Repeats.forall_ne_nil (h : ∀ before text rest, language before text rest → text ≠ [])
    (hrepeats : Repeats language least most before text rest) (hleast : 0 < least) : text ≠ [] := by
  cases hrepeats with
  | stop => exact absurd hleast (Nat.lt_irrefl 0)
  | round _ htext _ => exact List.append_ne_nil_of_left_ne_nil (h _ _ _ htext) _

theorem Describes.ne_nil (hconsumes : pattern.consumes = true) :
    ∀ {before text rest : List Char}, pattern.Describes before text rest → text ≠ [] := by
  induction pattern with
  | empty => cases hconsumes
  | one set =>
    rintro before text rest ⟨c, rfl, -⟩
    exact List.cons_ne_nil c []
  | anchor condition => cases hconsumes
  | seq first second ihfirst ihsecond =>
    rintro before text rest ⟨start, later, rfl, hfirst, hsecond⟩
    rw [consumes, Bool.or_eq_true] at hconsumes
    rcases hconsumes with hconsumes | hconsumes
    · exact List.append_ne_nil_of_left_ne_nil (ihfirst hconsumes hfirst) _
    · exact List.append_ne_nil_of_right_ne_nil _ (ihsecond hconsumes hsecond)
  | either first second ihfirst ihsecond =>
    rw [consumes, Bool.and_eq_true] at hconsumes
    rintro before text rest (hfirst | hsecond)
    · exact ihfirst hconsumes.1 hfirst
    · exact ihsecond hconsumes.2 hsecond
  | repeated body least most greedy ih =>
    rw [consumes, Bool.and_eq_true, decide_eq_true_eq] at hconsumes
    intro before text rest h
    exact Repeats.forall_ne_nil (fun _ _ _ => ih hconsumes.2) h hconsumes.1
  | ahead wanted body | reference | behind => cases hconsumes
  | group | atomic | conditional => exact fun h => h.elim

/-! ## What is read -/

/-- Behind a text of the language, which stands in its place from `state` on, `accept` gives the
result. -/
def Leads (language : List Char → List Char → List Char → Prop) (accept : Continuation)
    (state result : State) : Prop :=
  ∃ stop text, state.cursor.Reads stop text ∧ language state.cursor.before text stop.after ∧
    accept ⟨stop, state.groups⟩ = some result

/-- A search that reads a text of the language in its place before it goes on. -/
def Direct (language : List Char → List Char → List Char → Prop)
    (search : Continuation → Continuation) : Prop :=
  ∀ accept state result, search accept state = some result → Leads language accept state result

theorem map_sub_sub (most : Option Nat) (count : Nat) :
    (most.map (· - count)).map (· - 1) = most.map (· - (count + 1)) := by
  cases most <;> rfl

/-- Rounds of a direct search read one text after another. -/
theorem repeatFrom_direct {body : Continuation → Continuation} (hbody : Direct language body)
    (hmost : ∀ k ∈ most, least ≤ k) {result : State} (rounds : Nat) :
    ∀ count last state, least ≤ rounds + count →
      repeatFrom body least most greedy accept rounds count last state = some result →
      Leads (Repeats language (least - count) (most.map (· - count))) accept state result := by
  have hstop : ∀ count state, least ≤ count → accept state = some result →
      Leads (Repeats language (least - count) (most.map (· - count))) accept state result := by
    intro count state hcount haccept
    refine ⟨state.cursor, [], .refl _, ?_, haccept⟩
    rw [Nat.sub_eq_zero_of_le hcount]
    exact .stop
  induction rounds with
  | zero => exact fun count last state hle h => hstop count state (by omega) h
  | succ rounds ih =>
    intro count last state hle h
    rcases repeatFrom_cases h with ⟨hcount, haccept⟩ | ⟨hlimit, last', hrun⟩
    · exact hstop count state hcount haccept
    · obtain ⟨middle, text, hreads, htext, hrest⟩ := hbody _ _ _ hrun
      obtain ⟨stop, later, hreads', hlater, haccept⟩ := ih (count + 1) last' _ (by omega) hrest
      refine ⟨stop, text ++ later, hreads.trans hreads', .round ?_ ?_ ?_, haccept⟩
      · intro hzero
        obtain ⟨k, hk, hsub⟩ := Option.map_eq_some_iff.mp hzero
        have := hmost k hk
        have := hlimit.imp_right fun h => h k hk
        omega
      · rwa [hreads'.after] at htext
      · rw [Nat.sub_sub, map_sub_sub, ← hreads.before]
        exact hlater

theorem Anchor.holds_eq (condition : Anchor) (pos pos' : Nat) (before after : List Char) :
    condition.holds ⟨pos, before, after⟩ = condition.holds ⟨pos', before, after⟩ := by
  cases condition <;> rfl

/-- The search reads a text that the pattern describes in its place. -/
theorem run_describes (size : Nat) (pattern : Pattern) (hdirect : pattern.isDirect = true) :
    Direct pattern.Describes (pattern.run size) := by
  induction pattern with
  | empty => exact fun accept state result h => ⟨state.cursor, [], .refl _, rfl, h⟩
  | one set =>
    intro accept state result h
    rw [run] at h
    split at h
    next cursor hnext =>
      obtain ⟨c, hc, hreads⟩ := Cursor.reads_next hnext
      exact ⟨cursor, [c], hreads, ⟨c, rfl, hc⟩, h⟩
    next => cases h
  | anchor condition =>
    intro accept state result h
    rw [run] at h
    split at h
    next hholds =>
      exact ⟨state.cursor, [], .refl _, ⟨rfl, (condition.holds_eq _ _ _ _).trans hholds⟩, h⟩
    next => cases h
  | seq first second ihfirst ihsecond =>
    intro accept state result h
    rw [isDirect, Bool.and_eq_true] at hdirect
    obtain ⟨middle, start, hreads, hstart, h⟩ := ihfirst hdirect.1 _ _ _ h
    obtain ⟨stop, later, hreads', hlater, haccept⟩ := ihsecond hdirect.2 _ _ _ h
    refine ⟨stop, start ++ later, hreads.trans hreads', ⟨start, later, rfl, ?_, ?_⟩, haccept⟩
    · rwa [hreads'.after] at hstart
    · rwa [hreads.before] at hlater
  | either first second ihfirst ihsecond =>
    intro accept state result h
    rw [isDirect, Bool.and_eq_true] at hdirect
    rw [run] at h
    split at h
    next hfirst =>
      cases h
      obtain ⟨stop, text, hreads, htext, haccept⟩ := ihfirst hdirect.1 _ _ _ hfirst
      exact ⟨stop, text, hreads, .inl htext, haccept⟩
    next =>
      obtain ⟨stop, text, hreads, htext, haccept⟩ := ihsecond hdirect.2 _ _ _ h
      exact ⟨stop, text, hreads, .inr htext, haccept⟩
  | repeated body least most greedy ih =>
    intro accept state result h
    rw [isDirect, Bool.and_eq_true, Bool.and_eq_true, Option.all_eq_true] at hdirect
    obtain ⟨stop, text, hreads, htext, haccept⟩ := repeatFrom_direct (ih hdirect.1.1)
      (fun k hk => by simpa using hdirect.2 k hk) _ 0 none state (by omega) h
    refine ⟨stop, text, hreads, ?_, haccept⟩
    simpa [Describes] using htext
  | ahead wanted body ih =>
    intro accept state result h
    rw [isDirect, Bool.and_eq_true] at hdirect
    obtain ⟨rfl, hbody⟩ := hdirect
    rw [run] at h
    split at h
    next found hfound =>
      obtain ⟨stop, text, hreads, htext, heq⟩ := ih hbody _ _ _ hfound
      cases heq
      exact ⟨state.cursor, [], .refl _, ⟨rfl, text, stop.after, hreads.after, htext⟩, h⟩
    next => cases h
  | group | reference | behind | atomic | conditional => cases hdirect

/-! ## What is found -/

/-- A search that finds a way where a text of the language stands and what follows is accepted. -/
def Finds (language : List Char → List Char → List Char → Prop) (size : Nat)
    (search : Continuation → Continuation) : Prop :=
  ∀ accept state stop text, state.cursor.Reads stop text →
    language state.cursor.before text stop.after → state.cursor.after.length ≤ size →
    (accept ⟨stop, state.groups⟩).isSome → (search accept state).isSome

/-- Rounds of such a search are found one after another. A further round is tried, as the text has
been read further since the last one. -/
theorem repeatFrom_finds {body : Continuation → Continuation} (hbody : Finds language size body)
    (hne : ∀ before text rest, language before text rest → text ≠ []) {least' : Nat}
    {most' : Option Nat} (h : Repeats language least' most' before text rest) :
    ∀ rounds count last state stop, least' = least - count → most' = most.map (· - count) →
      before = state.cursor.before → rest = stop.after → state.cursor.Reads stop text →
      state.cursor.after.length ≤ size → text.length ≤ rounds →
      (∀ pos ∈ last, pos < state.cursor.pos) → (accept ⟨stop, state.groups⟩).isSome →
      (repeatFrom body least most greedy accept rounds count last state).isSome := by
  induction h with
  | stop =>
    intro rounds count last state stop hleast _ _ _ hreads _ _ _ haccept
    rw [hreads.eq_of_nil] at haccept
    cases rounds with
    | zero => exact haccept
    | succ rounds =>
      rw [repeatFrom, if_neg (by omega)]
      simp only
      split
      · split
        next => rfl
        next => exact haccept
      · split
        next => rfl
        next hnone => rw [hnone] at haccept; cases haccept
  | @round least' most' before text later rest hlimit htext _ ih =>
    rintro rounds count last state stop hleast hmost rfl rfl hreads hsize hrounds hlast haccept
    obtain ⟨middle, hfirst, hrest⟩ := hreads.split
    have hlength := List.length_pos_iff.mpr (hne _ _ _ htext)
    have hpos : state.cursor.pos < middle.pos := by
      rw [hfirst.pos]
      omega
    rw [List.length_append] at hrounds
    obtain ⟨rounds, rfl⟩ : ∃ k, rounds = k + 1 := ⟨rounds - 1, by omega⟩
    have hround : ∀ last', (∀ pos ∈ last', pos < middle.pos) →
        (body (repeatFrom body least most greedy accept rounds (count + 1) last')
        state).isSome := by
      intro last' hlast'
      rw [← hrest.after] at htext
      refine hbody _ state middle text hfirst htext hsize ?_
      refine ih rounds (count + 1) last' ⟨middle, state.groups⟩ stop (by omega) ?_ ?_ rfl hrest
        (Nat.le_trans hfirst.length_after_le hsize) (by omega) hlast' haccept
      · rw [hmost, map_sub_sub]
      · exact hfirst.before.symm
    rw [repeatFrom]
    split
    · exact hround last fun pos hmem => Nat.lt_trans (hlast pos hmem) hpos
    · have hfurther : (last != some state.cursor.pos) = true := by
        rw [bne_iff_ne]
        intro heq
        exact Nat.lt_irrefl _ (hlast state.cursor.pos heq)
      have hall : most.all (count < ·) = true := by
        rw [Option.all_eq_true]
        intro k hk
        rw [decide_eq_true_eq]
        by_contra hle
        refine hlimit ?_
        rw [hmost, hk, Option.map_some, Nat.sub_eq_zero_of_le (by omega)]
      simp only [hall, hfurther, Bool.and_true, if_true]
      have hagain := hround (some state.cursor.pos) (by rintro _ ⟨⟩; exact hpos)
      split
      · split
        next => rfl
        next hnone => rw [hnone] at hagain; cases hagain
      · split
        next => rfl
        next => exact hagain

/-- The search finds a match where the pattern describes a text in its place. -/
theorem run_isSome (size : Nat) (pattern : Pattern) (hdirect : pattern.isDirect = true) :
    Finds pattern.Describes size (pattern.run size) := by
  induction pattern with
  | empty =>
    rintro accept state stop text hreads rfl _ haccept
    rwa [hreads.eq_of_nil] at haccept
  | one set =>
    rintro accept state stop text hreads ⟨c, rfl, hc⟩ _ haccept
    have hnext : state.cursor.next set.holds = some stop := by
      obtain ⟨pos, before, after⟩ := stop
      rw [Cursor.next, hreads.after]
      simp only [List.singleton_append, hc, if_true]
      rw [show before = _ from hreads.before, show pos = _ from hreads.pos]
      rfl
    rw [run, hnext]
    exact haccept
  | anchor condition =>
    rintro accept state stop text hreads ⟨rfl, hholds⟩ _ haccept
    rw [hreads.eq_of_nil] at haccept hholds
    rw [run, if_pos ((condition.holds_eq _ _ _ _).trans hholds)]
    exact haccept
  | seq first second ihfirst ihsecond =>
    rintro accept state stop text hreads ⟨start, later, rfl, hstart, hlater⟩ hsize haccept
    rw [isDirect, Bool.and_eq_true] at hdirect
    obtain ⟨middle, hread, hread'⟩ := hreads.split
    rw [← hread'.after] at hstart
    rw [← hread.before] at hlater
    refine ihfirst hdirect.1 _ state middle start hread hstart hsize ?_
    exact ihsecond hdirect.2 _ ⟨middle, state.groups⟩ stop later hread' hlater
      (Nat.le_trans hread.length_after_le hsize) haccept
  | either first second ihfirst ihsecond =>
    rintro accept state stop text hreads htext hsize haccept
    rw [isDirect, Bool.and_eq_true] at hdirect
    rw [run]
    split
    next => rfl
    next hnone =>
      rcases htext with hfirst | hsecond
      · have hfound := ihfirst hdirect.1 accept state stop text hreads hfirst hsize haccept
        rw [hnone] at hfound
        cases hfound
      · exact ihsecond hdirect.2 accept state stop text hreads hsecond hsize haccept
  | repeated body least most greedy ih =>
    rintro accept state stop text hreads htext hsize haccept
    rw [isDirect, Bool.and_eq_true, Bool.and_eq_true] at hdirect
    have hlength := congrArg List.length hreads.after
    rw [List.length_append] at hlength
    exact repeatFrom_finds (ih hdirect.1.1) (fun _ _ _ => Describes.ne_nil hdirect.1.2)
      htext _ 0 none state stop rfl (by simp) rfl rfl hreads hsize (by omega)
      (fun pos hmem => absurd hmem (Option.not_mem_none pos)) haccept
  | ahead wanted body ih =>
    intro accept state stop text hreads htext hsize haccept
    rw [isDirect, Bool.and_eq_true] at hdirect
    obtain ⟨rfl, hbody⟩ := hdirect
    obtain ⟨rfl, next, later, hafter, hnext⟩ := htext
    rw [hreads.eq_of_nil] at haccept hafter
    have hfound := ih hbody some state
      ⟨state.cursor.pos + next.length, next.reverse ++ state.cursor.before, later⟩ next
      ⟨hafter, rfl, rfl⟩ hnext hsize rfl
    obtain ⟨found, hfound⟩ := Option.isSome_iff_exists.mp hfound
    obtain ⟨_, _, -, -, heq⟩ := run_describes size body hbody _ _ _ hfound
    cases heq
    rw [run, hfound]
    exact haccept
  | group | reference | behind | atomic | conditional => cases hdirect

/-! ## Recognisers -/

theorem recognize_describes (hdirect : pattern.isDirect = true) {cursor : Cursor} {n : Nat}
    {found : Found} (h : pattern.recognize size false cursor = some (n, found)) :
    ∃ rest, cursor.after = found.text ++ rest ∧ n = found.text.length ∧
      pattern.Describes cursor.before found.text rest := by
  obtain ⟨state, hrun, heq⟩ := Option.map_eq_some_iff.mp h
  obtain ⟨stop, text, hreads, htext, haccept⟩ := run_describes size pattern hdirect _ _ _ hrun
  cases haccept
  cases heq
  have hlength : stop.pos - cursor.pos = text.length := by
    rw [hreads.pos, Nat.add_sub_cancel_left]
  have htake : cursor.after.take text.length = text := by
    rw [hreads.after, List.take_left]
  simp only [hlength, htake]
  exact ⟨stop.after, hreads.after, trivial, htext⟩

theorem recognize_ne_none {size : Nat} {pattern : Pattern} (hdirect : pattern.isDirect = true)
    {cursor : Cursor} {text rest : List Char} (hafter : cursor.after = text ++ rest)
    (hsize : cursor.after.length ≤ size) (h : pattern.Describes cursor.before text rest) :
    pattern.recognize size false cursor ≠ none := by
  rw [recognize, ne_eq, Option.map_eq_none_iff, ← ne_eq, ← Option.isSome_iff_ne_none]
  exact run_isSome size pattern hdirect _ ⟨cursor, []⟩
    ⟨cursor.pos + text.length, text.reverse ++ cursor.before, rest⟩ text ⟨hafter, rfl,
    rfl⟩ h hsize rfl

end StructuredText.Pattern
