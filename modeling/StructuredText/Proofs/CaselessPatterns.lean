import StructuredText.Proofs.WordCase

/-!
# Patterns that ignore case

A pattern whose sets ignore case cannot tell texts apart that differ in case only. Whatever the
search tries at a place of one text, it tries at the same place of the other, with the same success.

Results:
1. `Pattern.CharSet.holds_recased`: a set that ignores case holds both of two letters or none.
2. `Pattern.run_agree`: the search goes the same ways in texts that differ in case only.
3. `Pattern.stretches_recased`: so the matches stand in the same places.
-/

namespace StructuredText

variable {c d : Char}

theorem Recased.symm (h : Recased c d) : Recased d c := by
  obtain rfl | ⟨hc, hd, hfold, hupper, hbased⟩ := h
  · exact .refl c
  · exact .inr ⟨hd, hc, hfold.symm, hupper.symm, hbased.symm⟩

theorem Recased.trans {e : Char} (h : Recased c d) (h' : Recased d e) : Recased c e := by
  obtain rfl | ⟨hc, hd, hfold, hupper, hbased⟩ := h
  · exact h'
  obtain rfl | ⟨-, he, hfold', hupper', hbased'⟩ := h'
  · exact .inr ⟨hc, hd, hfold, hupper, hbased⟩
  · exact .inr ⟨hc, he, hfold.trans hfold', hupper.trans hupper', hbased.trans hbased'⟩

theorem forall₂_recased_trans {first second third : List Char}
    (h : List.Forall₂ Recased first second) (h' : List.Forall₂ Recased second third) :
    List.Forall₂ Recased first third := by
  induction h generalizing third with
  | nil => exact h'
  | cons hcd _ ih =>
    cases h' with
    | cons hde hrest => exact .cons (hcd.trans hde) (ih hrest)

namespace Pattern

/-! ## Sets -/

/-- The variants of a plain code point are those of its folded letter, and it is among them. -/
theorem caseVariants_checked :
    (plainPoints.all fun n =>
      decide (caseVariants (Char.ofNat n) = caseVariants (foldChar (Char.ofNat n))) &&
      decide ((Char.ofNat n).toNat ∈ caseVariants (Char.ofNat n)) &&
      decide ((foldChar (Char.ofNat n)).toNat < 128)) = true := by
  decide +kernel

variable {c d : Char} {set : CharSet} {cursor cursor' : Cursor} {pattern : Pattern}

theorem caseVariants_of_isPlain (h : isPlain c) :
    caseVariants c = caseVariants (foldChar c) ∧ c.toNat ∈ caseVariants c ∧
      (foldChar c).toNat < 128 := by
  have := @forall_plain (fun e => decide (caseVariants e = caseVariants (foldChar e)) &&
    decide (e.toNat ∈ caseVariants e) && decide ((foldChar e).toNat < 128)) caseVariants_checked c h
  simpa [and_assoc] using this

/-- The ASCII letters that a range holds up to case are held in all their cases. -/
theorem SetItem.holds_range {low high : Nat} (hhigh : high < 128) (h : Recased c d)
    (hc : SetItem.holds true (.range low high) c = true) :
    SetItem.holds true (.range low high) d = true := by
  simp only [SetItem.holds, Bool.true_and, Bool.or_eq_true, Bool.and_eq_true, decide_eq_true_eq,
    List.any_eq_true] at hc ⊢
  have hplain : isPlain c := by
    rcases hc with hc | ⟨m, hm, hle⟩
    · exact isPlain_of_lt (by omega)
    · exact isPlain_of_caseVariants hm (by omega)
  obtain ⟨hvariants, hself, hfold⟩ := caseVariants_of_isPlain hplain
  rw [h.foldChar_eq] at hvariants hfold
  rw [← (caseVariants_of_isPlain (isPlain_of_foldChar hfold)).1] at hvariants
  rcases hc with hc | ⟨m, hm, hle⟩
  · exact .inr ⟨c.toNat, hvariants ▸ hself, hc⟩
  · exact .inr ⟨m, hvariants ▸ hm, hle⟩

theorem Category.holds_recased {kind : Category} (hkind : kind ≠ kind.ascii) (h : Recased c d) :
    kind.holds c = kind.holds d := by
  cases kind with
  | digit => exact h.isDigit_eq
  | blank => exact h.isBlank_eq
  | word => exact h.isWordChar_eq
  | asciiDigit | asciiBlank | asciiWord => exact absurd rfl hkind

/-- Whether a set ignores case: its ranges hold ASCII code points up to case, and its classes are
among all code points, as ASCII has one case of some letters only. -/
def CharSet.ignoresCase (set : CharSet) : Bool :=
  set.items.all fun item =>
    match item with
    | .range _ high => set.ignoreCase && decide (high < 128)
    | .category kind _ => kind != kind.ascii

theorem CharSet.any_recased (hset : set.ignoresCase = true) (h : Recased c d)
    (hc : set.items.any (·.holds set.ignoreCase c) = true) :
    set.items.any (·.holds set.ignoreCase d) = true := by
  obtain ⟨item, hitem, hc⟩ := List.any_eq_true.mp hc
  refine List.any_eq_true.mpr ⟨item, hitem, ?_⟩
  have hrange := List.all_eq_true.mp hset item hitem
  cases item with
  | category kind inside => rwa [SetItem.holds, ← Category.holds_recased (bne_iff_ne.mp hrange) h]
  | range low high =>
    simp only [Bool.and_eq_true, decide_eq_true_eq] at hrange
    rw [hrange.1] at hc ⊢
    exact SetItem.holds_range hrange.2 h hc

/-- A set that ignores case holds both of two letters that differ in case, or none. -/
theorem CharSet.holds_recased (hset : set.ignoresCase = true) (h : Recased c d) :
    set.holds c = set.holds d := by
  have hany : set.items.any (·.holds set.ignoreCase c) =
      set.items.any (·.holds set.ignoreCase d) :=
    Bool.eq_iff_iff.mpr ⟨any_recased hset h, any_recased hset h.symm⟩
  rw [holds, holds, hany]

/-! ## Searches -/

/-- Both searches fail, or both succeed and end at the same place. -/
def EndAlike (result result' : Option State) : Prop :=
  result = none ∧ result' = none ∨
    ∃ stop stop', result = some stop ∧ result' = some stop' ∧ stop.cursor.Alike stop'.cursor

/-- Searches that go alike from the same place of texts that differ in case only. -/
def Agree (accept accept' : Continuation) : Prop :=
  ∀ state state', state.cursor.Alike state'.cursor → EndAlike (accept state) (accept' state')

/-- A way of searching that goes on alike if what is behind it does. -/
def KeepsAgreement (search : Continuation → Continuation) : Prop :=
  ∀ accept accept', Agree accept accept' → Agree (search accept) (search accept')

theorem endAlike_none : EndAlike none none :=
  .inl ⟨rfl, rfl⟩

theorem endAlike_some {stop stop' : State} (h : stop.cursor.Alike stop'.cursor) :
    EndAlike (some stop) (some stop') :=
  .inr ⟨stop, stop', rfl, rfl, h⟩

theorem repeatFrom_agree {body : Continuation → Continuation} (hbody : KeepsAgreement body)
    (least : Nat) (most : Option Nat) (greedy : Bool) {accept accept' : Continuation}
    (haccept : Agree accept accept') (rounds : Nat) :
    ∀ count last, Agree (repeatFrom body least most greedy accept rounds count last)
      (repeatFrom body least most greedy accept' rounds count last) := by
  induction rounds with
  | zero => exact fun _ _ => haccept
  | succ rounds ih =>
    intro count last state state' h
    have hround := fun last => hbody _ _ (ih (count + 1) last) state state' h
    have hstop := haccept state state' h
    have hagain : EndAlike
        (if most.all (count < ·) && last != some state.cursor.pos then
          body (repeatFrom body least most greedy accept rounds (count + 1)
            (some state.cursor.pos)) state else none)
        (if most.all (count < ·) && last != some state.cursor.pos then
          body (repeatFrom body least most greedy accept' rounds (count + 1)
            (some state.cursor.pos)) state' else none) := by
      split
      · exact hround _
      · exact endAlike_none
    simp only [repeatFrom, h.pos]
    split
    · exact hround last
    · split
      · rcases hagain with ⟨hnone, hnone'⟩ | ⟨stop, stop', hsome, hsome', halike⟩
        · rw [hnone, hnone']
          exact hstop
        · rw [hsome, hsome']
          exact endAlike_some halike
      · rcases hstop with ⟨hnone, hnone'⟩ | ⟨stop, stop', hsome, hsome', halike⟩
        · rw [hnone, hnone']
          exact hagain
        · rw [hsome, hsome']
          exact endAlike_some halike

/-- Whether a pattern ignores case. A reference to a group does not, and boundaries of ASCII words
do not. -/
def ignoresCase : Pattern → Bool
  | .anchor .asciiBoundary | .anchor .noAsciiBoundary => false
  | .empty | .anchor _ => true
  | .one set => set.ignoresCase
  | .seq first second | .either first second => first.ignoresCase && second.ignoresCase
  | .repeated body _ _ _ | .group _ body | .ahead _ body | .behind _ _ body | .atomic body =>
      body.ignoresCase
  | .reference _ _ | .conditional _ _ _ => false

/-- Ends of texts and of lines are the same in both texts, and so are the boundaries of words. -/
theorem Anchor.holds_alike {condition : Anchor} (hcondition : (anchor condition).ignoresCase = true)
    (h : cursor.Alike cursor') :
    condition.holds cursor = condition.holds cursor' := by
  have hfeed : ∀ {c d : Char}, Recased c d → (c == '\n') = (d == '\n') :=
    fun hcd => hcd.beq_eq (by decide)
  have hempty : ∀ {text text' : List Char}, List.Forall₂ Recased text text' →
      text.isEmpty = text'.isEmpty := by
    intro text text' htext
    cases htext <;> rfl
  cases condition with
  | textStart => exact hempty h.before
  | textEnd => exact hempty h.after
  | boundary => exact h.atBoundary_eq
  | asciiBoundary | noAsciiBoundary => cases hcondition
  | noBoundary =>
    rw [holds, holds, h.atBoundary_eq, Cursor.atStart, Cursor.atStart, Cursor.atEnd, Cursor.atEnd,
      hempty h.before, hempty h.after]
  | lineStart =>
    obtain ⟨_, before, _⟩ := cursor
    obtain ⟨_, before', _⟩ := cursor'
    obtain ⟨-, hbefore, -⟩ := h
    cases hbefore with
    | nil => rfl
    | cons hcd _ => exact hfeed hcd
  | lineEnd =>
    obtain ⟨_, _, after⟩ := cursor
    obtain ⟨_, _, after'⟩ := cursor'
    obtain ⟨-, -, hafter⟩ := h
    cases hafter with
    | nil => rfl
    | cons hcd _ => exact hfeed hcd
  | lastLineEnd =>
    have hlast : (cursor.after == ['\n']) = (cursor'.after == ['\n']) := by
      obtain ⟨_, _, after⟩ := cursor
      obtain ⟨_, _, after'⟩ := cursor'
      obtain ⟨-, -, hafter⟩ := h
      cases hafter with
      | nil => rfl
      | cons hcd hrest =>
        rw [List.cons_beq_cons, List.cons_beq_cons, hfeed hcd]
        cases hrest <;> rfl
    rw [holds, holds, Cursor.atEnd, Cursor.atEnd, hempty h.after, hlast]

theorem stepBack_ignoresCase (width : Nat) : IgnoresCase (stepBack width) := by
  induction width with
  | zero => exact fun cursor cursor' h => .inr ⟨cursor, cursor', rfl, rfl, h⟩
  | succ width ih =>
    rintro ⟨pos, before, after⟩ ⟨_, before', after'⟩ ⟨rfl, hbefore, hafter⟩
    rw [stepBack, stepBack]
    cases hbefore with
    | nil => exact .inl ⟨rfl, rfl⟩
    | cons hcd hrest => exact ih _ _ ⟨rfl, hrest, .cons hcd hafter⟩

theorem some_agree : Agree some some :=
  fun _ _ h => endAlike_some h

/-- The search for a pattern that ignores case goes the same ways in texts that differ in case
only. -/
theorem run_agree (size : Nat) (pattern : Pattern) (hpattern : pattern.ignoresCase = true) :
    KeepsAgreement (pattern.run size) := by
  induction pattern with
  | empty => exact fun accept accept' haccept => haccept
  | one set =>
    intro accept accept' haccept state state' h
    rw [run, run]
    rcases Cursor.next_ignoresCase (fun _ _ => CharSet.holds_recased hpattern) _ _ h with
      ⟨hnone, hnone'⟩ | ⟨stop, stop', hsome, hsome', hstop⟩
    · rw [hnone, hnone']
      exact endAlike_none
    · rw [hsome, hsome']
      exact haccept _ _ hstop
  | anchor condition =>
    intro accept accept' haccept state state' h
    rw [run, run, Anchor.holds_alike hpattern h]
    split
    · exact haccept state state' h
    · exact endAlike_none
  | seq first second ihfirst ihsecond =>
    intro accept accept' haccept
    rw [ignoresCase, Bool.and_eq_true] at hpattern
    exact ihfirst hpattern.1 _ _ (ihsecond hpattern.2 _ _ haccept)
  | either first second ihfirst ihsecond =>
    intro accept accept' haccept state state' h
    rw [ignoresCase, Bool.and_eq_true] at hpattern
    rw [run, run]
    rcases ihfirst hpattern.1 _ _ haccept state state' h with
      ⟨hnone, hnone'⟩ | ⟨stop, stop', hsome, hsome', hstop⟩
    · rw [hnone, hnone']
      exact ihsecond hpattern.2 _ _ haccept state state' h
    · rw [hsome, hsome']
      exact endAlike_some hstop
  | repeated body least most greedy ih =>
    intro accept accept' haccept
    exact repeatFrom_agree (ih hpattern) least most greedy haccept _ 0 none
  | group index body ih =>
    intro accept accept' haccept state state' h
    rw [run, run]
    refine ih hpattern _ _ ?_ state state' h
    exact fun _ _ hfound => haccept _ _ hfound
  | reference index rule | conditional index present absent => cases hpattern
  | ahead wanted body ih =>
    intro accept accept' haccept state state' h
    rw [run, run]
    rcases ih hpattern _ _ some_agree state state' h with
      ⟨hnone, hnone'⟩ | ⟨stop, stop', hsome, hsome', -⟩
    · rw [hnone, hnone']
      cases wanted with
      | true => exact endAlike_none
      | false => exact haccept state state' h
    · rw [hsome, hsome']
      cases wanted with
      | true => exact haccept _ _ h
      | false => exact endAlike_none
  | behind wanted width body ih =>
    intro accept accept' haccept state state' h
    rw [run, run]
    have hbehind : EndAlike
        ((stepBack width.least state.cursor).bind fun cursor =>
        body.run size some { state with cursor })
        ((stepBack width.least state'.cursor).bind fun cursor =>
          body.run size some { state' with cursor }) := by
      rcases stepBack_ignoresCase width.least _ _ h with
        ⟨hnone, hnone'⟩ | ⟨start, start', hsome, hsome', hstart⟩
      · rw [hnone, hnone']
        exact endAlike_none
      · rw [hsome, hsome']
        exact ih hpattern _ _ some_agree _ _ hstart
    rcases hbehind with ⟨hnone, hnone'⟩ | ⟨stop, stop', hsome, hsome', -⟩
    · rw [hnone, hnone']
      cases wanted with
      | true => exact endAlike_none
      | false => exact haccept state state' h
    · rw [hsome, hsome']
      cases wanted with
      | true => exact haccept _ _ h
      | false => exact endAlike_none
  | atomic body ih =>
    intro accept accept' haccept state state' h
    rw [run, run]
    rcases ih hpattern _ _ some_agree state state' h with
      ⟨hnone, hnone'⟩ | ⟨stop, stop', hsome, hsome', hstop⟩
    · rw [hnone, hnone']
      exact endAlike_none
    · rw [hsome, hsome']
      exact haccept _ _ hstop

/-- A pattern that ignores case matches as much at the same place of texts that differ in case
only. -/
theorem recognize_alike {size : Nat} (hpattern : pattern.ignoresCase = true) (advance : Bool)
    (h : cursor.Alike cursor') :
    (pattern.recognize size advance cursor).map Prod.fst =
      (pattern.recognize size advance cursor').map Prod.fst := by
  have haccept : Agree
      (fun state => if advance && state.cursor.pos == cursor.pos then none else some state)
      (fun state => if advance && state.cursor.pos == cursor'.pos then none else some state) := by
    intro state state' halike
    simp only [halike.pos, h.pos]
    split
    · exact endAlike_none
    · exact endAlike_some halike
  rw [recognize, recognize]
  rcases run_agree size pattern hpattern _ _ haccept ⟨cursor, []⟩ ⟨cursor', []⟩ h with
    ⟨hnone, hnone'⟩ | ⟨stop, stop', hsome, hsome', hstop⟩
  · rw [hnone, hnone']
    rfl
  · rw [hsome, hsome']
    simp only [Option.map_some, hstop.pos, h.pos]

/-- The matches of a pattern that ignores case stand in the same places of texts that differ in case
only. -/
theorem stretches_recased (hpattern : pattern.ignoresCase = true)
    (hconsumes : pattern.consumes = true) {text text' : List Char}
    (h : List.Forall₂ Recased text text') :
    (pattern.matchesIn text').map Occurrence.stretch =
      (pattern.matchesIn text).map Occurrence.stretch := by
  rw [matchesIn, matchesIn, ← h.length_eq]
  exact (occurrencesFrom_alike (recognize_isProper hconsumes) (recognize_isProper hconsumes)
    (fun _ _ halike => recognize_alike hpattern false halike) h 0 0 [] [] .nil).symm

end Pattern

end StructuredText
