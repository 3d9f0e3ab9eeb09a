import StructuredText.Pattern.Lexeme

/-!
# Lexemes of a source inside another one

A lexeme of a source is read in the same way where the source stands inside a group of another one:
no lexeme reaches beyond the closing parenthesis behind it. Only a comment in a verbose part, which
nothing but a line feed ends, may do so.

Results:
1. `Steady`: what a reader takes does not depend on where the tokens stand, nor on what follows the
   parenthesis behind them.
2. `readLexeme_place`: the readers of all lexemes are like that, but for such comments.
3. `tokensFrom_place`: the tokens of a source that stands inside a group.
-/

namespace StructuredText.Pattern

variable {ι : Type} {tokens rest rest' : List Token} {offset size : Nat} {c : Char}

theorem exists_of_bind_ok {ε α β : Type} {source : Except ε α} {next : α → Except ε β} {result : β}
    (h : source >>= next = .ok result) : ∃ value, source = .ok value ∧ next value = .ok result := by
  cases source with
  | error fault => cases h
  | ok value => exact ⟨value, rfl, h⟩

/-! ## Sites -/

/-- The token, `distance` further on. -/
def Token.moved (distance : Nat) (token : Token) : Token :=
  { token with offset := distance + token.offset }

/-- Where a source is put: its tokens are moved on by `distance`, and a closing parenthesis at
`stop` follows, with `tail` behind. -/
structure Site where
  distance : Nat
  stop : Nat
  tail : List Token

/-- The tokens from the parenthesis on. -/
def Site.close (site : Site) : List Token :=
  ⟨site.stop, .plain ')'⟩ :: site.tail

/-- The tokens at a site, and all that follows. -/
def Site.place (site : Site) (tokens : List Token) : List Token :=
  tokens.map (Token.moved site.distance) ++ site.close

namespace Site

variable (site : Site)

@[simp] theorem place_nil : site.place [] = site.close :=
  rfl

@[simp] theorem place_cons (token : Token) (tokens : List Token) :
    site.place (token :: tokens) = token.moved site.distance :: site.place tokens :=
  rfl

theorem length_place (tokens : List Token) :
    (site.place tokens).length = tokens.length + site.close.length := by
  rw [place, List.length_append, List.length_map]

theorem arrive_place (h : arrive tokens = .ok ()) : arrive (site.place tokens) = .ok () := by
  rcases tokens with _ | ⟨⟨offset, _ | _ | _⟩, rest⟩
  · rfl
  · rfl
  · rfl
  · cases h

end Site

variable {found : Option (List Token)} {sign : Sign} {offset' : Nat}

theorem acceptSign_eq_ok (h : acceptSign c tokens = .ok found) :
    found = none ∨
      ∃ offset rest, tokens = ⟨offset, .plain c⟩ :: rest ∧ found = some rest ∧
      arrive rest = .ok () := by
  rcases tokens with _ | ⟨⟨offset, d | d | _⟩, tokens⟩
  · cases h
    exact .inl rfl
  · by_cases hd : c = d
    · subst hd
      rw [acceptSign, if_pos rfl] at h
      obtain ⟨_, harrive, hfound⟩ := exists_of_bind_ok h
      cases hfound
      exact .inr ⟨offset, tokens, rfl, rfl, harrive⟩
    · rw [acceptSign, if_neg hd] at h
      cases h
      exact .inl rfl
  · cases h
    exact .inl rfl
  · cases h
    exact .inl rfl

/-- A sign other than the parenthesis is accepted at a site if it is accepted elsewhere. -/
theorem acceptSign_place (hc : c ≠ ')') (h : acceptSign c tokens = .ok found) (site : Site) :
    acceptSign c (site.place tokens) = .ok (found.map site.place) := by
  rcases tokens with _ | ⟨⟨offset, d | d | _⟩, tokens⟩
  · cases h
    exact if_neg hc
  · rw [acceptSign] at h
    rw [Site.place_cons, Token.moved, acceptSign]
    split at h
    · next hd =>
      obtain ⟨_, harrive, hfound⟩ := exists_of_bind_ok h
      cases hfound
      rw [if_pos hd, site.arrive_place harrive]
      rfl
    · next hd =>
      cases h
      exact if_neg hd
  · cases h
    rfl
  · cases h
    rfl

/-! ## Steady readers -/

/-- From these tokens, the reader takes some off the front, with no dangling backslash among them,
and it takes the same ones at any site. What it is given besides the tokens only goes into
faults. -/
def Steady {ι α : Type} (read : ι → List Token → Reading (α × List Token)) (tokens : List Token) :
    Prop :=
  ∀ i value rest, read i tokens = .ok (value, rest) →
    (∃ taken, tokens = taken ++ rest ∧ ∀ token ∈ taken, token.sign ≠ .dangling) ∧
    ∀ (site : Site) (j : ι), read j (site.place tokens) = .ok (value, site.place rest)

namespace Steady

variable {ι κ α β γ : Type} {tokens : List Token}

protected theorem pure (value : α) : Steady (fun (_ : ι) tokens => .ok (value, tokens)) tokens := by
  intro i found rest h
  cases h
  exact ⟨⟨[], rfl, nofun⟩, fun _ _ => rfl⟩

/-- There is nothing to show where the reader finds a fault. -/
protected theorem fault {read : ι → List Token → Reading (α × List Token)}
    (h : ∀ i result, read i tokens ≠ .ok result) : Steady read tokens :=
  fun _ _ _ hread => absurd hread (h _ _)

protected theorem error (fault : ι → List Token → Cause × Nat) :
    Steady (α := α) (fun i tokens => .error (fault i tokens)) tokens :=
  .fault fun _ _ => nofun

/-- What else a reader is given may come from elsewhere. -/
protected theorem comap {read : ι → List Token → Reading (α × List Token)}
    (hread : Steady read tokens) (f : κ → ι) :
    Steady (fun i tokens => read (f i) tokens) tokens := by
  intro i value rest h
  obtain ⟨htaken, hplaced⟩ := hread _ _ _ h
  exact ⟨htaken, fun site j => hplaced site (f j)⟩

protected theorem bind {read : ι → List Token → Reading (α × List Token)}
    {next : ι → α × List Token → Reading (β × List Token)} (hread : Steady read tokens)
    (hnext : ∀ value rest, Steady (fun i rest => next i (value, rest)) rest) :
    Steady (fun i tokens => read i tokens >>= next i) tokens := by
  intro i result rest h
  obtain ⟨⟨value, between⟩, hfirst, hsecond⟩ := exists_of_bind_ok h
  obtain ⟨⟨taken, rfl, htaken⟩, hplaced⟩ := hread _ _ _ hfirst
  obtain ⟨⟨further, rfl, hfurther⟩, hplaced'⟩ := hnext value _ _ _ _ hsecond
  refine ⟨⟨taken ++ further, (List.append_assoc ..).symm, fun token hmem => ?_⟩, fun site j => ?_⟩
  · exact (List.mem_append.mp hmem).elim (htaken token) (hfurther token)
  · simp only [hplaced site j]
    exact hplaced' site j

protected theorem ite (condition : Prop) {_ : Decidable condition}
    {first second : ι → List Token → Reading (α × List Token)} (hfirst : Steady first tokens)
    (hsecond : Steady second tokens) :
    Steady (fun i tokens => if condition then first i tokens else second i tokens) tokens := by
  by_cases h : condition
  · simpa only [if_pos h] using hfirst
  · simpa only [if_neg h] using hsecond

/-- A value that is computed on the way, and depends on the place in its faults only. -/
protected theorem compute {value : ι → List Token → Reading γ}
    {next : ι → List Token → γ → Reading (α × List Token)}
    (hvalue : ∀ i tokens j tokens' found, value i tokens = .ok found → value j tokens' = .ok found)
    (hnext : ∀ found, Steady (fun i tokens => next i tokens found) tokens) :
    Steady (fun i tokens => value i tokens >>= next i tokens) tokens := by
  intro i result rest h
  obtain ⟨found, hfound, hrest⟩ := exists_of_bind_ok h
  obtain ⟨htaken, hplaced⟩ := hnext found _ _ _ hrest
  refine ⟨htaken, fun site j => ?_⟩
  simp only [hvalue i tokens j (site.place tokens) found hfound]
  exact hplaced site j

protected theorem arrive {read : ι → List Token → Reading (α × List Token)}
    (hread : arrive tokens = .ok () → Steady read tokens) :
    Steady (fun i tokens => arrive tokens >>= fun _ => read i tokens) tokens := by
  intro i value rest h
  obtain ⟨_, harrive, hrest⟩ := exists_of_bind_ok h
  obtain ⟨htaken, hplaced⟩ := hread harrive _ _ _ hrest
  refine ⟨htaken, fun site j => ?_⟩
  simp only [site.arrive_place harrive]
  exact hplaced site j

/-- The first token is taken, and its offset is given on. -/
protected theorem cons {read : ι → List Token → Reading (α × List Token)} {offset : Nat}
    {sign : Sign} {rest : List Token} (hsign : sign ≠ .dangling)
    (hnext : Steady (fun (i : ι × Nat) rest => read i.1 (⟨i.2, sign⟩ :: rest)) rest) :
    Steady read (⟨offset, sign⟩ :: rest) := by
  intro i value rest h
  obtain ⟨⟨taken, rfl, htaken⟩, hplaced⟩ := hnext (i, offset) value rest h
  refine ⟨⟨⟨offset, sign⟩ :: taken, rfl, ?_⟩, fun site j => hplaced site (j, _)⟩
  exact List.forall_mem_cons.mpr ⟨hsign, htaken⟩

/-- The reader goes one way if the next token is `c`, and another way if not. -/
protected theorem accept (hc : c ≠ ')')
    {next : ι → List Token → Option (List Token) → Reading (α × List Token)}
    (hsome : ∀ i tokens rest, next i tokens (some rest) = next i [] (some rest))
    (hyes : ∀ rest, arrive rest = .ok () → Steady (fun i rest => next i [] (some rest)) rest)
    (hno : Steady (fun i tokens => next i tokens none) tokens) :
    Steady (fun i tokens => acceptSign c tokens >>= next i tokens) tokens := by
  intro i value rest h
  obtain ⟨found, hfound, hrest⟩ := exists_of_bind_ok h
  have hplace := acceptSign_place hc hfound
  rcases acceptSign_eq_ok hfound with rfl | ⟨offset, tokens, rfl, rfl, harrive⟩
  · refine ⟨(hno _ _ _ hrest).1, fun site j => ?_⟩
    simp only [hplace]
    exact (hno _ _ _ hrest).2 site j
  · rw [hsome] at hrest
    obtain ⟨⟨taken, rfl, htaken⟩, hplaced⟩ := hyes _ harrive _ _ _ hrest
    refine ⟨⟨⟨offset, .plain c⟩ :: taken, rfl, ?_⟩, fun site j => ?_⟩
    · exact List.forall_mem_cons.mpr ⟨nofun, htaken⟩
    · simp only [hplace]
      exact (hsome ..).trans (hplaced site j)

end Steady

theorem sign_ne_of_arrive (h : arrive (⟨offset, sign⟩ :: rest) = .ok ()) :
    sign ≠ .dangling := by
  rintro rfl
  cases h

/-! ## Numbers, names and escapes -/

theorem steady_readUpTo {p : Char → Bool} (hp : p ')' = false) (limit : Nat) (tokens : List Token) :
    Steady (fun (_ : ι) tokens => readUpTo p limit tokens) tokens := by
  induction limit generalizing tokens with
  | zero => exact .pure []
  | succ limit ih =>
    rcases tokens with _ | ⟨⟨offset, c | c | _⟩, rest⟩
    · intro i value rest h
      cases h
      refine ⟨⟨[], rfl, nofun⟩, fun site j => ?_⟩
      simp only [Site.place_nil, Site.close, readUpTo, hp]
      rfl
    · by_cases hc : p c = true
      · refine .cons nofun ?_
        simp only [readUpTo, if_pos hc]
        exact .arrive fun _ => .bind ((ih rest).comap Prod.fst) fun taken _ => .pure (c :: taken)
      · intro i value rest h
        simp only [readUpTo, if_neg hc] at h
        cases h
        refine ⟨⟨[], rfl, nofun⟩, fun site j => ?_⟩
        simp only [Site.place_cons, Token.moved, readUpTo, if_neg hc]
        rfl
    · intro i value rest h
      cases h
      exact ⟨⟨[], rfl, nofun⟩, fun _ _ => rfl⟩
    · intro i value rest h
      cases h
      exact ⟨⟨[], rfl, nofun⟩, fun _ _ => rfl⟩

theorem readUpTo_of_length_le (p : Char → Bool) {limit : Nat} (h : tokens.length ≤ limit) :
    readUpTo p limit tokens = readUpTo p tokens.length tokens := by
  induction tokens generalizing limit with
  | nil => cases limit <;> rfl
  | cons token rest ih =>
    obtain ⟨limit, rfl⟩ : ∃ n, limit = n + 1 := ⟨limit - 1, by grind⟩
    rw [List.length_cons, readUpTo, readUpTo, ih (Nat.le_of_succ_le_succ h)]

/-- Digits without a limit. -/
theorem steady_readDigits (tokens : List Token) :
    Steady (fun (_ : ι) tokens => readUpTo isDecimalDigit tokens.length tokens) tokens := by
  intro i value rest h
  refine ⟨(steady_readUpTo rfl _ _ i _ _ h).1, fun site j => ?_⟩
  have hlength : tokens.length ≤ (site.place tokens).length := by
    rw [site.length_place]
    exact Nat.le_add_right _ _
  simp only [← readUpTo_of_length_le isDecimalDigit hlength] at h
  exact (steady_readUpTo rfl _ _ i _ _ h).2 site j

theorem steady_readName (what : String) (terminator : Char) (taken : List Char)
    (tokens : List Token) (harrive : arrive tokens = .ok ()) :
    Steady (fun size tokens => readName size what terminator taken tokens) tokens := by
  induction tokens generalizing taken with
  | nil =>
    refine .fault fun size result => ?_
    rw [readName]
    split <;> nofun
  | cons token rest ih =>
    refine .cons (sign_ne_of_arrive harrive) ?_
    simp only [readName]
    refine .arrive fun hrest => ?_
    by_cases hend : token.sign = .plain terminator
    · simp only [if_pos hend]
      exact .ite _ (.error _) (.pure _)
    · simp only [if_neg hend]
      exact (ih _ hrest).comap Prod.fst

theorem steady_readHexEscape (c : Char) (width : Nat) (tokens : List Token) :
    Steady (fun offset tokens => readHexEscape offset c width tokens) tokens := by
  refine .bind (steady_readUpTo rfl width tokens) fun digits _ => ?_
  exact .ite _ (.error _) (.ite _ (.error _) (.pure _))

theorem steady_readNamedEscape [Host] (tokens : List Token) :
    Steady (fun size tokens => readNamedEscape size tokens) tokens := by
  refine .accept (by decide) (fun _ _ _ => rfl) (fun rest harrive => ?_) (.error _)
  refine .bind (steady_readName "character name" '}' [] rest harrive) fun name _ => ?_
  dsimp only
  split
  · exact .pure _
  · exact .error _

theorem steady_readPlainEscape [Host] (c : Char) (tokens : List Token) :
    Steady (fun (i : Nat × Nat) tokens => readPlainEscape i.1 i.2 c tokens) tokens := by
  refine .ite _ ((steady_readHexEscape c 2 tokens).comap Prod.snd) ?_
  refine .ite _ ((steady_readHexEscape c 4 tokens).comap Prod.snd) ?_
  refine .ite _ ((steady_readHexEscape c 8 tokens).comap Prod.snd) ?_
  refine .ite _ ((steady_readNamedEscape tokens).comap Prod.fst) ?_
  exact .ite _ (.error _) (.pure _)

theorem steady_readOctalEscape (c : Char) (tokens : List Token) :
    Steady (fun offset tokens => readOctalEscape offset c tokens) tokens := by
  refine .bind (steady_readUpTo rfl 2 tokens) fun digits _ => ?_
  exact .ite _ (.error _) (.pure _)

theorem steady_readReference (c : Char) (tokens : List Token) :
    Steady (fun offset tokens => readReference offset c tokens) tokens := by
  refine .bind (steady_readUpTo rfl 1 tokens) fun second rest => ?_
  refine .ite _ (.bind (steady_readUpTo rfl 1 rest) fun third _ => ?_)
    (.bind (.pure []) fun third _ => ?_)
  · exact .ite _ (.pure _) (.ite _ (.error _) (.pure _))
  · exact .ite _ (.pure _) (.ite _ (.error _) (.pure _))

theorem steady_readEscape [Host] (c : Char) (tokens : List Token) :
    Steady (fun (i : Nat × Nat) tokens => readEscape i.1 i.2 c tokens) tokens := by
  unfold readEscape
  split
  · exact .pure _
  · exact .pure _
  · exact .pure _
  · exact .pure _
  · split
    · exact .pure _
    · exact .pure _
    · refine .ite _ ?_ (.ite _ ((steady_readReference c tokens).comap Prod.snd) ?_)
      · exact .bind (steady_readUpTo rfl 2 tokens) fun digits _ => .pure _
      · exact .bind (steady_readPlainEscape c tokens) fun code _ => .pure _

/-! ## Sets -/

theorem steady_readSetMember [Host] (sign : Sign) (tokens : List Token) :
    Steady (fun (i : Nat × Nat) tokens => readSetMember i.1 ⟨i.2, sign⟩ tokens) tokens := by
  rcases sign with c | c | _
  · exact .pure _
  · refine .ite _ (.pure _) ?_
    dsimp only
    split
    · exact .pure _
    · exact .pure _
    · refine .ite _ ?_ ?_
      · exact .bind ((steady_readOctalEscape c tokens).comap Prod.snd) fun code _ =>
          .pure (SetItem.range code code)
      · exact .bind (steady_readPlainEscape c tokens) fun code _ => .pure (SetItem.range code code)
  · exact .error _

theorem rangeBetween_congr {size' : Nat} {first last first' last' : Token} {low high item : SetItem}
    (h : rangeBetween size first last low high rest = .ok item) :
    rangeBetween size' first' last' low high rest' = .ok item := by
  rcases low with ⟨low, _⟩ | _
  · rcases high with ⟨high, _⟩ | _
    · rw [rangeBetween] at h ⊢
      by_cases hlow : high < low
      · simp only [if_pos hlow] at h
        cases h
      · simpa only [if_neg hlow] using h
    · cases h
  · cases h

theorem steady_readSetItems [Host] (tries : Nat) (items : List SetItem) (tokens : List Token) :
    Steady (fun (i : Nat × Nat) tokens => readSetItems i.1 i.2 tries items tokens) tokens := by
  induction tries generalizing items tokens with
  | zero => exact .error _
  | succ tries ih =>
    rcases tokens with _ | ⟨⟨offset, sign⟩, rest⟩
    · exact .fault fun _ _ => nofun
    by_cases hsign : sign = .dangling
    · subst hsign
      refine .fault fun i result => ?_
      rw [readSetItems]
      cases arrive rest <;> nofun
    refine .cons hsign ?_
    simp only [readSetItems]
    refine .arrive fun _ => ?_
    by_cases hend : (decide (sign = .plain ']') && !items.isEmpty) = true
    · simp only [if_pos hend]
      exact .pure _
    simp only [if_neg hend]
    have hmember := (steady_readSetMember sign rest).comap fun i : (Nat × Nat) × Nat => (i.1.1, i.2)
    refine .bind hmember fun low rest => ?_
    refine .accept (by decide) ?_ (fun rest harrive => ?_) ((ih (low :: items) rest).comap Prod.fst)
    · rintro i tokens (_ | ⟨last, rest⟩) <;> rfl
    rcases rest with _ | ⟨⟨offset, last⟩, rest⟩
    · exact .fault fun _ _ => nofun
    refine .cons (sign_ne_of_arrive harrive) (.arrive fun _ => ?_)
    by_cases hend : last = .plain ']'
    · simp only [if_pos hend]
      exact .pure _
    simp only [if_neg hend]
    have hmember := (steady_readSetMember last rest).comap
      fun i : ((Nat × Nat) × Nat) × Nat => (i.1.1.1, i.2)
    refine .bind hmember fun high rest => ?_
    refine .compute (fun _ _ _ _ _ => rangeBetween_congr) fun range => ?_
    exact (ih (range :: items) rest).comap fun i : ((Nat × Nat) × Nat) × Nat => i.1.1

/-- More tries make no difference. -/
theorem readSetItems_of_le [Host] {opened tries tries' : Nat} {items : List SetItem}
    {result : List SetItem × List Token} (hle : tries ≤ tries')
    (h : readSetItems size opened tries items tokens = .ok result) :
    readSetItems size opened tries' items tokens = .ok result := by
  induction tries generalizing tries' items tokens with
  | zero => cases h
  | succ tries ih =>
    obtain ⟨tries', rfl⟩ : ∃ n, tries' = n + 1 := ⟨tries' - 1, by omega⟩
    have hle : tries ≤ tries' := by omega
    rcases tokens with _ | ⟨token, rest⟩
    · cases h
    rw [readSetItems] at h ⊢
    obtain ⟨_, harrive, h⟩ := exists_of_bind_ok h
    rw [harrive]
    dsimp only [bind, Except.bind] at h ⊢
    split at h
    · next hend => rwa [if_pos hend]
    next hend =>
    rw [if_neg hend]
    split at h
    · cases h
    split at h
    · cases h
    split at h
    · exact ih hle h
    · cases h
    split at h
    · cases h
    split at h
    · next hclosed => rwa [if_pos hclosed]
    next hclosed =>
    rw [if_neg hclosed]
    split at h
    · cases h
    split at h
    · cases h
    exact ih hle h

/-- A set behind its opening bracket. There are more tries at a site, as more tokens follow. -/
theorem steady_readSet [Host] (tokens : List Token) :
    Steady (fun (i : Nat × Nat) tokens => acceptSign '^' tokens >>= fun negated =>
      readSetItems i.1 i.2 (tokens.length + 1) [] (negated.getD tokens) >>= fun found =>
        .ok (Meaning.set found.1 negated.isSome, found.2)) tokens := by
  intro i value rest h
  obtain ⟨negated, hnegated, h⟩ := exists_of_bind_ok h
  obtain ⟨⟨items, end'⟩, hitems, h⟩ := exists_of_bind_ok h
  cases h
  obtain ⟨htaken, hitems⟩ :=
    steady_readSetItems (tokens.length + 1) [] (negated.getD tokens) i items end' hitems
  refine ⟨?_, fun site j => ?_⟩
  · rcases acceptSign_eq_ok hnegated with rfl | ⟨offset, tokens, rfl, rfl, -⟩
    · exact htaken
    · obtain ⟨taken, rfl, htaken⟩ := htaken
      exact ⟨⟨offset, .plain '^'⟩ :: taken, rfl, List.forall_mem_cons.mpr ⟨nofun, htaken⟩⟩
  · have hlength : tokens.length + 1 ≤ (site.place tokens).length + 1 := by
      rw [site.length_place]
      omega
    simp only [acceptSign_place (by decide) hnegated site]
    have hgetD : (negated.map site.place).getD (site.place tokens) =
        site.place (negated.getD tokens) := by
      cases negated <;> rfl
    dsimp only [bind, Except.bind]
    rw [hgetD, readSetItems_of_le hlength (hitems site j), Option.isSome_map]

/-! ## Quantifiers -/

theorem readGreed_of_ne (hlazy : sign ≠ .plain '?') (hpossessive : sign ≠ .plain '+') :
    readGreed (⟨offset, sign⟩ :: rest) = (.greedy, ⟨offset, sign⟩ :: rest) := by
  unfold readGreed
  split
  · simp_all
  · simp_all
  · rfl

theorem steady_quantifier (least : Nat) (most : Option Nat) (tokens : List Token) :
    Steady (fun (_ : ι) tokens => .ok (quantifier least most tokens)) tokens := by
  rcases tokens with _ | ⟨⟨offset, sign⟩, rest⟩
  · intro i value rest h
    cases h
    exact ⟨⟨[], rfl, nofun⟩, fun _ _ => rfl⟩
  by_cases hlazy : sign = .plain '?'
  · subst hlazy
    exact .cons nofun (.pure (Meaning.quantifier least most .lazy))
  by_cases hpossessive : sign = .plain '+'
  · subst hpossessive
    exact .cons nofun (.pure (Meaning.quantifier least most .possessive))
  intro i value rest h
  simp only [quantifier, readGreed_of_ne hlazy hpossessive] at h
  cases h
  refine ⟨⟨[], rfl, nofun⟩, fun site j => ?_⟩
  simp only [Site.place_cons, Token.moved, quantifier, readGreed_of_ne hlazy hpossessive]

theorem steady_readHigh (low : List Char) (tokens : List Token) :
    Steady (fun (_ : ι) tokens => readHigh low tokens) tokens := by
  refine .accept (by decide) (fun _ _ _ => rfl) (fun further _ => ?_) (.pure low)
  exact steady_readDigits further

/-- A brace that stands for itself leaves all tokens, and a quantifier takes those up to its end. -/
theorem closeBraces_eq_ok {low high : List Char} {afterLow afterHigh : List Token} {value : Meaning}
    (h : closeBraces offset low high tokens afterLow afterHigh = .ok (value, rest)) :
    (rest = tokens ∨ ∃ taken, afterHigh = taken ++ rest ∧ ∀ token ∈ taken, token.sign ≠ .dangling) ∧
    ∀ (site : Site) (j : Nat),
      closeBraces j low high (site.place tokens) (site.place afterLow) (site.place afterHigh) =
        .ok (value, site.place rest) := by
  simp only [closeBraces, Site.length_place, Nat.add_right_cancel_iff] at h ⊢
  by_cases hnone : (decide (afterLow.length = tokens.length) &&
      decide (afterHigh.length = tokens.length)) = true
  · simp only [if_pos hnone] at h ⊢
    cases h
    exact ⟨.inl rfl, fun _ _ => rfl⟩
  simp only [if_neg hnone] at h ⊢
  obtain ⟨found, hfound, h⟩ := exists_of_bind_ok h
  have hplace := acceptSign_place (by decide) hfound
  rcases acceptSign_eq_ok hfound with rfl | ⟨brace, closed, rfl, rfl, -⟩
  · cases h
    refine ⟨.inl rfl, fun site j => ?_⟩
    rw [hplace]
    rfl
  · obtain ⟨least, hleast, h⟩ := exists_of_bind_ok h
    obtain ⟨most, hmost, h⟩ := exists_of_bind_ok h
    split at h
    · cases h
    next hbounds =>
    obtain ⟨⟨taken, rfl, htaken⟩, hend⟩ := steady_quantifier _ _ closed offset value rest h
    refine ⟨.inr ⟨⟨brace, .plain '}'⟩ :: taken, rfl, ?_⟩, fun site j => ?_⟩
    · exact List.forall_mem_cons.mpr ⟨nofun, htaken⟩
    · rw [hplace]
      simp only [Option.map_some, hleast, hmost, bind, Except.bind]
      exact (if_neg hbounds).trans (hend site j)

theorem steady_readBraces (tokens : List Token) :
    Steady (fun offset tokens => readBraces offset tokens) tokens := by
  intro offset value rest h
  simp only [readBraces] at h ⊢
  obtain ⟨⟨low, afterLow⟩, hlow, h⟩ := exists_of_bind_ok h
  obtain ⟨⟨high, afterHigh⟩, hhigh, h⟩ := exists_of_bind_ok h
  obtain ⟨⟨first, rfl, hfirst⟩, hlow⟩ := steady_readDigits tokens offset _ _ hlow
  obtain ⟨⟨second, rfl, hsecond⟩, hhigh⟩ := steady_readHigh low afterLow offset _ _ hhigh
  obtain ⟨hrest, hclose⟩ := closeBraces_eq_ok h
  refine ⟨?_, fun site j => ?_⟩
  · rcases hrest with rfl | ⟨third, rfl, hthird⟩
    · exact ⟨[], rfl, nofun⟩
    · refine ⟨first ++ (second ++ third), by simp only [List.append_assoc], fun token hmem => ?_⟩
      rcases List.mem_append.mp hmem with hmem | hmem
      · exact hfirst token hmem
      · exact (List.mem_append.mp hmem).elim (hsecond token) (hthird token)
  · simp only [hlow site j]
    dsimp only [bind, Except.bind]
    simp only [hhigh site j]
    exact hclose site j

/-! ## Groups, comments and flags -/

theorem steady_readGroupName (terminator : Char) (tokens : List Token)
    (harrive : arrive tokens = .ok ()) :
    Steady (fun size tokens => readGroupName size terminator tokens) tokens := by
  refine .bind (steady_readName "group name" terminator [] tokens harrive) fun name _ => ?_
  exact .ite _ (.pure _) (.error _)

theorem steady_readTest (tokens : List Token) (harrive : arrive tokens = .ok ()) :
    Steady (fun size tokens => readTest size tokens) tokens := by
  refine .bind (steady_readName "group name" ')' [] tokens harrive) fun name _ => ?_
  refine .ite _ (.pure _) ?_
  cases hnumber : groupNumber name with
  | none => exact .error _
  | some index => exact .ite _ (.error _) (.pure _)

theorem steady_skipComment (tokens : List Token) (harrive : arrive tokens = .ok ()) :
    Steady (fun opened tokens => skipComment opened tokens >>= fun rest =>
      .ok (Meaning.comment, rest)) tokens := by
  induction tokens with
  | nil => exact .fault fun _ _ => nofun
  | cons token rest ih =>
    refine .cons (sign_ne_of_arrive harrive) ?_
    simp only [skipComment, bind_assoc]
    refine .arrive fun hrest => ?_
    by_cases hend : token.sign = .plain ')'
    · simp only [if_pos hend]
      exact .pure _
    · simp only [if_neg hend]
      exact (ih hrest).comap Prod.fst

theorem checkFlagOn_congr {on : List Char} {found : Unit}
    (h : checkFlagOn on c offset = .ok found) : checkFlagOn on c offset' = .ok found := by
  unfold checkFlagOn at h ⊢
  split at h
  · cases h
  · next hlocale =>
    rw [if_neg hlocale]
    split at h
    · cases h
    · next htype => rwa [if_neg htype]

theorem checkFlagOff_congr {found : Unit} (h : checkFlagOff c offset = .ok found) :
    checkFlagOff c offset' = .ok found := by
  unfold checkFlagOff at h ⊢
  split at h
  · cases h
  · next htype => rwa [if_neg htype]

theorem steady_readFlagsOn (on : List Char) (c : Char) (tokens : List Token)
    (harrive : arrive tokens = .ok ()) :
    Steady (fun size tokens => readFlagsOn size on c tokens >>= fun found =>
      .ok ((found.1, found.2.1), found.2.2)) tokens := by
  induction tokens generalizing on c with
  | nil =>
    refine .fault fun size result => ?_
    rw [readFlagsOn]
    cases checkFlagOn on c size <;> nofun
  | cons token rest ih =>
    refine .cons (sign_ne_of_arrive harrive) ?_
    simp only [readFlagsOn, bind_assoc]
    refine .compute (fun _ _ _ _ _ => checkFlagOn_congr) fun _ => ?_
    refine .arrive fun hrest => ?_
    rcases token with ⟨offset, d | d | _⟩
    · by_cases hend : (d = ')' || d = '-' || d = ':') = true
      · simp only [if_pos hend]
        exact .pure (on ++ [c], d)
      · simp only [if_neg hend]
        by_cases hletter : isFlagLetter d = true
        · simp only [if_pos hletter]
          exact (ih (on ++ [c]) d hrest).comap Prod.fst
        · simp only [if_neg hletter]
          exact .error _
    · exact .error _
    · exact .error _

theorem steady_readFlagsOff (off : List Char) (c : Char) (tokens : List Token)
    (harrive : arrive tokens = .ok ()) :
    Steady (fun size tokens => readFlagsOff size off c tokens) tokens := by
  induction tokens generalizing off c with
  | nil =>
    refine .fault fun size result => ?_
    rw [readFlagsOff]
    cases checkFlagOff c size <;> nofun
  | cons token rest ih =>
    refine .cons (sign_ne_of_arrive harrive) ?_
    simp only [readFlagsOff]
    refine .compute (fun _ _ _ _ _ => checkFlagOff_congr) fun _ => ?_
    refine .arrive fun hrest => ?_
    rcases token with ⟨offset, d | d | _⟩
    · refine .ite _ (.pure _) ?_
      exact .ite _ ((ih (off ++ [c]) d hrest).comap Prod.fst) (.error _)
    · exact .error _
    · exact .error _

theorem steady_readFlagsOffFirst (tokens : List Token) :
    Steady (fun size tokens => readFlagsOffFirst size tokens) tokens := by
  rcases tokens with _ | ⟨⟨offset, c | c | _⟩, rest⟩
  · exact .fault fun _ _ => nofun
  · refine .cons nofun (.arrive fun hrest => ?_)
    exact .ite _ ((steady_readFlagsOff [] c rest hrest).comap Prod.fst) (.error _)
  · exact .cons nofun (.arrive fun _ => .error _)
  · refine .fault fun size result => ?_
    rw [readFlagsOffFirst]
    cases arrive rest <;> nofun

theorem steady_endFlags (on : List Char) (sign : Char) (tokens : List Token) :
    Steady (fun size tokens => endFlags size on sign tokens) tokens := by
  refine .ite _ (.pure _) (.ite _ (.error _) ?_)
  refine .ite _ (.bind (steady_readFlagsOffFirst tokens) fun off rest => ?_)
    (.bind (.pure []) fun off rest => ?_)
  · exact .ite _ (.error _) (.ite _ (.error _) (.pure _))
  · exact .ite _ (.error _) (.ite _ (.error _) (.pure _))

theorem steady_readFlags (c : Char) (tokens : List Token) (harrive : arrive tokens = .ok ()) :
    Steady (fun size tokens => readFlags size c tokens) tokens := by
  refine .ite _ (steady_endFlags [] '-' tokens) ?_
  have hread : Steady (fun size tokens =>
      (readFlagsOn size [] c tokens >>= fun found => .ok ((found.1, found.2.1), found.2.2)) >>=
        fun found => endFlags size found.1.1 found.1.2 found.2) tokens :=
    .bind (steady_readFlagsOn [] c tokens harrive) fun found => steady_endFlags found.1 found.2
  simp only [bind_assoc] at hread
  exact hread

/-! ## Openings and lexemes -/

protected theorem Steady.demand {α : Type} {size : ι → Nat}
    {next : ι → Token × List Token → Reading (α × List Token)} (harrive : arrive tokens = .ok ())
    (hnext : ∀ sign rest, arrive rest = .ok () →
      Steady (fun (i : ι × Nat) rest => next i.1 (⟨i.2, sign⟩, rest)) rest) :
    Steady (fun i tokens => demand (size i) tokens >>= next i) tokens := by
  rcases tokens with _ | ⟨⟨offset, sign⟩, rest⟩
  · exact .fault fun _ _ => nofun
  refine .cons (sign_ne_of_arrive harrive) ?_
  simp only [demand, bind_assoc, pure_bind]
  exact .arrive (hnext sign rest)

theorem steady_readOpening (tokens : List Token) :
    Steady (fun (i : Nat × Nat) tokens => readOpening i.1 i.2 tokens) tokens := by
  refine .accept (by decide) (fun _ _ _ => rfl) (fun rest harrive => ?_) (.pure _)
  refine .demand harrive fun sign rest hrest => ?_
  dsimp only
  split
  · exact .pure _
  · exact .pure _
  · exact .pure _
  · exact .pure _
  · exact (steady_skipComment rest hrest).comap fun i : (Nat × Nat) × Nat => i.1.2
  · have htest := (steady_readTest rest hrest).comap fun i : (Nat × Nat) × Nat => i.1.1
    exact .bind htest fun test _ => .pure (Meaning.opening (.conditional test))
  · refine .demand hrest fun sign rest _ => ?_
    dsimp only
    split
    · exact .pure _
    · exact .pure _
    · exact .error _
  · refine .accept (by decide) (fun _ _ _ => rfl) (fun rest harrive => ?_) ?_
    · have hname := (steady_readGroupName '>' rest harrive).comap fun i : (Nat × Nat) × Nat => i.1.1
      exact .bind hname fun name _ => .pure (Meaning.opening (.capture (some name)))
    refine .accept (by decide) (fun _ _ _ => rfl) (fun rest harrive => ?_) ?_
    · have hname := (steady_readGroupName ')' rest harrive).comap fun i : (Nat × Nat) × Nat => i.1.1
      exact .bind hname fun name _ => .pure (Meaning.namedReference name)
    · exact .demand hrest fun sign rest _ => .error _
  · next c _ _ _ _ _ _ _ _ =>
    refine .ite _ ?_ (.error _)
    exact (steady_readFlags c rest hrest).comap fun i : (Nat × Nat) × Nat => i.1.1
  · exact .error _

theorem steady_readSign [Host] (c : Char) (tokens : List Token) :
    Steady (fun (i : Nat × Nat) tokens => readSign i.1 i.2 c tokens) tokens := by
  unfold readSign
  split
  · exact steady_readSet tokens
  · exact steady_quantifier 0 (some 1) tokens
  · exact steady_quantifier 0 none tokens
  · exact steady_quantifier 1 none tokens
  · exact (steady_readBraces tokens).comap Prod.snd
  · exact steady_readOpening tokens
  · exact .pure _
  · exact .pure _
  · exact .pure _
  · exact .pure _

/-- A comment up to the end of its line goes on at a site only if nothing ends it before. -/
theorem skipLine_eq_ok (harrive : arrive tokens = .ok ()) (h : skipLine tokens = .ok rest) :
    (∃ taken, tokens = taken ++ rest ∧ ∀ token ∈ taken, token.sign ≠ .dangling) ∧
      ((∀ site : Site, skipLine (site.place tokens) = .ok (site.place rest)) ∨ rest = []) := by
  induction tokens with
  | nil =>
    cases h
    exact ⟨⟨[], rfl, nofun⟩, .inr rfl⟩
  | cons token tokens ih =>
    rw [skipLine] at h
    obtain ⟨_, hnext, h⟩ := exists_of_bind_ok h
    have hsign := sign_ne_of_arrive harrive
    have hplace (site : Site) : skipLine (site.place (token :: tokens)) =
        if token.sign = .plain '\n' then .ok (site.place tokens)
        else skipLine (site.place tokens) := by
      rw [Site.place_cons, skipLine, site.arrive_place hnext]
      rfl
    split at h
    · next hend =>
      cases h
      refine ⟨⟨[token], rfl, List.forall_mem_singleton.mpr hsign⟩, .inl fun site => ?_⟩
      rw [hplace, if_pos hend]
    · next hend =>
      obtain ⟨⟨taken, rfl, htaken⟩, hsites⟩ := ih hnext h
      refine ⟨⟨token :: taken, rfl, List.forall_mem_cons.mpr ⟨hsign, htaken⟩⟩, ?_⟩
      refine hsites.imp_left fun hsites site => ?_
      rw [hplace, if_neg hend, hsites]

/-- Every lexeme but a comment in a verbose part ends before the parenthesis behind the source. -/
theorem steady_readLexeme [Host] {verbose : Bool} (hsign : verbose = true → sign ≠ .plain '#')
    (tokens : List Token) :
    Steady (fun (i : Nat × Nat) tokens => readLexeme verbose i.1 ⟨i.2, sign⟩ tokens) tokens := by
  simp only [readLexeme]
  split
  · exact .error _
  · exact .pure _
  · exact .pure _
  · exact .arrive fun _ => steady_readEscape _ tokens
  · next c _ _ =>
    refine .arrive fun _ => .ite _ (.pure _) ?_
    have hcomment : ¬(verbose && decide (c = '#')) = true := by
      intro h
      obtain ⟨hverbose, hc⟩ := Bool.and_eq_true_iff.mp h
      exact hsign hverbose (by rw [of_decide_eq_true hc])
    simp only [if_neg hcomment]
    exact steady_readSign c tokens

/-- What a lexeme takes, and that it takes the same at every site unless it is a comment that
nothing ends. -/
theorem readLexeme_place [Host] {verbose : Bool} {token : Token} {meaning : Meaning}
    (h : readLexeme verbose size token rest = .ok (meaning, rest')) :
    (∃ taken, rest = taken ++ rest' ∧ ∀ other ∈ token :: taken, other.sign ≠ .dangling) ∧
      ((∀ (site : Site) (size' : Nat),
        readLexeme verbose size' (token.moved site.distance) (site.place rest) =
          .ok (meaning, site.place rest')) ∨
        verbose = true ∧ meaning = .comment ∧ rest' = []) := by
  obtain ⟨offset, sign⟩ := token
  have hdangling : sign ≠ .dangling := by
    rintro rfl
    cases h
  by_cases hcomment : verbose = true ∧ sign = .plain '#'
  · obtain ⟨rfl, rfl⟩ := hcomment
    obtain ⟨_, harrive, h⟩ := exists_of_bind_ok h
    obtain ⟨left, hskip, h⟩ := exists_of_bind_ok h
    cases h
    obtain ⟨⟨taken, rfl, htaken⟩, hsites⟩ := skipLine_eq_ok harrive hskip
    refine ⟨⟨taken, rfl, List.forall_mem_cons.mpr ⟨hdangling, htaken⟩⟩, ?_⟩
    refine hsites.imp (fun hsites site size' => ?_) fun hnil => ⟨rfl, rfl, hnil⟩
    calc readLexeme true size' ⟨site.distance + offset, .plain '#'⟩ (site.place _)
      _ = arrive (site.place _) >>= fun _ => skipLine (site.place _) >>= fun rest =>
            .ok (.comment, rest) := rfl
      _ = .ok (.comment, site.place _) := by
          rw [site.arrive_place harrive, hsites site]
          rfl
  · have hsign : verbose = true → sign ≠ .plain '#' := fun hverbose hsign =>
      hcomment ⟨hverbose, hsign⟩
    obtain ⟨⟨taken, rfl, htaken⟩, hplaced⟩ :=
      steady_readLexeme hsign rest (size, offset) meaning rest' h
    refine ⟨⟨taken, rfl, List.forall_mem_cons.mpr ⟨hdangling, htaken⟩⟩, .inl fun site size' => ?_⟩
    exact hplaced site (size', site.distance + offset)

theorem tokensFrom_add (distance offset : Nat) (source : List Char) :
    tokensFrom (distance + offset) source =
      (tokensFrom offset source).map (Token.moved distance) := by
  induction offset, source using tokensFrom.induct with
  | case1 offset | case2 offset => rfl
  | case3 offset c rest ih =>
    rw [tokensFrom, tokensFrom, List.map_cons, ← ih]
    rfl
  | case4 offset c rest hnil hcons ih =>
    rw [tokensFrom, tokensFrom, List.map_cons, ← ih]
    · rfl
    · exact hnil
    · exact hcons
    · exact hnil
    · exact hcons

/-- The tokens of two sources one after the other. -/
theorem tokensFrom_append {first : List Char}
    (h : ∀ token ∈ tokensFrom offset first, token.sign ≠ .dangling) (second : List Char) :
    tokensFrom offset (first ++ second) =
      tokensFrom offset first ++ tokensFrom (offset + first.length) second := by
  induction offset, first using tokensFrom.induct with
  | case1 offset => rfl
  | case2 offset => exact absurd rfl (h ⟨offset, .dangling⟩ (List.mem_singleton.mpr rfl))
  | case3 offset c rest ih =>
    rw [tokensFrom] at h ⊢
    rw [List.cons_append, List.cons_append, tokensFrom, ih (List.forall_mem_cons.mp h).2,
      List.length_cons, List.length_cons, List.cons_append]
    congr 3
    omega
  | case4 offset c rest hnil hcons ih =>
    have hplain (more : List Char) :
        tokensFrom offset (c :: (rest ++ more)) =
          ⟨offset, .plain c⟩ :: tokensFrom (offset + 1) (rest ++ more) := by
      have hc : c ≠ '\\' := by
        rintro rfl
        cases rest with
        | nil => exact hnil rfl rfl
        | cons d rest => exact hcons d rest rfl rfl
      rw [tokensFrom]
      · exact fun hc' => absurd hc' hc
      · exact fun _ _ hc' => absurd hc' hc
    have hfirst := hplain []
    rw [List.append_nil] at hfirst
    rw [hfirst] at h ⊢
    rw [List.cons_append, hplain second, ih (List.forall_mem_cons.mp h).2, List.length_cons,
      List.cons_append]
    congr 3
    omega

/-- The tokens of a source that stands before a closing parenthesis. -/
theorem tokensFrom_place {source : List Char}
    (h : ∀ token ∈ tokensFrom 0 source, token.sign ≠ .dangling) (offset : Nat) (tail : List Char) :
    tokensFrom offset (source ++ ')' :: tail) =
      Site.place ⟨offset, offset + source.length, tokensFrom (offset + source.length + 1) tail⟩
        (tokensFrom 0 source) := by
  have hmoved := tokensFrom_add offset 0 source
  rw [Nat.add_zero] at hmoved
  rw [tokensFrom_append, hmoved]
  · rfl
  · rw [hmoved, List.forall_mem_map]
    exact h

end StructuredText.Pattern
