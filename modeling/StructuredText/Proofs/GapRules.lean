import StructuredText.Proofs.Strips

/-!
# Rules on gaps

What the rules on spaces and tabs make of a row of items and gaps. Two kinds of rules are followed
over a row: one that reads a token together with the gaps around it, and one that reads a gap alone
or with the item behind it.

Results:
1. `Rewrites.unique`: a replacement has one result.
2. `TokenRule.rewrites`: what a rule on tokens makes of a row.
3. `Strip.rewrites_of_acts`: what a rule on gaps makes of a row.
-/

namespace StructuredText

open List Literal Spacing

variable {cells out : List Cell} {strip : Strip}

/-! ## Results of replacements -/

section Rewrites

variable {α : Type} {find : Recognizer α} {write : α → List Char}

variable {before : List Char}

/-- The ways in which a walk goes on. -/
theorem Rewrites.inv (h : Rewrites find write before cells out) :
    (cells = [] ∧ out = []) ∨
    (∃ cell rest out', cells = cell :: rest ∧ out = cell :: out' ∧
      find false ⟨before.length, before, chars cells⟩ = none ∧
      Rewrites find write (cell.char :: before) rest out') ∨
    (∃ block rest out' value, cells = block ++ rest ∧ block ≠ [] ∧
      find false ⟨before.length, before, chars cells⟩ = some (block.length, value) ∧
      Rewrites find write ((chars block).reverse ++ before) rest out' ∧
      out = (if block.all Cell.isCode then codeCells (write value) else block) ++ out') := by
  cases h with
  | nil => exact .inl ⟨rfl, rfl⟩
  | @miss _ cell rest out hfind hrest => exact .inr (.inl ⟨cell, rest, out, rfl, rfl, hfind, hrest⟩)
  | @blocked _ block rest out value hfind hblock hrest =>
    obtain ⟨cell, hcell, hrole⟩ := hblock
    refine .inr (.inr ⟨block, rest, out, value, rfl, ne_nil_of_mem hcell, ?_, hrest, ?_⟩)
    · rw [chars_append, hfind]
    · rw [if_neg]
      exact fun hall => hrole (Cell.isCode_iff.mp (all_eq_true.mp hall cell hcell))
  | @hit _ block rest out value hfind hne hcode hrest =>
    refine .inr (.inr ⟨block, rest, out, value, rfl, hne, ?_, hrest, ?_⟩)
    · rw [chars_append, hfind]
    · rw [if_pos (all_eq_true.mpr fun cell hcell => Cell.isCode_iff.mpr (hcode cell hcell))]

/-- What is found in code is replaced, and anything else that is found is kept. -/
theorem Rewrites.found {before : List Char} {block rest out : List Cell} {value : α}
    (hne : block ≠ [])
    (hfind : find false ⟨before.length, before, chars block ++ chars rest⟩ =
      some (block.length, value))
    (h : Rewrites find write ((chars block).reverse ++ before) rest out) :
    Rewrites find write before (block ++ rest)
      ((if block.all Cell.isCode then codeCells (write value) else block) ++ out) := by
  split
  next hall =>
    exact .hit hfind hne (fun cell hcell =>
      Cell.isCode_iff.mp (all_eq_true.mp hall cell hcell)) h
  next hall =>
    obtain ⟨cell, hcell, hcode⟩ : ∃ cell ∈ block, ¬ cell.isCode = true := by
      simpa using hall
    exact .blocked hfind ⟨cell, hcell, fun hrole => hcode (Cell.isCode_iff.mpr hrole)⟩ h

/-- A replacement has one result. -/
theorem Rewrites.unique {out' : List Cell} (h : Rewrites find write before cells out)
    (h' : Rewrites find write before cells out') :
    out = out' := by
  induction hn : cells.length using Nat.strongRecOn generalizing before cells out out' with
  | ind n ih =>
    obtain ⟨rfl, rfl⟩ | ⟨cell, rest, tail, rfl, rfl, hfind, hrest⟩ |
      ⟨block, rest, tail, value, rfl, hne, hfind, hrest, rfl⟩ := h.inv
    · obtain ⟨-, rfl⟩ | ⟨_, _, _, hcons, -⟩ | ⟨block, _, _, _, hsplit, hne, -⟩ := h'.inv
      · rfl
      · cases hcons
      · exact absurd (append_eq_nil_iff.mp hsplit.symm).1 hne
    · obtain ⟨hnil, -⟩ | ⟨_, _, tail', hcons, rfl, -, hrest'⟩ | ⟨_, _, _, _, -, -, hfind', -⟩ :=
        h'.inv
      · cases hnil
      · obtain ⟨rfl, rfl⟩ := cons_eq_cons.mp hcons
        rw [ih rest.length (by rw [← hn]; simp) hrest hrest' rfl]
      · rw [hfind] at hfind'
        cases hfind'
    · obtain ⟨hnil, -⟩ | ⟨_, _, _, _, -, hfind', -⟩ |
        ⟨block', rest', tail', value', hsplit, -, hfind', hrest', rfl⟩ := h'.inv
      · exact absurd (append_eq_nil_iff.mp hnil).1 hne
      · rw [hfind] at hfind'
        cases hfind'
      · rw [hfind, Option.some.injEq, Prod.mk.injEq] at hfind'
        obtain ⟨hlength, rfl⟩ := hfind'
        obtain ⟨rfl, rfl⟩ := append_inj hsplit hlength
        have hlt : rest.length < n := by
          have := length_pos_iff.mpr hne
          rw [← hn, length_append]
          omega
        rw [ih rest.length hlt hrest hrest' rfl]

/-- A stretch where nothing is found is kept. -/
theorem Rewrites.misses {first rest : List Cell} : ∀ {before : List Char},
    (∀ left cell right before, first = left ++ cell :: right →
      find false ⟨before.length, before, cell.char :: (chars right ++ chars rest)⟩ = none) →
    Rewrites find write ((chars first).reverse ++ before) rest out →
    Rewrites find write before (first ++ rest) (first ++ out) := by
  induction first with
  | nil => exact fun _ h => h
  | cons cell first ih =>
    intro before hnone h
    refine .miss ?_ (ih (fun left other right before heq =>
      hnone (cell :: left) other right before (by rw [heq]; rfl)) (by simpa using h))
    have hfirst := hnone [] cell first before rfl
    rwa [← chars_append] at hfirst

end Rewrites

/-- The result of a rule, if a walk gives it. -/
theorem Rule.applyTyped_eq {rule : Rule} {hit : List Char → List Char → List Char → Prop}
    (spec : rule.Spec hit) (hmarked : Marked recognizeTyped [] cells)
    (h : Rewrites (.ofReader rule) id [] cells out) :
    rule.applyTyped (chars cells) = chars out := by
  obtain ⟨out', hwalk, hout⟩ := replaceOutside_rewrites spec.isProper hmarked id
  rw [Rule.applyTyped, hmarked.scanTyped_eq, hout, h.unique hwalk]

/-! ## Rules on tokens -/

/-- A rule that reads a token and the spaces and tabs around it. It keeps what it reads, or writes
the token between `lead` and `trail`. -/
structure TokenRule where
  token : List Char → Option (List Char)
  keeps : (token behind : List Char) → Bool
  lead : List Char
  trail : List Char

/-- What is written for a token, `block` being the token with the gaps around it. -/
def TokenRule.written (tokens : TokenRule) (block token behind : List Char) : List Char :=
  if tokens.keeps token behind then block else tokens.lead ++ token ++ tokens.trail

def TokenRule.rule (tokens : TokenRule) : Rule := fun cursor => do
  let first := cursor.pads
  let sign ← tokens.token first.after
  let last ← first.token sign
  return (last.pads, tokens.written (cursor.upTo last.pads) sign last.after)

/-- What a rule on tokens makes of a gap. Behind a token the gap has been read with it. -/
def TokenRule.change (tokens : TokenRule) (isToken hits : Item → Bool) : GapChange :=
  fun prev gap next =>
    (if prev.any isToken then if prev.any hits then codeCells tokens.trail else gap
      else if next.any hits then [] else gap) ++
    if next.any hits then codeCells tokens.lead else []

/-- The tokens of a rule are items, and `hits` are those around which it writes. -/
structure TokenRule.Follows (tokens : TokenRule) (isToken hits : Item → Bool) : Prop where
  nothing : tokens.token [] = none
  token : ∀ item following, item.Fits following → isToken item = true →
    tokens.token (chars item.cells ++ following) = some (chars item.cells)
  skips : ∀ item following, item.Fits following → isToken item = false →
    ∀ left cell right, item.cells = left ++ cell :: right →
      tokens.token (cell.char :: (chars right ++ following)) = none
  hits : ∀ item following, item.Fits following →
    (hits item = true ↔ isToken item = true ∧ item.isCode = true ∧
      tokens.keeps (chars item.cells) following = false)

theorem takeWhile_isPad {gap rest : List Char} (hgap : ∀ c ∈ gap, isPad c = true)
    (hrest : ∀ c ∈ rest.head?, isPad c = false) : (gap ++ rest).takeWhile isPad = gap := by
  rw [takeWhile_append_of_head hrest, takeWhile_eq_self_iff]
  exact hgap

theorem dropWhile_isPad {gap rest : List Char} (hgap : ∀ c ∈ gap, isPad c = true)
    (hrest : ∀ c ∈ rest.head?, isPad c = false) : (gap ++ rest).dropWhile isPad = rest := by
  have hsplit := takeWhile_append_dropWhile (p := isPad) (l := gap ++ rest)
  rw [takeWhile_isPad hgap hrest] at hsplit
  exact append_cancel_left hsplit

namespace TokenRule

variable {tokens : TokenRule} {gap sign trail rest before : List Char}

/-- A token is read with the gaps around it. -/
theorem ofReader_token (hgap : ∀ c ∈ gap, isPad c = true) (hne : sign ≠ [])
    (hsign : ∀ c ∈ sign.head?, isPad c = false) (htrail : ∀ c ∈ trail, isPad c = true)
    (hrest : ∀ c ∈ rest.head?, isPad c = false)
    (htoken : tokens.token (sign ++ (trail ++ rest)) = some sign) (pos : Nat) :
    Recognizer.ofReader tokens.rule false ⟨pos, before, gap ++ (sign ++ (trail ++ rest))⟩ =
      some ((gap ++ (sign ++ trail)).length,
        tokens.written (gap ++ (sign ++ trail)) sign (trail ++ rest)) := by
  have hhead : ∀ c ∈ (sign ++ (trail ++ rest)).head?, isPad c = false := by
    cases sign with
    | nil => exact absurd rfl hne
    | cons c sign => exact hsign
  generalize hcursor : (⟨pos, before, gap ++ (sign ++ (trail ++ rest))⟩ : Cursor) = cursor
  have hfirst := Cursor.reads_run isPad cursor
  rw [← hcursor, takeWhile_isPad hgap hhead, hcursor] at hfirst
  have hafter : cursor.pads.after = sign ++ (trail ++ rest) := by
    have hsplit := hfirst.after
    rw [show cursor.after = gap ++ (sign ++ (trail ++ rest)) by rw [← hcursor]] at hsplit
    exact (append_cancel_left hsplit).symm
  obtain ⟨last, hlast⟩ := Option.isSome_iff_exists.mp
    ((Cursor.isSome_token sign cursor.pads).trans
      (by rw [hafter]; exact isPrefixOf_iff_prefix.mpr (prefix_append _ _)))
  have hmiddle := Cursor.reads_token hlast
  have hbehind : last.after = trail ++ rest := by
    have hsplit := hmiddle.after
    rw [hafter] at hsplit
    exact (append_cancel_left hsplit).symm
  have hpads := Cursor.reads_run isPad last
  rw [hbehind, takeWhile_isPad htrail hrest] at hpads
  have hall := hfirst.trans (hmiddle.trans hpads)
  rw [Recognizer.ofReader, rule]
  simp only [hafter, htoken, Option.bind_eq_bind, Option.bind_some, hlast, hbehind]
  have hlength : last.pads.pos - cursor.pos = (gap ++ (sign ++ trail)).length := by
    rw [Cursor.pads, hall.pos, Nat.add_sub_cancel_left]
  have hupTo : cursor.upTo last.pads = gap ++ (sign ++ trail) := hall.upTo_eq
  simp only [Option.map_some, Option.pure_def, hlength, hupTo]

/-- Nothing is read where no token follows. -/
theorem ofReader_none {text : List Char} (h : tokens.token (text.dropWhile isPad) = none)
    (pos : Nat) : Recognizer.ofReader tokens.rule false ⟨pos, before, text⟩ = none := by
  have hafter : (Cursor.pads ⟨pos, before, text⟩).after = text.dropWhile isPad :=
    Cursor.after_run isPad _
  rw [Recognizer.ofReader, rule]
  simp only [hafter, h, Option.bind_eq_bind, Option.bind_none, Option.map_none]

end TokenRule

theorem Strip.withGap_gap (strip : Strip) : strip.withGap strip.gap = strip := by
  cases strip <;> rfl

theorem Strip.cells_eq (strip : Strip) : strip.cells = strip.gap ++ (strip.withGap []).cells := by
  cases strip with
  | last gap => exact (append_nil gap).symm
  | next gap item rest => rfl

theorem all_isCode (h : ∀ cell ∈ cells, cell.role = .code) : cells.all Cell.isCode = true :=
  all_eq_true.mpr fun cell hcell => Cell.isCode_iff.mpr (h cell hcell)

theorem Strip.Clear.gap {strip : Strip} {item : Item} (h : strip.Clear (some item))
    (hcode : item.isCode = true) : ∀ cell ∈ strip.gap, cell.role = .code := by
  cases strip with
  | last gap => exact h hcode
  | next gap next rest => exact h.1 (.inl hcode)

theorem Strip.Clear.bare {prev : Option Item} (h : strip.Clear prev) :
    (strip.withGap []).Clear none := by
  cases strip with
  | last gap => nofun
  | next gap item rest => exact ⟨by simp, h.2⟩

theorem Item.Fits.head?_isPad {item : Item} {following : List Char} (h : item.Fits following)
    (rest : List Cell) : ∀ c ∈ (chars (item.cells ++ rest)).head?, isPad c = false := by
  intro c hc
  rw [chars_head?_append h.ne_nil] at hc
  obtain ⟨cell, hcell, rfl⟩ := mem_map.mp (mem_of_head? hc)
  exact h.isPad_eq_false cell hcell

/-- Behind the first gap a row does not start with a space or tab. -/
theorem Strip.Reads.head?_bare (h : strip.Reads) :
    ∀ c ∈ (chars (strip.withGap []).cells).head?, isPad c = false := by
  cases strip with
  | last gap => rintro c ⟨⟩
  | next gap item rest =>
    rw [Strip.withGap, Strip.cells, nil_append]
    exact h.2.1.head?_isPad _

theorem isPad_of_mem_chars {gap : List Cell} (h : ∀ cell ∈ gap, isPad cell.char = true) :
    ∀ c ∈ chars gap, isPad c = true := by
  intro c hc
  obtain ⟨cell, hcell, rfl⟩ := mem_map.mp hc
  exact h cell hcell

namespace TokenRule

variable {item : Item}

variable {tokens : TokenRule} {isToken hits : Item → Bool}

/-- What stands behind a token: the gap that was read with it, and then the rest. -/
theorem regap_behind_token (htoken : isToken item = true) (rest : Strip) :
    (rest.regap (tokens.change isToken hits) (some item)).cells =
      (if hits item then codeCells tokens.trail else rest.gap) ++
        ((rest.withGap []).regap (tokens.change isToken hits) none).cells := by
  cases rest with
  | last gap => simp [Strip.regap, Strip.cells, Strip.withGap, Strip.gap, change, htoken]
  | next gap next rest => simp [Strip.regap, Strip.cells, Strip.withGap, Strip.gap, change, htoken]

variable {gap rest : List Cell}

/-- What becomes of a token and the gaps around it. -/
theorem regap_token (hfollows : tokens.Follows isToken hits) {prev : Option Item} {rest : Strip}
    (hprev : prev.any isToken = false) (htoken : isToken item = true)
    (hfits : item.Fits (chars rest.cells))
    (hgap : prev.any Item.isCode = true ∨ item.isCode = true → ∀ cell ∈ gap, cell.role = .code)
    (hclear : rest.Clear (some item)) :
    ((Strip.next gap item rest).regap (tokens.change isToken hits) prev).cells =
      (if (gap ++ (item.cells ++ rest.gap)).all Cell.isCode then
        codeCells (tokens.written (chars (gap ++ (item.cells ++ rest.gap))) (chars item.cells)
          (chars rest.cells))
        else gap ++ (item.cells ++ rest.gap)) ++
      ((rest.withGap []).regap (tokens.change isToken hits) none).cells := by
  rw [Strip.regap, Strip.cells, regap_behind_token htoken, change, hprev]
  cases hhit : hits item with
  | true =>
    obtain ⟨-, hcode, hkeeps⟩ := (hfollows.hits item _ hfits).mp hhit
    have hall : (gap ++ (item.cells ++ rest.gap)).all Cell.isCode = true := by
      rw [all_append, all_append, all_isCode (hgap (.inr hcode)), ← Item.isCode, hcode,
        all_isCode (hclear.gap hcode)]
      rfl
    rw [if_pos hall, written, hkeeps]
    simp [hhit, codeCells_chars (Item.isCode_iff.mp hcode)]
  | false =>
    have hkept : (if (gap ++ (item.cells ++ rest.gap)).all Cell.isCode then
        codeCells (tokens.written (chars (gap ++ (item.cells ++ rest.gap))) (chars item.cells)
          (chars rest.cells))
        else gap ++ (item.cells ++ rest.gap)) = gap ++ (item.cells ++ rest.gap) := by
      split
      next hall =>
        have hcode : item.isCode = true := by
          rw [all_append, all_append, Bool.and_eq_true, Bool.and_eq_true] at hall
          exact hall.2.1
        have hkeeps : tokens.keeps (chars item.cells) (chars rest.cells) = true := by
          by_contra hnot
          rw [(hfollows.hits item _ hfits).mpr ⟨htoken, hcode, Bool.not_eq_true _ ▸ hnot⟩] at hhit
          cases hhit
        rw [written, if_pos hkeeps, codeCells_chars]
        exact fun cell hcell => Cell.isCode_iff.mp (all_eq_true.mp hall cell hcell)
      next => rfl
    rw [hkept]
    simp [hhit]

/-- A gap that no token follows is passed by. -/
theorem ofReader_gap_none (hgap : ∀ cell ∈ gap, isPad cell.char = true)
    (hrest : ∀ c ∈ (chars rest).head?, isPad c = false) (h : tokens.token (chars rest) = none) :
    ∀ left cell right (before : List Char), gap = left ++ cell :: right →
      Recognizer.ofReader tokens.rule false
        ⟨before.length, before, cell.char :: (chars right ++ chars rest)⟩ = none := by
  rintro left cell right before rfl
  refine ofReader_none ?_ _
  have hpads : ∀ c ∈ chars (cell :: right), isPad c = true :=
    isPad_of_mem_chars fun other hother => hgap other (mem_append_right _ hother)
  rw [← cons_append, ← chars_cons, dropWhile_isPad hpads hrest, h]

/-- Nothing is found in the gap before an item that is no token. -/
theorem ofReader_lead_none (hfollows : tokens.Follows isToken hits)
    (hgap : ∀ cell ∈ gap, isPad cell.char = true) (hfits : item.Fits (chars rest))
    (htoken : isToken item = false) :
    ∀ left cell right (before : List Char), gap = left ++ cell :: right →
      Recognizer.ofReader tokens.rule false
        ⟨before.length, before, cell.char :: (chars right ++ chars (item.cells ++ rest))⟩ =
        none := by
  refine ofReader_gap_none hgap (hfits.head?_isPad _) ?_
  obtain ⟨cell, right, hcons⟩ := exists_cons_of_ne_nil hfits.ne_nil
  rw [hcons, cons_append, chars_cons, chars_append]
  exact hfollows.skips item _ hfits htoken [] cell right hcons

/-- Nothing is found in an item that is no token. -/
theorem ofReader_plain_none (hfollows : tokens.Follows isToken hits)
    (hfits : item.Fits (chars rest)) (htoken : isToken item = false) :
    ∀ left cell right (before : List Char), item.cells = left ++ cell :: right →
      Recognizer.ofReader tokens.rule false
        ⟨before.length, before, cell.char :: (chars right ++ chars rest)⟩ = none := by
  intro left cell right before hsplit
  refine ofReader_none ?_ _
  have hpad := hfits.isPad_eq_false cell (by rw [hsplit]; simp)
  rw [dropWhile_cons_of_neg (by simp [hpad])]
  exact hfollows.skips item _ hfits htoken left cell right hsplit

/-- A token is found with the gaps around it. -/
theorem ofReader_item (hfollows : tokens.Follows isToken hits) {rest : Strip} (before : List Char)
    (hgap : ∀ cell ∈ gap, isPad cell.char = true) (hfits : item.Fits (chars rest.cells))
    (hrest : rest.Reads) (htoken : isToken item = true) :
    Recognizer.ofReader tokens.rule false ⟨before.length, before,
        chars (gap ++ (item.cells ++ rest.gap)) ++ chars (rest.withGap []).cells⟩ =
      some ((gap ++ (item.cells ++ rest.gap)).length,
        tokens.written (chars (gap ++ (item.cells ++ rest.gap))) (chars item.cells)
        (chars rest.cells)) := by
  have hbehind : chars rest.gap ++ chars (rest.withGap []).cells = chars rest.cells := by
    rw [← chars_append, ← rest.cells_eq]
  have hfind := @ofReader_token tokens (chars gap) (chars item.cells) (chars rest.gap)
    (chars (rest.withGap []).cells) before (isPad_of_mem_chars hgap)
    (by simpa [chars] using hfits.ne_nil) (by simpa using hfits.head?_isPad [])
    (isPad_of_mem_chars hrest.gap) hrest.head?_bare
    (by rw [hbehind]; exact hfollows.token item _ hfits htoken) before.length
  rw [hbehind] at hfind
  rw [chars_append, chars_append, append_assoc, append_assoc, hbehind, hfind]
  simp

/-- What a rule on tokens makes of a row. The gap in front is any, as a token before it may have
been read with it. -/
theorem rewrites (hfollows : tokens.Follows isToken hits) (hreads : strip.Reads) :
    ∀ (gap : List Cell) (prev : Option Item) (before : List Char),
      (∀ cell ∈ gap, isPad cell.char = true) → prev.any isToken = false →
      (strip.withGap gap).Clear prev →
      Rewrites (.ofReader tokens.rule) id before (strip.withGap gap).cells
        ((strip.withGap gap).regap (tokens.change isToken hits) prev).cells := by
  induction strip with
  | last _ =>
    intro gap prev before hgap hprev _
    have hsame : ((Strip.last gap).regap (tokens.change isToken hits) prev).cells = gap ++ [] := by
      simp [Strip.regap, Strip.cells, change, hprev]
    have hcells : (Strip.last gap).cells = gap ++ [] := (append_nil gap).symm
    rw [Strip.withGap, hsame, hcells]
    exact .misses (ofReader_gap_none hgap (by rintro c ⟨⟩) hfollows.nothing) .nil
  | next _ item rest ih =>
    intro gap prev before hgap hprev hclear
    obtain ⟨-, hfits, hrest⟩ := hreads
    obtain ⟨hgapcode, hclear'⟩ := hclear
    cases htoken : isToken item with
    | false =>
      have hhits : hits item = false := by
        rw [Bool.eq_false_iff]
        intro hhit
        rw [((hfollows.hits item _ hfits).mp hhit).1] at htoken
        cases htoken
      have hlater := ih hrest rest.gap (some item)
        ((chars item.cells).reverse ++ ((chars gap).reverse ++ before)) hrest.gap htoken
        (by rwa [rest.withGap_gap])
      rw [rest.withGap_gap] at hlater
      have hout : ((Strip.next gap item rest).regap (tokens.change isToken hits) prev).cells =
          gap ++ (item.cells ++ (rest.regap (tokens.change isToken hits) (some item)).cells) := by
        simp [Strip.regap, Strip.cells, change, hprev, hhits]
      rw [Strip.withGap, hout]
      exact .misses (ofReader_lead_none hfollows hgap hfits htoken)
        (.misses (ofReader_plain_none hfollows hfits htoken) hlater)
    | true =>
      have hlater := ih hrest [] none ((chars (gap ++ (item.cells ++ rest.gap))).reverse ++ before)
        (by simp) rfl hclear'.bare
      have hcells : ((Strip.next gap item rest).cells) =
          (gap ++ (item.cells ++ rest.gap)) ++ (rest.withGap []).cells := by
        rw [Strip.cells, rest.cells_eq]
        simp
      rw [Strip.withGap, regap_token hfollows hprev htoken hfits hgapcode hclear', hcells]
      exact @Rewrites.found _ _ id before _ _ _ (tokens.written _ _ _) (by simp [hfits.ne_nil])
        (ofReader_item hfollows before hgap hfits hrest htoken) hlater

end TokenRule

/-! ## Rules on gaps -/

/-- What a rule on gaps does at the first gap of a row: nothing, or it reads the gap, alone or with
the item behind it. `changed` is what becomes of the gap. -/
inductive Acts (find : Recognizer (List Char)) (strip : Strip) (changed : List Cell) : Prop
  | idle :
      (∀ left cell right (before : List Char), strip.gap = left ++ cell :: right →
        find false ⟨before.length, before,
          cell.char :: (chars right ++ chars (strip.withGap []).cells)⟩ = none) →
      changed = strip.gap → Acts find strip changed
  | gap {written : List Char} : strip.gap ≠ [] →
      (∀ before : List Char, find false ⟨before.length, before,
        chars strip.gap ++ chars (strip.withGap []).cells⟩ = some (strip.gap.length, written)) →
      changed = (if strip.gap.all Cell.isCode then codeCells written else strip.gap) →
      Acts find strip changed
  | item {gap : List Cell} {item : Item} {rest : Strip} {written : List Char} :
      strip = .next gap item rest → gap ≠ [] →
      (∀ before : List Char, find false ⟨before.length, before,
        chars (gap ++ item.cells) ++ chars rest.cells⟩ =
          some ((gap ++ item.cells).length, written ++ chars item.cells)) →
      changed = (if (gap ++ item.cells).all Cell.isCode then codeCells written else gap) →
      Acts find strip changed

/-- What a rule on gaps makes of a row, if it finds nothing inside items. -/
theorem Strip.rewrites_of_acts {find : Recognizer (List Char)} {change : GapChange}
    (hskips : ∀ (item : Item) (following : List Char), item.Fits following →
      ∀ left cell right (before : List Char), item.cells = left ++ cell :: right →
        find false ⟨before.length, before, cell.char :: (chars right ++ following)⟩ = none)
    (hacts : ∀ (strip : Strip) (prev : Option Item), strip.Reads →
      Acts find strip (change prev strip.gap strip.first))
    (hreads : strip.Reads) :
    ∀ (prev : Option Item) (before : List Char),
      Rewrites find id before strip.cells (strip.regap change prev).cells := by
  induction strip with
  | last gap =>
    intro prev before
    have hend : (Strip.last gap).cells = gap ++ [] := (append_nil gap).symm
    have hout : ((Strip.last gap).regap change prev).cells = change prev gap none ++ [] :=
      (append_nil _).symm
    rw [hend, hout]
    cases hacts (.last gap) prev hreads with
    | idle hnone hchanged =>
      rw [show change prev gap none = gap from hchanged]
      exact .misses hnone .nil
    | gap hne hfind hchanged =>
      rw [show change prev gap none = _ from hchanged]
      exact .found hne (hfind before) .nil
    | item hstrip => cases hstrip
  | next gap item rest ih =>
    intro prev before
    obtain ⟨hpads, hfits, hrest⟩ := hreads
    have hitem : ∀ before : List Char, Rewrites find id before (item.cells ++ rest.cells)
        (item.cells ++ (rest.regap change (some item)).cells) :=
      fun before => .misses (hskips item _ hfits) (ih hrest (some item) _)
    rw [Strip.cells, Strip.regap, Strip.cells]
    cases hacts (.next gap item rest) prev ⟨hpads, hfits, hrest⟩ with
    | idle hnone hchanged =>
      rw [show change prev gap (some item) = gap from hchanged]
      exact .misses hnone (hitem _)
    | gap hne hfind hchanged =>
      rw [show change prev gap (some item) = _ from hchanged]
      exact .found hne (hfind before) (hitem _)
    | @item _ _ _ written hstrip hne hfind hchanged =>
      cases hstrip
      rw [show change prev gap (some item) = _ from hchanged]
      have hwalk := Rewrites.found (by simp [hne]) (hfind before) (ih hrest (some item) _)
      have hout :
          (if (gap ++ item.cells).all Cell.isCode then codeCells (id (written ++ chars item.cells))
          else gap ++ item.cells) =
          (if (gap ++ item.cells).all Cell.isCode then codeCells written else gap) ++
          item.cells := by
        split
        next hall =>
          rw [id, codeCells_append, codeCells_chars]
          exact fun cell hcell => Cell.isCode_iff.mp
            (all_eq_true.mp hall cell (mem_append_right _ hcell))
        next => rfl
      rw [hout] at hwalk
      simpa using hwalk

/-! ## Runs of spaces and tabs -/

namespace Cursor

variable {cursor : Cursor} {gap rest : List Char}

theorem someRun_eq_none (h : ∀ c ∈ cursor.after.head?, isPad c = false) :
    cursor.someRun isPad = none := by
  rw [someRun, next]
  split
  next => rfl
  next c rest hafter =>
    rw [hafter] at h
    rw [if_neg (by rw [h c rfl]; decide)]
    rfl

theorem exists_someRun (hne : gap ≠ []) (hgap : ∀ c ∈ gap, isPad c = true)
    (hrest : ∀ c ∈ rest.head?, isPad c = false) (hafter : cursor.after = gap ++ rest) :
    ∃ stop, cursor.someRun isPad = some stop ∧ cursor.Reads stop gap ∧ stop.after = rest := by
  obtain ⟨c, gap, rfl⟩ := exists_cons_of_ne_nil hne
  have hsome : cursor.someRun isPad =
      some (run isPad ⟨cursor.pos + 1, c :: cursor.before, gap ++ rest⟩) := by
    rw [someRun, next, hafter, cons_append]
    simp only [hgap c mem_cons_self, if_true, Option.map_some]
  obtain ⟨-, hreads, hstop⟩ := reads_someRun hsome
  rw [hafter, takeWhile_isPad hgap hrest] at hreads
  rw [hafter, dropWhile_isPad hgap hrest] at hstop
  exact ⟨_, hsome, hreads, hstop⟩

end Cursor

end StructuredText
