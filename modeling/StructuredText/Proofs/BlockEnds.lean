import StructuredText.Proofs.BlockWords
import StructuredText.Proofs.LineBreaks
import StructuredText.Proofs.TypedScan

/-!
# What follows the ends of blocks

A line feed goes behind the end of a block and the comments that follow it. No end of a block comes
or goes that way, so that spaces, tabs and comments only follow them on their lines, and no further
break is due.

Results:
1. `IsEnd.terminator_eq`, `isEnd_of_terminator`: what the end of a block is, from both sides.
2. `clear_fed`: with the breaks that are due, lines end behind the ends of blocks.
3. `breakPoints_breakBlocks`: no further break is due in a text with its breaks.
-/

namespace StructuredText

open List Literal LineKind

variable {text before block rest : List Char} {cells left right : List Cell} {afterComment : Bool}
  {c : Char} {pos : Nat}

/-! ## Places where something is found -/

/-- What is found at a place is an occurrence, if nothing that is found before reaches beyond it. -/
theorem mem_occurrencesFrom_of_find {α : Type} {find : Recognizer α} (proper : find.IsProper)
    {block last : List Char} {value : α} (n : Nat) :
    ∀ gap pos before, gap.length = n →
      find false ⟨pos + gap.length, gap.reverse ++ before, block ++ last⟩ =
        some (block.length, value) →
      (∀ first second length other, gap = first ++ second → second ≠ [] →
        find false ⟨pos + first.length, first.reverse ++ before, second ++ (block ++ last)⟩ =
          some (length, other) → length ≤ second.length) →
      ⟨pos + gap.length, pos + gap.length + block.length, value⟩ ∈
        occurrencesFrom find pos 0 before (gap ++ (block ++ last)) := by
  induction n using Nat.strongRecOn with
  | ind n ih =>
    intro gap pos before hn hfind hapart
    cases gap with
    | nil =>
      have hne : block ≠ [] := by
        rintro rfl
        exact Nat.lt_irrefl 0 (proper _ _ _ _ hfind).1
      rw [nil_append, occurrencesFrom_found hne (by simpa using hfind)]
      exact mem_cons_self
    | cons c gap =>
      cases hfirst : find false ⟨pos, before, c :: (gap ++ (block ++ last))⟩ with
      | none =>
        rw [cons_append, occurrencesFrom_miss hfirst]
        have hlater := ih gap.length (by rw [← hn]; simp) gap (pos + 1) (c :: before) rfl
          (by simpa [Nat.add_assoc, Nat.add_comm 1] using hfind) ?_
        · simpa [Nat.add_assoc, Nat.add_comm 1] using hlater
        · rintro first second length other rfl hne hother
          exact hapart (c :: first) second length other rfl hne
            (by simpa [Nat.add_assoc, Nat.add_comm 1] using hother)
      | some found =>
        obtain ⟨length, other⟩ := found
        have hle := hapart [] (c :: gap) length other rfl (cons_ne_nil c gap) hfirst
        -- The search goes on behind what is found first.
        obtain ⟨early, late, hsplit, hlength⟩ :
            ∃ early late, c :: gap = early ++ late ∧ early.length = length :=
          ⟨(c :: gap).take length, (c :: gap).drop length, (take_append_drop _ _).symm, by
            rw [length_take]; omega⟩
        have hpos := (proper _ _ _ _ hfirst).1
        have hne : early ≠ [] := by
          rintro rfl
          exact absurd hpos (by simp [← hlength])
        rw [hsplit] at hn hfind hapart ⊢
        rw [← cons_append, hsplit, append_assoc, ← hlength] at hfirst
        rw [append_assoc, occurrencesFrom_found hne hfirst]
        refine mem_cons_of_mem _ ?_
        rw [length_append] at hn
        have hlater := ih late.length (by have := length_pos_iff.mpr hne; omega) late
          (pos + early.length) (early.reverse ++ before) rfl
          (by simpa [Nat.add_assoc] using hfind) ?_
        · simpa [Nat.add_assoc] using hlater
        · rintro first second length' other' rfl hne' hother
          exact hapart (early ++ first) second length' other' (by simp) hne'
            (by simpa [Nat.add_assoc] using hother)

namespace LineBreak

/-! ## Reading the ends of blocks -/

/-- A block ends between `before` and `rest`: no word goes on there, and a word that closes blocks
is followed by a semicolon, or ends declarations without one. -/
structure IsEnd (before block rest : List Char) : Prop where
  start : ∀ c ∈ before.getLast?, isWordChar c = false
  closes : (∃ word, Spells closers word ∧ block = word ++ [';']) ∨
    Spells ["END_VAR".toList] block ∧ ∀ c ∈ rest.head?, isWordChar c = false ∧ c ≠ ';'

theorem declaration_checked : AreKeywords ["END_VAR".toList] := by
  unfold AreKeywords
  decide

theorem closers_eq : closers = closedEnds ++ ["END_VAR".toList] := rfl

/-- No word that closes blocks is the start of another one. -/
theorem closers_apart : ∀ word ∈ closers, ∀ other ∈ closers,
    (word.map foldChar).isPrefixOf (other.map foldChar) = true → word = other := by
  decide

theorem isEnd_of_terminator {cursor stop : Cursor} (h : terminator cursor = some stop) :
    ∃ block, cursor.Reads stop block ∧ IsEnd cursor.before.reverse block stop.after := by
  obtain ⟨hstart, text, htext, word, behind, hsame, hreads, hends⟩ := terminator_eq_some h
  have hspells : Spells closers word := ⟨text, htext, hsame⟩
  obtain ⟨hne, hchars⟩ := hspells.isWordChar closers_checked
  rw [Cursor.atBoundary, hreads.after, ← reverse_reverse cursor.before,
    atWordBoundary_before_iff hne hchars] at hstart
  rcases hends with hchar | ⟨rfl, rfl, hbound, hchar⟩
  · exact ⟨_, hreads.trans (Cursor.reads_char hchar), hstart, .inl ⟨word, hspells, rfl⟩⟩
  · refine ⟨word, hreads, hstart, .inr ⟨⟨_, mem_cons_self, hsame⟩, fun c hc => ⟨?_, ?_⟩⟩⟩
    · rw [Cursor.atBoundary, hreads.before, atWordBoundary_behind_iff hne hchars] at hbound
      exact hbound c hc
    · rintro rfl
      obtain ⟨tail, htail⟩ := head?_eq_some_iff.mp hc
      have htail : behind.after = ';' :: tail := htail
      simp [Cursor.char, Cursor.next, htail] at hchar

/-- Only one word that closes blocks can be read at a place. -/
theorem eq_of_word_eq_some {other word tail : List Char} {stop : Cursor} (htext : text ∈ closers)
    (hother : other ∈ closers) (hsame : List.Forall₂ (fun c d => sameUpToCase c d = true) text word)
    (h : Cursor.word other ⟨pos, before, word ++ tail⟩ = some stop) : other = text := by
  obtain ⟨read, hreads, hread⟩ := Cursor.reads_word h
  have hword := map_foldChar_eq (hsame.imp fun _ _ => beq_iff_eq.mp)
  have hread := map_foldChar_eq (hread.imp fun _ _ => beq_iff_eq.mp)
  have hafter : word ++ tail = read ++ stop.after := hreads.after
  rcases append_eq_append_iff.mp hafter with ⟨more, rfl, -⟩ | ⟨more, rfl, -⟩
  · refine (closers_apart text htext other hother ?_).symm
    rw [← hread, ← hword, map_append, isPrefixOf_iff_prefix]
    exact prefix_append _ _
  · refine closers_apart other hother text htext ?_
    rw [← hread, ← hword, map_append, isPrefixOf_iff_prefix]
    exact prefix_append _ _

/-- The words that a semicolon follows are read where they stand, and no others. -/
theorem oneOf_closedEnds {word : List Char} (htext : text ∈ closers)
    (hsame : List.Forall₂ (fun c d => sameUpToCase c d = true) text word) (pos : Nat)
    (before tail : List Char) : Cursor.oneOf closedEnds ⟨pos, before, word ++ tail⟩ =
      if text ∈ closedEnds then some ⟨pos + word.length, word.reverse ++ before, tail⟩
      else none := by
  have hread := Cursor.word_append hsame pos before tail
  cases hfound : Cursor.oneOf closedEnds ⟨pos, before, word ++ tail⟩ with
  | some stop =>
    obtain ⟨other, hother, hword⟩ := Cursor.reads_oneOf hfound
    obtain rfl := eq_of_word_eq_some htext
      (by rw [closers_eq]; exact mem_append_left _ hother) hsame hword
    rw [if_pos hother, ← hread, hword]
  | none =>
    refine (if_neg fun hmem => ?_).symm
    have := findSome?_eq_none_iff.mp hfound text hmem
    rw [hread] at this
    cases this

/-- The end of a block is read where it stands. -/
theorem IsEnd.terminator_eq (h : IsEnd before block rest) (pos : Nat) :
    terminator ⟨pos, before.reverse, block ++ rest⟩ =
      some ⟨pos + block.length, block.reverse ++ before.reverse, rest⟩ := by
  have hstart : ∀ {word tail : List Char}, Spells closers word →
      Cursor.boundary ⟨pos, before.reverse, word ++ tail⟩ =
        some ⟨pos, before.reverse, word ++ tail⟩ := by
    intro word tail hspells
    obtain ⟨hne, hchars⟩ := hspells.isWordChar closers_checked
    exact if_pos ((atWordBoundary_before_iff hne hchars before tail).mpr h.start)
  have hstop : ∀ {word tail : List Char}, Spells closers word →
      (∀ c ∈ tail.head?, isWordChar c = false) →
      Cursor.boundary ⟨pos + word.length, word.reverse ++ before.reverse, tail⟩ =
        some ⟨pos + word.length, word.reverse ++ before.reverse, tail⟩ := by
    intro word tail hspells htail
    obtain ⟨hne, hchars⟩ := hspells.isWordChar closers_checked
    exact if_pos ((atWordBoundary_behind_iff hne hchars before.reverse tail).mpr htail)
  obtain ⟨word, hspells, rfl⟩ | ⟨⟨text, hmem, hsame⟩, hrest⟩ := h.closes
  · obtain ⟨text, htext, hsame⟩ := hspells
    rw [append_assoc, singleton_append, terminator, hstart ⟨text, htext, hsame⟩]
    simp only [Option.bind_eq_bind, Option.bind_some, oneOf_closedEnds htext hsame]
    by_cases hclosed : text ∈ closedEnds
    · simp [hclosed, Cursor.char, Cursor.next, Nat.add_assoc]
    · rw [closers_eq, mem_append, mem_singleton] at htext
      obtain rfl := htext.resolve_left hclosed
      rw [if_neg hclosed, Cursor.word_append hsame, Option.bind_none, Option.bind_some,
        hstop ⟨_, by decide, hsame⟩ (by rintro c ⟨⟩; decide)]
      simp [Cursor.optionally, Cursor.char, Cursor.next, Nat.add_assoc]
  · obtain rfl := mem_singleton.mp hmem
    have hspells : Spells closers block := ⟨_, by decide, hsame⟩
    rw [terminator, hstart hspells]
    simp only [Option.bind_eq_bind, Option.bind_some]
    rw [oneOf_closedEnds (by decide) hsame, if_neg (by decide), Cursor.word_append hsame,
      Option.bind_none, Option.bind_some, hstop hspells fun c hc => (hrest c hc).1]
    have hchar :
        Cursor.char ';' ⟨pos + block.length, block.reverse ++ before.reverse, rest⟩ = none := by
      cases rest with
      | nil => rfl
      | cons c rest => exact if_neg (by simpa using (hrest c rfl).2)
    rw [Option.bind_some, Cursor.optionally, hchar]
    rfl

theorem findEnd_of_isEnd (h : IsEnd before block rest) :
    findEnd false ⟨before.length, before.reverse, block ++ rest⟩ = some (block.length, ()) := by
  refine ofReader_eq_some.mpr ⟨_, by rw [h.terminator_eq]; rfl, ?_⟩
  simp

theorem isEnd_of_findEnd {advance : Bool} {n : Nat} {after : List Char}
    (h : findEnd advance ⟨pos, before.reverse, after⟩ = some (n, ())) :
    ∃ block rest, after = block ++ rest ∧ n = block.length ∧ IsEnd before block rest := by
  obtain ⟨stop, hread, rfl⟩ := ofReader_eq_some.mp h
  obtain ⟨stop', hterminator, heq⟩ := Option.map_eq_some_iff.mp hread
  cases heq
  obtain ⟨block, hreads, hends⟩ := isEnd_of_terminator hterminator
  refine ⟨block, stop.after, hreads.after, by rw [hreads.pos, Nat.add_sub_cancel_left], ?_⟩
  simpa using hends

/-- The end of a block is an occurrence: none starts inside another one. -/
theorem IsEnd.mem_occurrences (h : IsEnd before block rest) :
    ⟨before.length, before.length + block.length, ()⟩ ∈
      occurrences findEnd (before ++ (block ++ rest)) := by
  have hmem := mem_occurrencesFrom_of_find findEnd_isProper before.length before 0 [] rfl
    (by simpa using findEnd_of_isEnd h) ?_
  · simpa [occurrences] using hmem
  rintro first second length ⟨⟩ rfl hne hother
  rw [append_nil] at hother
  obtain ⟨block', rest', hafter, rfl, hend⟩ := isEnd_of_findEnd hother
  by_contra hlt
  -- The first end would go on beyond `second`, which thus ends in a word character.
  obtain ⟨more, rfl, -⟩ := append_eq_append_of_length_le hafter (by omega)
  have hmore : more ≠ [] := by
    rintro rfl
    simp at hlt
  have hlast : isWordChar (second.getLast hne) = true := by
    obtain ⟨word, hspells, hblock⟩ | ⟨hspells, -⟩ := hend.closes
    · obtain ⟨-, hchars⟩ := hspells.isWordChar closers_checked
      obtain ⟨init, c, rfl⟩ := (eq_nil_or_concat more).resolve_left hmore
      rw [concat_eq_append, ← append_assoc] at hblock
      obtain ⟨rfl, -⟩ := append_inj' hblock rfl
      exact hchars _ (mem_append_left _ (getLast_mem hne))
    · obtain ⟨-, hchars⟩ := hspells.isWordChar declaration_checked
      exact hchars _ (mem_append_left _ (getLast_mem hne))
  have hstart := h.start (second.getLast hne)
    (by rw [getLast?_append_of_ne_nil _ hne]; exact getLast?_eq_some_getLast hne)
  rw [hlast] at hstart
  cases hstart

/-- What stands where an occurrence is found. -/
theorem isEnd_of_mem_occurrences {found : Occurrence Unit} (h : found ∈ occurrences findEnd text) :
    ∃ before block rest, text = before ++ (block ++ rest) ∧ found.start = before.length ∧
      found.stop = before.length + block.length ∧ IsEnd before block rest := by
  obtain ⟨before, block, rest, rfl, hstart, hstop, hfind⟩ :=
    mem_occurrencesFrom findEnd_isProper text 0 0 [] h
  obtain ⟨block', rest', hafter, hlength, hend⟩ := isEnd_of_findEnd (by simpa using hfind)
  obtain ⟨rfl, rfl⟩ := append_inj hafter hlength
  rw [Nat.zero_add] at hstart
  exact ⟨before, block, rest, rfl, hstart, by rw [hstop, hstart], hend⟩

end LineBreak

/-! ## Line feeds between the ends of blocks -/

section

variable {cuts : List Nat} {cells right' : List Cell} {block : List Char}

theorem fed_of_mem {pos : Nat} (h : pos ∈ cuts) : ∃ out, fed cuts pos cells = feed :: out := by
  cases cells <;> simp [fed, h]

theorem head?_fed (h : pos ∉ cuts) : (fed cuts pos cells).head? = cells.head? := by
  cases cells <;> simp [fed, h]

theorem fed_ledBy : LedBy (fed cuts pos cells) cells := by
  by_cases hpos : pos ∈ cuts
  · obtain ⟨out, hout⟩ := fed_of_mem hpos
    exact .inr (by rw [hout]; rfl)
  · exact .inl (head?_fed hpos)

/-- A line feed that is put in starts no text without line feeds. -/
theorem fed_not_mem {rest : List Cell} (hc : c ≠ '\n')
    (h : fed cuts pos cells = ⟨c, .code⟩ :: rest) : pos ∉ cuts ∧ cells ≠ [] := by
  have hpos : pos ∉ cuts := by
    intro hmem
    obtain ⟨out, hout⟩ := @fed_of_mem cuts cells pos hmem
    exact hc (congrArg Cell.char (cons_eq_cons.mp (h.symm.trans hout)).1)
  refine ⟨hpos, ?_⟩
  rintro rfl
  simp [fed, hpos] at h

/-- Code without line feeds at the start stands at the start of the text without the line feeds. -/
theorem fed_eq_codeCells_append (hblock : '\n' ∉ block) :
    ∀ {pos : Nat}, fed cuts pos cells = codeCells block ++ right' →
      ∃ right, cells = codeCells block ++ right ∧ right' = fed cuts (pos + block.length) right := by
  induction block generalizing cells with
  | nil => exact fun h => ⟨cells, rfl, h.symm⟩
  | cons c block ih =>
    intro pos h
    rw [mem_cons, not_or] at hblock
    obtain ⟨hpos, hne⟩ := fed_not_mem (Ne.symm hblock.1) h
    obtain ⟨cell, cells, rfl⟩ := exists_cons_of_ne_nil hne
    rw [fed, if_neg hpos, nil_append, codeCells_cons, cons_append] at h
    obtain ⟨rfl, hrest⟩ := cons_eq_cons.mp h
    obtain ⟨right, rfl, rfl⟩ := ih hblock.2 hrest
    exact ⟨right, rfl, by rw [length_cons, Nat.add_assoc, Nat.add_comm 1]⟩

/-- Code without line feeds stands in the text without the line feeds too. What is before it ends
with one of them, or as it did. -/
theorem fed_eq_append (hne : block ≠ []) (hblock : '\n' ∉ block) :
    ∀ {pos : Nat} {left' : List Cell}, fed cuts pos cells = left' ++ (codeCells block ++ right') →
      ∃ left right, cells = left ++ (codeCells block ++ right) ∧
        right' = fed cuts (pos + left.length + block.length) right ∧
        (pos + left.length ∈ cuts ∨ left'.getLast? = left.getLast?) := by
  obtain ⟨c, rest, hcons⟩ := exists_cons_of_ne_nil hne
  have hc : c ≠ '\n' := by
    rintro rfl
    simp [hcons] at hblock
  induction cells with
  | nil =>
    intro pos left' h
    have hmem : ⟨c, .code⟩ ∈ fed cuts pos [] := by
      rw [h, hcons]
      simp
    rw [fed] at hmem
    split at hmem
    · exact absurd (congrArg Cell.char (mem_singleton.mp hmem)) hc
    · cases hmem
  | cons cell cells ih =>
    intro pos left' h
    -- Behind a line feed at the start, the block stands at once or further on.
    have hstep : ∀ {left' : List Cell},
        cell :: fed cuts (pos + 1) cells = left' ++ (codeCells block ++ right') →
        ∃ left right, cell :: cells = left ++ (codeCells block ++ right) ∧
          right' = fed cuts (pos + left.length + block.length) right ∧ (left' = [] → left = []) ∧
          (pos + left.length ∈ cuts ∨ left'.getLast? = left.getLast?) := by
      intro left' h
      cases left' with
      | nil =>
        rw [hcons, mem_cons, not_or] at hblock
        rw [nil_append, hcons, codeCells_cons, cons_append] at h
        obtain ⟨rfl, hrest⟩ := cons_eq_cons.mp h
        obtain ⟨right, rfl, hright⟩ := fed_eq_codeCells_append hblock.2 hrest
        refine ⟨[], right, by rw [hcons]; rfl, ?_, fun _ => rfl, .inr rfl⟩
        rw [hright, hcons, length_cons, Nat.add_assoc, Nat.add_comm 1]
        rfl
      | cons other left' =>
        obtain ⟨rfl, hrest⟩ := cons_eq_cons.mp h
        obtain ⟨left, right, rfl, hright, hlast⟩ := ih hrest
        have hlength : pos + (cell :: left).length = pos + 1 + left.length := by
          rw [length_cons]
          omega
        refine ⟨cell :: left, right, rfl, by rw [hright, hlength],
          fun hnil => absurd hnil (cons_ne_nil _ _), ?_⟩
        rw [hlength]
        refine hlast.imp_right fun hlast => ?_
        rw [getLast?_cons, getLast?_cons, hlast]
    rw [fed] at h
    by_cases hpos : pos ∈ cuts
    · rw [if_pos hpos, singleton_append] at h
      cases left' with
      | nil =>
        rw [nil_append, hcons, codeCells_cons, cons_append] at h
        exact absurd (congrArg Cell.char (cons_eq_cons.mp h).1).symm hc
      | cons other left' =>
        obtain ⟨left, right, hcells, hright, hnil, hlast⟩ := hstep (cons_eq_cons.mp h).2
        refine ⟨left, right, hcells, hright, ?_⟩
        cases left' with
        | nil =>
          rw [hnil rfl]
          exact .inl hpos
        | cons next left' => rwa [getLast?_cons_cons]
    · rw [if_neg hpos, nil_append] at h
      obtain ⟨left, right, hcells, hright, -, hlast⟩ := hstep h
      exact ⟨left, right, hcells, hright, hlast⟩

theorem Insertable.not_inside {cut : Nat} (h : Insertable cells cut) {cell : Cell}
    (hcell : cells[cut]? = some cell) : cell.isInside = false := by
  obtain ⟨left, right, rfl, rfl, hhead, -⟩ := h
  rw [getElem?_append_right (Nat.le_refl _), Nat.sub_self, ← head?_eq_getElem?] at hcell
  exact hhead cell hcell

/-- Line feeds are put in before and behind a literal. -/
theorem fed_literalCells (hcuts : ∀ cut ∈ cuts, Insertable cells cut) {rest : List Cell}
    {kind : Kind} {body : List Char} (hcells : cells = left ++ (literalCells kind c body ++ rest))
    (hfree : left.length ∉ cuts) : fed cuts left.length (literalCells kind c body ++ rest) =
      literalCells kind c body ++ fed cuts (left.length + (literalCells kind c body).length)
      rest := by
  refine fed_append fun cut hcut hle => ?_
  by_contra hlt
  rw [Nat.not_le] at hlt
  have hne : left.length ≠ cut := fun h => hfree (h ▸ hcut)
  obtain ⟨i, hi, hget⟩ : ∃ i, i + 1 = cut - left.length ∧ i < (insideCells kind body).length := by
    refine ⟨cut - left.length - 1, by omega, ?_⟩
    rw [length_literalCells] at hlt
    rw [length_insideCells]
    omega
  have hcell : cells[cut]? = some (insideCells kind body)[i] := by
    rw [hcells, getElem?_append_right hle, ← hi, literalCells, cons_append,
      getElem?_cons_succ, getElem?_append_left hget, getElem?_eq_getElem hget]
  have hinside := (hcuts cut hcut).not_inside hcell
  obtain ⟨d, -, hd⟩ := mem_map.mp (getElem_mem hget)
  rw [← hd] at hinside
  cases hinside

end

/-- The comments of a text start further on, or the first of them starts the text. -/
theorem Marked.comments_cases (h : Marked recognize before cells) (pos : Nat) :
    (∀ span ∈ ((spansFrom pos cells).filter (·.kind.isComment)).head?, span.start ≠ pos) ∨
      ∃ kind c body rest, cells = literalCells kind c body ++ rest ∧ kind.isComment = true ∧
        ∀ cell ∈ rest.head?, cell.isInside = false := by
  by_cases hstart : ∃ span ∈ ((spansFrom pos cells).filter (·.kind.isComment)).head?,
    span.start = pos
  · obtain ⟨span, hspan, hstart⟩ := hstart
    obtain ⟨hmem, hcomment⟩ := mem_filter.mp (mem_of_head? hspan)
    obtain ⟨c, body, rest, hcells, -, -, hrest, -⟩ := h.exists_literal hmem hstart
    exact .inr ⟨span.kind, c, body, rest, hcells, hcomment, hrest⟩
  · exact .inl fun span hspan h => hstart ⟨span, hspan, h⟩

/-! ## Lines that end behind a place -/

namespace LineBreak

/-- Nothing but spaces, tabs and comments stands at the start of the cells, up to a line feed of the
code, or up to the end if a comment has come before. -/
inductive Clear : Bool → List Cell → Prop
  | atEnd {pads : List Char} : (∀ c ∈ pads, isPad c = true) → Clear true (codeCells pads)
  | atFeed {afterComment : Bool} {pads : List Char} {rest : List Cell} :
      (∀ c ∈ pads, isPad c = true) → Clear afterComment (codeCells pads ++ feed :: rest)
  | lineComment {afterComment : Bool} {pads body : List Char} {c : Char} {rest : List Cell} :
      (∀ d ∈ pads, isPad d = true) → (∀ cell ∈ rest.head?, cell.isInside = false) →
      Clear afterComment (codeCells pads ++ (literalCells .lineComment c body ++ rest))
  | comment {afterComment : Bool} {pads body : List Char} {kind : Kind} {c : Char}
      {rest : List Cell} :
      (∀ d ∈ pads, isPad d = true) → kind.isComment = true → kind ≠ .lineComment →
      Clear true rest → Clear afterComment (codeCells pads ++ (literalCells kind c body ++ rest))

theorem Clear.cons_pad (hc : isPad c = true) (h : Clear afterComment cells) :
    Clear afterComment (⟨c, .code⟩ :: cells) := by
  have hcons : ∀ {pads : List Char}, (∀ d ∈ pads, isPad d = true) →
      ∀ d ∈ c :: pads, isPad d = true :=
    fun hpads => forall_mem_cons.mpr ⟨hc, hpads⟩
  cases h with
  | atEnd hpads => exact .atEnd (hcons hpads)
  | atFeed hpads => exact .atFeed (hcons hpads)
  | lineComment hpads hrest => exact .lineComment (hcons hpads) hrest
  | comment hpads hcomment hkind hrest => exact .comment (hcons hpads) hcomment hkind hrest

section

variable {document pads : List Char} {cut : Nat} (hpads : ∀ c ∈ pads, isPad c = true)
include hpads

theorem breakPoint_end (hdrop : document.drop cut = pads) (afterComment : Bool)
    (comments : List Span) :
    breakPoint document cut afterComment comments = if afterComment then none else some cut := by
  rw [breakPoint.eq_def, hdrop, dropWhile_eq_nil_iff.mpr hpads]

theorem breakPoint_feed (hdrop : document.drop cut = pads ++ '\n' :: rest) (afterComment : Bool)
    (comments : List Span) :
    breakPoint document cut afterComment comments = none := by
  rw [breakPoint.eq_def, hdrop, dropWhile_append_of_pos hpads,
    dropWhile_cons_of_neg (by decide)]
  rfl

variable {c : Char} {rest : List Char} (hdrop : document.drop cut = pads ++ c :: rest)
  (hpad : isPad c = false) (hfeed : c ≠ '\n')
include hdrop hpad hfeed

/-- A break is due before what is no comment. -/
theorem breakPoint_code {comments : List Span}
    (hstart : ∀ span ∈ comments.head?, span.start ≠ cut + pads.length) (afterComment : Bool) :
    breakPoint document cut afterComment comments = some cut := by
  have hneg : ¬ isPad c = true := by simp [hpad]
  rw [breakPoint.eq_def, hdrop, dropWhile_append_of_pos hpads, dropWhile_cons_of_neg hneg,
    takeWhile_append_of_pos hpads, takeWhile_cons_of_neg hneg, append_nil]
  split
  next hnil => cases hnil
  next heq => exact absurd (cons_eq_cons.mp heq).1 hfeed
  next =>
    cases comments with
    | nil => rfl
    | cons span later => exact if_neg (hstart span rfl)

/-- The search for a break goes on behind a comment. -/
theorem breakPoint_comment {span : Span} (hstart : span.start = cut + pads.length)
    (later : List Span) (afterComment : Bool) :
    breakPoint document cut afterComment (span :: later) =
      if span.kind = .lineComment then none else breakPoint document span.stop true later := by
  have hneg : ¬ isPad c = true := by simp [hpad]
  rw [breakPoint.eq_def, hdrop, dropWhile_append_of_pos hpads, dropWhile_cons_of_neg hneg,
    takeWhile_append_of_pos hpads, takeWhile_cons_of_neg hneg, append_nil]
  split
  next hnil => cases hnil
  next heq => exact absurd (cons_eq_cons.mp heq).1 hfeed
  next => exact if_pos hstart

end

section

variable {cuts : List Nat} {cells : List Cell}

/-- Spaces and tabs with a line feed among them end a line. -/
theorem fed_pads {pads : List Char} (hpads : ∀ c ∈ pads, isPad c = true) {behind : List Cell} :
    ∀ {pos : Nat}, (∀ afterComment, Clear afterComment (fed cuts pos (codeCells pads ++ behind))) ∨
      (∀ cut ∈ cuts, pos ≤ cut → pos + pads.length ≤ cut) ∧
        fed cuts pos (codeCells pads ++ behind) =
          codeCells pads ++ fed cuts (pos + pads.length) behind := by
  induction pads with
  | nil => exact .inr ⟨fun _ _ => id, rfl⟩
  | cons c pads ih =>
    intro pos
    obtain ⟨hc, hpads⟩ := forall_mem_cons.mp hpads
    rw [codeCells_cons, cons_append, fed]
    by_cases hpos : pos ∈ cuts
    · rw [if_pos hpos]
      exact .inl fun afterComment => @Clear.atFeed afterComment [] _ (by simp)
    · rw [if_neg hpos, nil_append]
      rcases @ih hpads (pos + 1) with hclear | ⟨hcuts, heq⟩
      · exact .inl fun afterComment => (hclear afterComment).cons_pad hc
      · refine .inr ⟨fun cut hcut hle => ?_, ?_⟩
        · have hne : pos ≠ cut := fun h => hpos (h ▸ hcut)
          have := hcuts cut hcut (by omega)
          rw [length_cons]
          omega
        · rw [heq, length_cons, Nat.add_assoc, Nat.add_comm 1]
          rfl

/-- The search for a break goes on behind a comment. -/
theorem breakPoint_literalCells (hmarked : Marked recognize [] cells) {rest : List Cell}
    {pads body : List Char} {kind : Kind} (hpads : ∀ d ∈ pads, isPad d = true)
    (hkind : kind.isComment = true) (hrest : ∀ cell ∈ rest.head?, cell.isInside = false)
    (hcells : cells = left ++ (codeCells pads ++ (literalCells kind c body ++ rest)))
    (afterComment : Bool) :
    breakPoint (chars cells) left.length afterComment
      ((spansFrom left.length (codeCells pads ++ (literalCells kind c body ++ rest))).filter
        (·.kind.isComment)) =
      if kind = .lineComment then none else
        breakPoint (chars cells) (left ++ (codeCells pads ++ literalCells kind c body)).length true
          ((spansFrom (left ++ (codeCells pads ++ literalCells kind c body)).length rest).filter
            (·.kind.isComment)) := by
  have hblank : isBlank c = false := by
    rw [hcells, ← append_assoc] at hmarked
    exact hmarked.isBlank_of_opening
  have hpad : isPad c = false := by
    rw [Bool.eq_false_iff]
    intro hpad
    rw [isBlank_of_isPad hpad] at hblank
    cases hblank
  have hfeed : c ≠ '\n' := by
    rintro rfl
    exact absurd hblank (by decide)
  have hdrop : (chars cells).drop left.length = pads ++ c :: (body ++ chars rest) := by
    rw [hcells, chars_append, drop_left' (length_chars left)]
    simp
  have hlength : (left ++ (codeCells pads ++ literalCells kind c body)).length =
      left.length + pads.length + body.length + 1 := by
    simp [codeCells]
    omega
  rw [spansFrom_append (by rintro cell ⟨⟩; rfl), spansFrom_codeCells, nil_append,
    spansFrom_literalCells hrest, filter_cons_of_pos (by simpa using hkind),
    hlength, codeCells,
    length_map]
  exact breakPoint_comment hpads hdrop hpad hfeed rfl _ afterComment

/-- With the breaks that are due, lines end behind the ends of blocks. -/
theorem clear_fed (hmarked : Marked recognize [] cells) (hcuts : ∀ cut ∈ cuts, Insertable cells cut)
    (n : Nat) : ∀ (left right : List Cell) (afterComment : Bool), right.length = n →
      cells = left ++ right → (∀ cell ∈ right.head?, cell.isInside = false) →
      (∀ p, breakPoint (chars cells) left.length afterComment
        ((spansFrom left.length right).filter (·.kind.isComment)) = some p → p ∈ cuts) →
      Clear afterComment (fed cuts left.length right) := by
  induction n using Nat.strongRecOn with
  | ind n ih =>
    intro left right afterComment hn hcells hhead hdue
    have hmarked' := hmarked.of_append hcells hhead
    have hdrop : (chars cells).drop left.length = chars right := by
      rw [hcells, chars_append, drop_left' (length_chars left)]
    obtain ⟨behind, hright, hbehind⟩ := hmarked'.takeWhile_code fun c => @isBlank_of_isPad c
    have hpads : ∀ c ∈ (chars right).takeWhile isPad, isPad c = true := isPad_of_mem_takeWhile
    have hbare := head?_dropWhile_not isPad (chars right)
    rw [← hbehind] at hbare
    generalize (chars right).takeWhile isPad = pads at hright hpads
    subst hright
    rcases fed_pads hpads with hclear | ⟨hfree, hfed⟩
    · exact hclear afterComment
    rw [hfed]
    by_cases hfeed : left.length + pads.length ∈ cuts
    · obtain ⟨out, hout⟩ := @fed_of_mem cuts behind _ hfeed
      rw [hout]
      exact .atFeed hpads
    -- No break is due here, so that the line goes on with a comment at most.
    have hnone : breakPoint (chars cells) left.length afterComment
        ((spansFrom left.length (codeCells pads ++ behind)).filter (·.kind.isComment)) ≠
          some left.length := by
      intro hsome
      have hmem := hdue _ hsome
      have hle := hfree _ hmem (Nat.le_refl _)
      rw [Nat.le_antisymm hle (Nat.le_add_right _ _)] at hfeed
      exact hfeed hmem
    have hhead' := hmarked'.head?_of_codeCells
    rw [chars_append, chars_codeCells] at hdrop
    cases behind with
    | nil =>
      rw [fed, if_neg hfeed, append_nil]
      cases afterComment with
      | true => exact .atEnd hpads
      | false => exact absurd (breakPoint_end hpads (by simpa using hdrop) false _) hnone
    | cons cell rest =>
      have hmarked'' := hmarked'.of_append rfl hhead'
      by_cases hchar : cell.char = '\n'
      · have hcode := @Marked.codeCells_of_isBlank _ [cell] rest hmarked'' (by simp [hchar]; decide)
        rw [chars_cons, codeCells_cons, hchar] at hcode
        rw [fed, if_neg hfeed, nil_append, (cons_eq_cons.mp hcode).1]
        exact .atFeed hpads
      rcases hmarked''.comments_cases (left.length + pads.length) with
        hcode | ⟨kind, c, body, after, heq, hkind, hafter⟩
      · rw [spansFrom_append hhead', spansFrom_codeCells, nil_append, codeCells,
          length_map] at hnone
        have hfound := breakPoint_code hpads hdrop (by simpa using hbare) hchar hcode afterComment
        exact absurd hfound hnone
      · have hlength : left.length + pads.length = (left ++ codeCells pads).length := by
          simp [codeCells]
        rw [heq] at hn hcells hdue ⊢
        rw [hlength] at hfeed ⊢
        rw [breakPoint_literalCells hmarked hpads hkind hafter hcells, ← append_assoc] at hdue
        rw [fed_literalCells hcuts (by rw [hcells, append_assoc]) hfeed, ← length_append]
        by_cases hline : kind = .lineComment
        · rw [hline]
          exact .lineComment hpads (fed_ledBy.head_not_inside hafter)
        · rw [if_neg hline] at hdue
          refine .comment hpads hkind hline
            (ih after.length ?_ _ _ _ rfl (by simp [hcells]) hafter hdue)
          rw [← hn, length_append, length_append, length_literalCells]
          omega

theorem Clear.head?_not_inside (h : Clear afterComment cells) :
    ∀ cell ∈ cells.head?, cell.isInside = false := by
  have hpadded : ∀ {pads : List Char} {rest : List Cell},
      (∀ cell ∈ rest.head?, cell.isInside = false) →
      ∀ cell ∈ (codeCells pads ++ rest).head?, cell.isInside = false := by
    intro pads rest hrest
    cases pads with
    | nil => exact hrest
    | cons c pads =>
      rintro cell ⟨⟩
      rfl
  cases h with
  | @atEnd pads _ => simpa using @hpadded pads [] (by simp)
  | atFeed _ | lineComment _ _ | comment _ _ _ _ => exact hpadded (by rintro cell ⟨⟩; rfl)

/-- No break is due where a line ends. -/
theorem Clear.breakPoint_eq_none (hmarked : Marked recognize [] cells)
    (h : Clear afterComment right) : ∀ left, cells = left ++ right →
      breakPoint (chars cells) left.length afterComment
        ((spansFrom left.length right).filter (·.kind.isComment)) = none := by
  induction h with
  | atEnd hpads =>
    rintro left rfl
    rw [breakPoint_end hpads (by simp), if_pos rfl]
  | atFeed hpads =>
    rintro left rfl
    exact breakPoint_feed hpads (by simp [feed]; rfl) _ _
  | lineComment hpads hrest =>
    intro left hcells
    rw [breakPoint_literalCells hmarked hpads rfl hrest hcells, if_pos rfl]
  | comment hpads hkind hline hrest ih =>
    intro left hcells
    rw [breakPoint_literalCells hmarked hpads hkind hrest.head?_not_inside hcells, if_neg hline]
    exact ih _ (by simp [hcells])

end

/-! ## The ends of blocks in a text with its breaks -/

theorem mem_breakPoints (hmarked : Marked recognize [] cells) {cut : Nat} :
    cut ∈ breakPoints (chars cells) ↔ ∃ found ∈ occurrences findEnd (chars cells),
      isProtected (spansFrom 0 cells).toArray found.start = false ∧
      breakPoint (chars cells) found.stop false
        (((spansFrom 0 cells).filter (·.kind.isComment)).dropWhile
          fun span => decide (span.start < found.stop)) = some cut := by
  rw [breakPoints_eq hmarked, mem_filterMap]
  refine exists_congr fun found => and_congr_right fun _ => ?_
  cases isProtected (spansFrom 0 cells).toArray found.start <;> simp

theorem IsEnd.isWordChar_or (h : IsEnd before block rest) :
    block ≠ [] ∧ (∀ c ∈ block.head?, isWordChar c = true) ∧
      ∀ c ∈ block, isWordChar c = true ∨ c = ';' := by
  obtain ⟨word, hspells, rfl⟩ | ⟨hspells, -⟩ := h.closes
  · obtain ⟨hne, hchars⟩ := hspells.isWordChar closers_checked
    refine ⟨by simp, fun c hc => ?_, fun c hc => ?_⟩
    · rw [head?_append_of_ne_nil _ hne] at hc
      exact hchars c (mem_of_head? hc)
    · rcases mem_append.mp hc with hc | hc
      · exact .inl (hchars c hc)
      · exact .inr (mem_singleton.mp hc)
  · obtain ⟨hne, hchars⟩ := hspells.isWordChar declaration_checked
    exact ⟨hne, fun c hc => hchars c (mem_of_head? hc), fun c hc => .inl (hchars c hc)⟩

theorem IsEnd.feed_not_mem (h : IsEnd before block rest) : '\n' ∉ block := by
  intro hmem
  rcases h.isWordChar_or.2.2 _ hmem with h | h <;> revert h <;> decide

/-- No word goes on where a break is due. -/
theorem words_of_mem_breakPoints (hmarked : Marked recognize [] (left ++ right))
    (hcut : left.length ∈ breakPoints (chars (left ++ right))) : ∀ c ∈ (chars left).getLast?,
      ∀ d ∈ (chars right).head?, isWordChar c = false ∨ isWordChar d = false := by
  obtain ⟨left', right', hsplit, hlength, -, hsplits, -⟩ :=
    (insertable_of_mem_breakPoints hmarked hcut).1
  obtain ⟨rfl, rfl⟩ := append_inj hsplit hlength.symm
  exact hsplits.words

/-- A break that is due behind a declaration without a semicolon is not due before one. -/
theorem head_ne_of_mem_breakPoints (hmarked : Marked recognize [] (left ++ right))
    (hcut : left.length ∈ breakPoints (chars (left ++ right)))
    (hlast : ∀ cell ∈ left.getLast?, cell.role = .code ∧ isWordChar cell.char = true) :
    ∀ c ∈ (chars right).head?, c ≠ ';' := by
  obtain ⟨found, hfound, hfree, hbreak⟩ := (mem_breakPoints hmarked).mp hcut
  obtain ⟨-, hlt, hplace⟩ := breakPoint_of_mem hmarked hfound hfree
  obtain ⟨-, hle, honly⟩ := hplace _ hbreak
  obtain ⟨cell, hcell⟩ : ∃ cell, left.getLast? = some cell :=
    Option.ne_none_iff_exists'.mp fun hnil => by
      rw [getLast?_eq_none_iff.mp hnil, length_nil] at hle
      omega
  obtain ⟨hrole, hword⟩ := hlast cell hcell
  -- The block ends where the break is due: spaces and tabs only would stand in between.
  have hstop : found.stop = left.length := by
    by_contra hne
    have hat : (left ++ right)[left.length - 1]? = some cell := by
      rw [getElem?_append_left (by omega), ← getLast?_eq_getElem?, hcell]
    have hpad := honly (left.length - 1) cell (by omega) (by omega) hat hrole
    rw [isWordChar_of_isBlank (isBlank_of_isPad hpad)] at hword
    cases hword
  obtain ⟨before, block, rest, htext, -, hstop', hend⟩ := isEnd_of_mem_occurrences hfound
  rw [chars_append, ← append_assoc] at htext
  obtain ⟨hleft, hright⟩ := append_inj htext
    (by rw [length_chars, length_append, ← hstop', hstop])
  obtain ⟨word, -, rfl⟩ | ⟨-, hrest⟩ := hend.closes
  · have hchar : (chars left).getLast? = some ';' := by
      rw [hleft, ← append_assoc, getLast?_concat]
    rw [chars, getLast?_map, hcell, Option.map_some, Option.some.injEq] at hchar
    rw [hchar] at hword
    exact absurd hword (by decide)
  · rw [hright]
    exact fun c hc => (hrest c hc).2

/-- A break that is due behind a declaration parts it from what follows. -/
theorem head_of_mem_breakPoints {before : List Cell}
    (hmarked : Marked recognize [] (before ++ (codeCells block ++ right)))
    (hspells : Spells ["END_VAR".toList] block)
    (hcut : before.length + block.length ∈
      breakPoints (chars (before ++ (codeCells block ++ right)))) :
    ∀ c ∈ (chars right).head?, isWordChar c = false ∧ c ≠ ';' := by
  obtain ⟨hne, hchars⟩ := hspells.isWordChar declaration_checked
  obtain ⟨init, d, rfl⟩ := (eq_nil_or_concat block).resolve_left hne
  have hd : isWordChar d = true := hchars d (by simp)
  have hlast : (before ++ codeCells (init.concat d)).getLast? = some ⟨d, .code⟩ := by
    rw [concat_eq_append, codeCells_append, ← append_assoc]
    exact getLast?_concat
  have hlength : before.length + (init.concat d).length =
      (before ++ codeCells (init.concat d)).length := by
    simp [codeCells]
  rw [hlength] at hcut
  rw [← append_assoc] at hmarked hcut
  refine fun c hc => ⟨?_, head_ne_of_mem_breakPoints hmarked hcut (fun cell hcell => ?_) c hc⟩
  · refine (words_of_mem_breakPoints hmarked hcut d ?_ c hc).resolve_left (by simp [hd])
    rw [chars, getLast?_map, hlast]
    rfl
  · cases hlast.symm.trans hcell
    exact ⟨rfl, hd⟩

section

variable {before' right' : List Cell} (hmarked : Marked recognize [] cells)
  (hout : fed (breakPoints (chars cells)) 0 cells = before' ++ (codeCells block ++ right'))
  (h : IsEnd (chars before') block (chars right'))
include hmarked hout h

/-- The end of a block stands in the text without the breaks too. -/
theorem IsEnd.of_fed :
    ∃ before right, cells = before ++ (codeCells block ++ right) ∧
      right' = fed (breakPoints (chars cells)) (before.length + block.length) right ∧
      IsEnd (chars before) block (chars right) := by
  obtain ⟨hne, hfirst, -⟩ := h.isWordChar_or
  obtain ⟨before, right, rfl, hright, hbefore⟩ := fed_eq_append hne h.feed_not_mem hout
  rw [Nat.zero_add] at hright hbefore
  refine ⟨before, right, rfl, hright, fun c hc => ?_, ?_⟩
  · rcases hbefore with hcut | hlast
    · obtain ⟨d, tail, rfl⟩ := exists_cons_of_ne_nil hne
      refine (words_of_mem_breakPoints hmarked hcut c hc d rfl).resolve_right ?_
      simp [hfirst d rfl]
    · refine h.start c ?_
      rwa [chars, getLast?_map, hlast, ← getLast?_map, ← chars]
  · refine h.closes.imp_right fun hbare => ⟨hbare.1, fun c hc => ?_⟩
    by_cases hcut :
        before.length + block.length ∈ breakPoints (chars (before ++ (codeCells block ++ right)))
    · exact head_of_mem_breakPoints hmarked hbare.1 hcut c hc
    · refine hbare.2 c ?_
      rwa [hright, chars, head?_map, head?_fed hcut, ← head?_map, ← chars]

/-- With the breaks of a text, lines end behind all ends of blocks. -/
theorem clear_of_isEnd : Clear false right' := by
  obtain ⟨before, right, rfl, rfl, hend⟩ := h.of_fed hmarked hout
  obtain ⟨c, tail, rfl⟩ := exists_cons_of_ne_nil hend.isWordChar_or.1
  have hhead := (hmarked.of_append rfl (by rintro cell ⟨⟩; rfl)).head?_of_codeCells
  have hlength : before.length + (c :: tail).length = (before ++ codeCells (c :: tail)).length := by
    simp [codeCells]
  rw [hlength]
  refine clear_fed hmarked (fun cut hcut => (insertable_of_mem_breakPoints hmarked hcut).1)
    _ _ right false rfl (by rw [append_assoc]) hhead fun p hp => ?_
  -- The break that is due behind this end is one of the breaks.
  have hfound := hend.mem_occurrences
  rw [← chars_codeCells (c :: tail), ← chars_append, ← chars_append, chars_codeCells, length_chars,
    hlength] at hfound
  refine (mem_breakPoints hmarked).mpr ⟨_, hfound, ?_, ?_⟩
  · have hcell : (before ++ (codeCells (c :: tail) ++ right))[before.length]? =
        some ⟨c, .code⟩ := by
      simp
    exact (hmarked.isProtected_eq_false_iff hcell).mpr rfl
  · have hcomments := @dropWhile_comments (before ++ codeCells (c :: tail)) right hhead
    rw [append_assoc] at hcomments
    rw [hcomments]
    exact hp

end

/-- The ends of blocks that are found outside literals. -/
theorem exists_isEnd (hmarked : Marked recognize [] cells) {found : Occurrence Unit}
    (hfound : found ∈ occurrences findEnd (chars cells))
    (hfree : isProtected (spansFrom 0 cells).toArray found.start = false) :
    ∃ before block right, cells = before ++ (codeCells block ++ right) ∧
      found.stop = (before ++ codeCells block).length ∧
      IsEnd (chars before) block (chars right) := by
  obtain ⟨before, block, right, rfl, -, hstart, hstop⟩ := exists_endsBlock hmarked hfound hfree
  obtain ⟨before', block', rest, htext, hstart', hstop', hend⟩ := isEnd_of_mem_occurrences hfound
  rw [chars_append, chars_append, chars_codeCells] at htext
  obtain ⟨rfl, hbehind⟩ := append_inj htext (by rw [length_chars]; omega)
  obtain ⟨rfl, rfl⟩ := append_inj hbehind (by omega)
  exact ⟨before, block, right, rfl, by rw [hstop, length_append, codeCells,
    length_map], hend⟩

theorem fed_breakPoints (hmarked : Marked recognize [] cells) :
    Marked recognize [] (fed (breakPoints (chars cells)) 0 cells) ∧
      chars (fed (breakPoints (chars cells)) 0 cells) = breakBlocks (chars cells) := by
  obtain ⟨out, hout, hmoves, -, -, rfl⟩ :=
    insertions_respacing (breakPoints (chars cells)) [] cells rfl
      (fun cut hcut => ⟨(insertable_of_mem_breakPoints hmarked hcut).1, Nat.zero_le cut⟩)
      (breakPoints_sorted hmarked)
  exact ⟨hmoves.marked hmarked, hout.symm⟩

/-- No further break is due in a text with its breaks. -/
theorem breakPoints_breakBlocks (text : List Char) : breakPoints (breakBlocks text) = [] := by
  obtain ⟨cells, rfl, hmarked⟩ := exists_marked_recognize text
  obtain ⟨hout, hchars⟩ := fed_breakPoints hmarked
  rw [← hchars, eq_nil_iff_forall_not_mem]
  intro cut hcut
  obtain ⟨found, hfound, hfree, hbreak⟩ := (mem_breakPoints hout).mp hcut
  obtain ⟨before, block, right, hcells, hstop, hend⟩ := exists_isEnd hout hfound hfree
  have hclear := clear_of_isEnd hmarked hcells hend
  have hnone := hclear.breakPoint_eq_none hout (before ++ codeCells block)
    (by rw [hcells, append_assoc])
  rw [← dropWhile_comments hclear.head?_not_inside, append_assoc, ← hcells, ← hstop,
    hbreak] at hnone
  cases hnone

end LineBreak

end StructuredText
