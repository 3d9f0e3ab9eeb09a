import StructuredText.Proofs.HeaderWords

/-!
# Headers that are on one line

Putting the headers of a family on one line changes gaps between words only. So the same headers are
found in the text that comes out, each on one line or not to be joined, and nothing is left to do.

Results:
1. `Header.exists_walk`: the headers of a family are found and joined from left to right.
2. `HeaderWalk.not_joinable`: no header that is found in what comes out may be joined.
3. `Header.join_join`: joining headers twice is joining them once, and a header that goes over
   several lines holds a line comment or a line that opens, continues or closes a block.
-/

namespace StructuredText

open List Literal

variable {cells left block right out : List Cell} {before : List Char}

namespace Header

/-! ## Headers that may be joined -/

/-- A header of several lines without line comments, none of whose further lines opens, continues or
closes a block. -/
def Joinable (block : List Cell) : Prop :=
  isJoinable (block.map (veil '\x00')) = true ∧ ∀ cell ∈ block, cell.role ≠ .opening .lineComment

/-- Whether what is found is put on one line. -/
def isWanted (cells : List Cell) (found : Occurrence Unit) : Bool :=
  isJoinable (slice (cells.map (veil '\x00')) found.start found.stop) &&
    !(spansFrom 0 cells).any fun span =>
      span.kind == .lineComment && found.start ≤ span.start && span.start < found.stop

theorem isWanted_iff (hcells : cells = left ++ (block ++ right)) {found : Occurrence Unit}
    (hstart : found.start = left.length) (hstop : found.stop = (left ++ block).length) :
    isWanted cells found = true ↔ Joinable block := by
  rw [isWanted, Bool.and_eq_true, hstart, hstop, hcells, slice_map, Joinable]
  refine and_congr_right fun _ => ?_
  simp only [Bool.not_eq_true', any_eq_false, Bool.and_eq_true, beq_iff_eq, decide_eq_true_eq,
    not_and, Nat.not_lt]
  constructor
  · rintro h ⟨c, role⟩ hmem hrole
    cases hrole
    obtain ⟨init, tail, rfl⟩ := append_of_mem hmem
    obtain ⟨span, hspan, hplace, hkind⟩ :=
      @mem_spansFrom_of_opening c .lineComment (tail ++ right) (left ++ init) 0
    have := h span (by simpa using hspan) ⟨hkind, by rw [hplace, length_append]; omega⟩
    simp only [hplace, length_append, length_cons] at this
    omega
  · rintro h span hspan ⟨hkind, hle⟩
    by_contra hlt
    rw [Nat.not_le] at hlt
    obtain ⟨c, hc⟩ := opening_of_mem_spansFrom 0 hspan
    rw [length_append] at hlt
    rw [Nat.sub_zero, getElem?_append_right hle, getElem?_append_left (by omega),
      hkind] at hc
    exact h _ (mem_of_getElem? hc) rfl

end Header

/-! ## Headers from left to right -/

/-- The headers of a family are looked for from left to right. A header that may be joined is put on
one line, and everything else is kept. -/
inductive HeaderWalk (family : Header.Family) : List Char → List Cell → List Cell → Prop
  | nil {before : List Char} : HeaderWalk family before [] []
  | miss {before : List Char} {cell : Cell} {rest out : List Cell} :
      Header.find family false ⟨before.length, before, (cell :: rest).map (veil '\x00')⟩ = none →
      HeaderWalk family (veil '\x00' cell :: before) rest out →
      HeaderWalk family before (cell :: rest) (cell :: out)
  | kept {before : List Char} {block rest out : List Cell} :
      Header.find family false ⟨before.length, before, (block ++ rest).map (veil '\x00')⟩ =
        some (block.length, ()) →
      ¬ Header.Joinable block →
      HeaderWalk family ((block.map (veil '\x00')).reverse ++ before) rest out →
      HeaderWalk family before (block ++ rest) (block ++ out)
  | joined {before : List Char} {block line rest out : List Cell} :
      Header.find family false ⟨before.length, before, (block ++ rest).map (veil '\x00')⟩ =
        some (block.length, ()) →
      IsHeader line → Flat line → Tightened block line →
      HeaderWalk family ((block.map (veil '\x00')).reverse ++ before) rest out →
      HeaderWalk family before (block ++ rest) (line ++ out)

/-- Places further on leave the text before them as it is. -/
theorem JoinedAt.of_append {left first rest out : List Cell} {places : List (Nat × Nat)}
    (h : JoinedAt left places (first ++ rest) out)
    (hplaces : ∀ place ∈ places, (left ++ first).length ≤ place.1) :
    ∃ out', out = first ++ out' ∧ JoinedAt (left ++ first) places rest out' := by
  generalize hcells : first ++ rest = cells at h
  cases h with
  | nil => exact ⟨rest, hcells.symm, .nil _ _⟩
  | @cons _ segment block line right out places hblock hright hline hrespaces hflat
      htightened hjoined =>
    have hle := hplaces _ mem_cons_self
    simp only [length_append] at hle
    obtain ⟨segment, rfl, rfl⟩ := append_eq_append_of_length_le hcells (by omega)
    refine ⟨segment ++ (line ++ out), by simp, ?_⟩
    rw [← append_assoc left first segment] at hjoined ⊢
    exact .cons hblock hright hline hrespaces hflat htightened hjoined

/-- A header at the first place is put on one line. -/
theorem JoinedAt.of_place {rest : List Cell} {places : List (Nat × Nat)}
    (h : JoinedAt left ((left.length, (left ++ block).length) :: places) (block ++ rest) out) :
    ∃ line out', out = line ++ out' ∧ IsHeader line ∧ Flat line ∧ Tightened block line ∧
      JoinedAt (left ++ block) places rest out' := by
  generalize hplace : (left.length, (left ++ block).length) :: places = all at h
  generalize hcells : block ++ rest = cells at h
  cases h with
  | nil => cases hplace
  | @cons _ segment block' line right out places' _ _ _ hrespaces hflat htightened hjoined =>
    obtain ⟨hfirst, rfl⟩ := cons_eq_cons.mp hplace
    obtain ⟨hstart, hstop⟩ := Prod.mk.inj hfirst
    simp only [length_append] at hstart hstop
    obtain rfl : segment = [] := eq_nil_of_length_eq_zero (by omega)
    rw [nil_append] at hcells
    obtain ⟨rfl, rfl⟩ := append_inj hcells (by rw [length_nil] at hstop; omega)
    exact ⟨line, out, rfl, hrespaces.header, hflat, htightened, by simpa using hjoined⟩

namespace Header

/-- Where the headers stand that are put on one line, from some place on. -/
def placesFrom (family : Family) (cells left right : List Cell) : List (Nat × Nat) :=
  ((occurrencesFrom (find family) left.length 0 (left.map (veil '\x00')).reverse
    (right.map (veil '\x00'))).filter (isWanted cells)).map fun found => (found.start, found.stop)

variable {family : Family}

theorem le_of_mem_placesFrom :
    ∀ place ∈ placesFrom family cells left right, left.length ≤ place.1 := by
  intro place hplace
  obtain ⟨found, hfound, rfl⟩ := mem_map.mp hplace
  exact (le_start_of_mem_occurrencesFrom _ _ _ found (mem_filter.mp hfound).1).1

theorem placesFrom_miss {cell : Cell}
    (h : find family false ⟨left.length, (left.map (veil '\x00')).reverse,
      (cell :: right).map (veil '\x00')⟩ = none) :
    placesFrom family cells left (cell :: right) =
      placesFrom family cells (left ++ [cell]) right := by
  rw [placesFrom, map_cons, occurrencesFrom_miss (by simpa using h), placesFrom]
  simp

theorem placesFrom_found (hblock : block ≠ [])
    (h : find family false ⟨left.length, (left.map (veil '\x00')).reverse,
      (block ++ right).map (veil '\x00')⟩ = some (block.length, ())) :
    placesFrom family cells left (block ++ right) =
      (if isWanted cells ⟨left.length, (left ++ block).length, ()⟩ then
        [(left.length, (left ++ block).length)] else []) ++
        placesFrom family cells (left ++ block) right := by
  have hne : block.map (veil '\x00') ≠ [] := by simpa using hblock
  rw [map_append] at h
  rw [placesFrom, map_append, occurrencesFrom_found hne (by rw [h, length_map]),
    placesFrom]
  simp only [length_map, length_append, filter_cons, map_append,
    reverse_append]
  split <;> simp

/-- The headers of a family are found and joined from left to right. -/
theorem exists_walk (hfamily : family ∈ families) (n : Nat) :
    ∀ {left right out : List Cell}, right.length = n → cells = left ++ right →
      JoinedAt left (placesFrom family cells left right) right out →
      HeaderWalk family (left.map (veil '\x00')).reverse right out := by
  induction n using Nat.strongRecOn with
  | ind n ih =>
    intro left right out hn hcells h
    cases right with
    | nil =>
      rw [placesFrom, map_nil, occurrencesFrom_nil (find_isProper hfamily)] at h
      cases h
      exact .nil
    | cons cell right =>
      cases hfind : find family false ⟨left.length, (left.map (veil '\x00')).reverse,
          (cell :: right).map (veil '\x00')⟩ with
      | none =>
        rw [placesFrom_miss hfind, ← singleton_append] at h
        obtain ⟨out, rfl, hlater⟩ := h.of_append le_of_mem_placesFrom
        refine .miss (by simpa using hfind) ?_
        simpa using ih right.length (by rw [← hn]; simp) rfl (by simpa using hcells) hlater
      | some found =>
        obtain ⟨length, ⟨⟩⟩ := found
        obtain ⟨hpos, hle⟩ := find_isProper hfamily _ _ _ _ hfind
        rw [length_map] at hle
        obtain ⟨block, tail, hsplit, rfl⟩ :
            ∃ block tail, cell :: right = block ++ tail ∧ block.length = length :=
          ⟨(cell :: right).take length, (cell :: right).drop length,
            (take_append_drop _ _).symm, by rw [length_take]; omega⟩
        have hne : block ≠ [] := length_pos_iff.mp hpos
        have hbefore : (left.map (veil '\x00')).reverse.length = left.length := by simp
        rw [hsplit] at hfind h hn hcells ⊢
        rw [placesFrom_found hne hfind] at h
        rw [← hbefore] at hfind
        have hlater : ∀ {out},
            JoinedAt (left ++ block) (placesFrom family cells (left ++ block) tail)
            tail out → HeaderWalk family
              ((block.map (veil '\x00')).reverse ++ (left.map (veil '\x00')).reverse) tail out := by
          intro out hjoined
          have hwalk := ih tail.length (by rw [← hn, length_append]; omega) rfl
            (by simp [hcells]) hjoined
          rwa [map_append, reverse_append] at hwalk
        by_cases hwanted : isWanted cells ⟨left.length, (left ++ block).length, ()⟩ = true
        · rw [if_pos hwanted] at h
          obtain ⟨line, out, rfl, hline, hflat, htightened, hjoined⟩ := JoinedAt.of_place h
          exact .joined hfind hline hflat htightened (hlater hjoined)
        · rw [if_neg hwanted, nil_append] at h
          obtain ⟨out, rfl, hjoined⟩ := h.of_append le_of_mem_placesFrom
          exact .kept hfind (fun hblock => hwanted ((isWanted_iff hcells rfl rfl).mpr hblock))
            (hlater hjoined)

end Header

/-! ## What is found behind a walk -/

/-- Tightened blanks are changed gaps of the masked text. -/
theorem Patched.regapped (h : Patched Tightens cells out) :
    Regapped (cells.map (veil '\x00')) (out.map (veil '\x00')) := by
  have hveil : ∀ text, (codeCells text).map (veil '\x00') = text := by
    intro text
    rw [codeCells, map_map]
    exact map_id text
  induction h with
  | nil => exact .nil
  | keep cell _ ih => exact .keep _ ih
  | @change block written rest out hne _ hhit _ ih =>
    rw [map_append, map_append, hveil, hveil]
    refine .change hne hhit.nonempty (fun c hc => hhit.words c (mem_append_left _ hc))
      (fun c hc => hhit.words c (mem_append_right _ hc)) ?_ ih
    have hmem : ∀ text : List Char, ';' ∈ text ↔ ';' ∈ text.filter (!isBlank ·) := by
      intro text
      rw [mem_filter]
      exact ⟨fun h => ⟨h, by decide⟩, And.left⟩
    rw [hmem block, hmem written, hhit.signs]

theorem Tightened.regaps (h : Tightened cells out) :
    Regaps (cells.map (veil '\x00')) (out.map (veil '\x00')) :=
  h.lift (List.map (veil '\x00')) fun _ _ hstep => hstep.regapped

theorem HeaderWalk.regaps {family : Header.Family} (h : HeaderWalk family before cells out) :
    Regaps (cells.map (veil '\x00')) (out.map (veil '\x00')) := by
  induction h with
  | nil => exact .refl
  | @miss _ cell _ _ _ _ ih => exact @Regaps.append _ _ [veil '\x00' cell] _ .refl ih
  | kept _ _ _ ih =>
    rw [map_append, map_append]
    exact Regaps.append .refl ih
  | joined _ _ _ htightened _ ih =>
    rw [map_append, map_append]
    exact htightened.regaps.append ih

/-- A header on one line is not joined. -/
theorem Flat.not_joinable {line : List Cell} (h : Flat line) : ¬ Header.Joinable line := by
  rintro ⟨hjoinable, -⟩
  have hfeed : '\n' ∉ line.map (veil '\x00') := by
    intro hmem
    obtain ⟨⟨c, role⟩, hcell, hveil⟩ := mem_map.mp hmem
    cases role with
    | code => exact h _ hcell rfl hveil
    | opening kind | inside kind => cases hveil
  rw [Header.isJoinable, lines_of_not_mem hfeed] at hjoinable
  cases hjoinable

/-- All that is found in what comes out are headers that may not be joined. -/
def NoneJoinable (family : Header.Family) (pos : Nat) (before : List Char) (out : List Cell) :
    Prop :=
  ∀ found ∈ occurrencesFrom (Header.find family) pos 0 before (out.map (veil '\x00')),
    ∃ left block right, out = left ++ (block ++ right) ∧ found.start = pos + left.length ∧
      found.stop = pos + (left ++ block).length ∧ ¬ Header.Joinable block

theorem startsWithWordChar_reverse_append {text : List Char}
    (h : ∃ c ∈ text.getLast?, isWordChar c = true) (before : List Char) :
    startsWithWordChar (text.reverse ++ before) = true := by
  obtain ⟨c, hc, hword⟩ := h
  obtain ⟨init, rfl⟩ := getLast?_eq_some_iff.mp hc
  rw [reverse_append]
  exact hword

section

variable {family : Header.Family} (hfamily : family ∈ Header.families)
include hfamily

theorem exists_last_of_find {pos : Nat} {rest : List Cell}
    (h : Header.find family false ⟨pos, before, (block ++ rest).map (veil '\x00')⟩ =
      some (block.length, ())) : ∃ c ∈ (block.map (veil '\x00')).getLast?, isWordChar c = true := by
  obtain ⟨found, tail, hsplit, hlength, -, c, hc, hsign⟩ := Header.reads_find hfamily h
  have hsplit : (block ++ rest).map (veil '\x00') = found ++ tail := hsplit
  rw [map_append] at hsplit
  obtain ⟨rfl, -⟩ := append_inj hsplit (by rw [length_map, hlength])
  rw [isWordSign, Bool.and_eq_true] at hsign
  exact ⟨c, hc, hsign.1⟩

/-- A header that may not be joined, with such headers behind it. -/
theorem NoneJoinable.append {pos : Nat} {before before' : List Char}
    {block line rest out : List Cell}
    (hbefore : startsWithWordChar before = startsWithWordChar before')
    (hfind : Header.find family false ⟨before.length, before, (block ++ rest).map (veil '\x00')⟩ =
      some (block.length, ()))
    (hblock : Regaps (block.map (veil '\x00')) (line.map (veil '\x00')))
    (hrest : Regaps (rest.map (veil '\x00')) (out.map (veil '\x00')))
    (hlast : ∃ c ∈ (line.map (veil '\x00')).getLast?, isWordChar c = true)
    (hline : ¬ Header.Joinable line)
    (hlater : NoneJoinable family (pos + line.length)
      ((line.map (veil '\x00')).reverse ++ before') out) :
    NoneJoinable family pos before' (line ++ out) := by
  intro found hfound
  rw [map_append, ← length_map (veil '\x00')] at hfind
  have hfind' := @Regaps.find_append _ _ family hfamily _ pos _ _ hbefore _ _ hblock
    hrest hlast hfind
  have hne : line.map (veil '\x00') ≠ [] := by
    rintro hnil
    obtain ⟨c, hc, -⟩ := hlast
    rw [hnil] at hc
    cases hc
  rw [map_append, occurrencesFrom_found hne hfind', length_map] at hfound
  rcases mem_cons.mp hfound with rfl | hfound
  · exact ⟨[], line, out, rfl, rfl, rfl, hline⟩
  · obtain ⟨left, block', right, rfl, hstart, hstop, hblock'⟩ := hlater found hfound
    refine ⟨line ++ left, block', right, by simp, ?_, ?_, hblock'⟩
    · rw [hstart, length_append]
      omega
    · simp only [hstop, length_append]
      omega

/-- No header that is found in what comes out may be joined. -/
theorem HeaderWalk.not_joinable (h : HeaderWalk family before cells out) : ∀ pos before',
      startsWithWordChar before = startsWithWordChar before' →
      NoneJoinable family pos before' out := by
  induction h with
  | nil =>
    intro pos before' _ found hfound
    rw [map_nil, occurrencesFrom_nil (Header.find_isProper hfamily)] at hfound
    cases hfound
  | @miss before cell rest out hfind hwalk ih =>
    intro pos before' hbefore found hfound
    have hnone : Header.find family false ⟨pos, before', (cell :: out).map (veil '\x00')⟩ = none :=
      (HeaderWalk.miss hfind hwalk).regaps.find_eq_none hfamily hbefore hfind
    rw [map_cons, occurrencesFrom_miss hnone] at hfound
    obtain ⟨left, block, right, rfl, hstart, hstop, hblock⟩ :=
      ih (pos + 1) (veil '\x00' cell :: before') rfl found hfound
    refine ⟨cell :: left, block, right, rfl, ?_, ?_, hblock⟩
    · rw [hstart, length_cons]
      omega
    · rw [hstop, cons_append, length_cons]
      omega
  | @kept before block rest out hfind hblock hwalk ih =>
    intro pos before' hbefore
    have hlast := exists_last_of_find hfamily hfind
    refine .append hfamily hbefore hfind .refl hwalk.regaps hlast hblock (ih _ _ ?_)
    rw [startsWithWordChar_reverse_append hlast, startsWithWordChar_reverse_append hlast]
  | @joined before block line rest out hfind hline hflat htightened hwalk ih =>
    intro pos before' hbefore
    have hlast := exists_last_of_find hfamily hfind
    have hlast' : ∃ c ∈ (line.map (veil '\x00')).getLast?, isWordChar c = true := by
      obtain ⟨c, hc, hsign⟩ := hline.last
      rw [isWordSign, Bool.and_eq_true] at hsign
      exact ⟨c, by rw [getLast?_map, hc]; rfl, hsign.1⟩
    refine .append hfamily hbefore hfind htightened.regaps hwalk.regaps hlast' hflat.not_joinable
      (ih _ _ ?_)
    rw [startsWithWordChar_reverse_append hlast, startsWithWordChar_reverse_append hlast']

end

/-! ## Joining twice -/

namespace Header

variable {family : Family}

/-- Nothing is left to join in a text with its headers joined. -/
theorem wanted_join (hfamily : family ∈ families) (hmarked : Marked recognize [] cells) :
    ∃ out, Marked recognize [] out ∧ chars out = join family (chars cells) ∧
      ∀ found ∈ occurrences (find family) (out.map (veil '\x00')), isWanted out found = false := by
  obtain ⟨out, hout, hjoined⟩ := join_joinedAt hfamily hmarked
  refine ⟨out, (hjoined.respacing hmarked).marked hmarked, hout, fun found hfound => ?_⟩
  have hwalk := exists_walk hfamily cells.length rfl rfl hjoined
  obtain ⟨left, block, right, hcells, hstart, hstop, hblock⟩ :=
    hwalk.not_joinable hfamily 0 [] rfl found hfound
  rw [Bool.eq_false_iff, ne_eq, isWanted_iff hcells (by omega) (by omega)]
  exact hblock

/-- Of several lines of a header that is not joined, a further one opens, continues or closes a
block. -/
theorem exists_structural {masked : List Char} (hfeed : '\n' ∈ masked)
    (h : isJoinable masked = false) : ∃ line ∈ (lines masked).tail, isStructural line = true := by
  obtain ⟨first, rest, rfl⟩ := append_of_mem hfeed
  obtain ⟨line, others, hfirst⟩ := exists_cons_of_ne_nil (lines_ne_nil first)
  obtain ⟨next, more, hrest⟩ := exists_cons_of_ne_nil (lines_ne_nil rest)
  rw [isJoinable, lines_append_feed, hfirst, hrest] at h
  rw [lines_append_feed, hfirst, hrest]
  have hfurther : (!(others ++ next :: more).any isStructural) = false := by
    cases others <;> exact h
  rw [Bool.not_eq_false'] at hfurther
  exact any_eq_true.mp hfurther

/-- A header stays on several lines: it holds a line comment, or one of its further lines opens,
continues or closes a block. -/
def StaysBroken (document : List Char) (found : Occurrence Unit) : Prop :=
  (∃ span ∈ scan document, span.kind = .lineComment ∧ found.start ≤ span.start ∧
    span.start < found.stop) ∨
  ∃ line ∈ (lines (slice (masked (scan document) document) found.start found.stop)).tail,
    LineKind.ofLine line = .opener ∨ LineKind.ofLine line = .closer ∨
      LineKind.ofLine line = .continuation

/-- Joining the headers of a family twice is joining them once. A header of the outcome with a line
feed outside literals stays on several lines for a reason. -/
theorem join_join (hfamily : family ∈ families) (text : List Char) :
    join family (join family text) = join family text ∧
      ∀ found ∈ occurrences (find family) (masked (scan (join family text)) (join family text)),
        '\n' ∈ slice (masked (scan (join family text)) (join family text)) found.start found.stop →
        StaysBroken (join family text) found := by
  obtain ⟨cells, rfl, hmarked⟩ := exists_marked_recognize text
  obtain ⟨out, hout, hchars, hnone⟩ := wanted_join hfamily hmarked
  have hmasked : masked (scan (chars out)) (chars out) = out.map (veil '\x00') := by
    rw [hout.scan_eq]
    exact maskSpans_eq hout '\x00'
  rw [← hchars]
  refine ⟨?_, fun found hfound hfeed => ?_⟩
  · have hplaces : places family out = [] := by
      rw [places, map_eq_nil_iff]
      exact filter_eq_nil_iff.mpr fun found hfound => by
        rw [← isWanted, hnone found hfound]
        exact Bool.false_ne_true
    rw [join, edits_eq hout, hplaces]
    rfl
  · rw [hmasked] at hfound hfeed
    have hwanted := hnone found hfound
    rw [isWanted, Bool.and_eq_false_iff] at hwanted
    rw [StaysBroken, hmasked, hout.scan_eq]
    rcases hwanted with hstructural | hcomment
    · obtain ⟨line, hline, hkind⟩ := exists_structural hfeed hstructural
      refine .inr ⟨line, hline, ?_⟩
      rw [isStructural] at hkind
      cases hof : LineKind.ofLine line <;> simp [hof] at hkind ⊢
    · left
      simpa [and_assoc] using hcomment

/-- A header that is joined, and one that a line comment keeps on two lines. -/
theorem join_join_if :
    join ⟨"IF".toList, "THEN".toList⟩ "IF a\n , b THEN IF c // d\nTHEN".toList =
        "IF a, b THEN IF c // d\nTHEN".toList ∧
      join ⟨"IF".toList, "THEN".toList⟩ "IF a, b THEN IF c // d\nTHEN".toList =
        "IF a, b THEN IF c // d\nTHEN".toList := by
  have hjoin : join ⟨"IF".toList, "THEN".toList⟩ "IF a\n , b THEN IF c // d\nTHEN".toList =
      "IF a, b THEN IF c // d\nTHEN".toList := by
    decide +kernel
  refine ⟨hjoin, ?_⟩
  have hfamily : ⟨"IF".toList, "THEN".toList⟩ ∈ families := mem_cons_self
  have htwice := (join_join hfamily "IF a\n , b THEN IF c // d\nTHEN".toList).1
  rwa [hjoin] at htwice

end Header

end StructuredText
