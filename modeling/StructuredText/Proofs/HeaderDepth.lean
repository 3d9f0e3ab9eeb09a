import StructuredText.Proofs.HeaderLines

/-!
# The depth behind headers on one line

A header that is put on one line takes with it what stands behind it on its last line. The depth of
blocks stays if no block is opened and no header of the same family starts there, and either no
block is closed on a further line of the header, or the one that the header's first line opens is
closed at the end of its last line.

Results:
1. `Spot.depthBehind_eq`: putting one such header on one line keeps the depth.
2. `JoinedAt.depthBehind_eq`: so does putting several of them on one line each.
3. `Header.joinAll_depth`: the depth behind a text stays, family after family.
4. `Header.joinAll_depth_nested`: behind other headers the depth may change.
-/

namespace StructuredText

open List Literal LineKind

namespace Header

/-- The line of a document that holds an offset. -/
def lineAt (document : List Char) (offset : Nat) : Option IndentedLine :=
  (Indentation.scan document)[(document.take offset).count '\n']?

/-- The first line of a header opens a block that is closed at the end of its last line, and no line
ends in a literal of the header. -/
def isEnclosed (document : List Char) (edit : Edit) : Bool :=
  !edit.text.contains '\n' && (lineAt document edit.start).any fun first =>
    first.kind == some .opener && (lineAt document edit.stop).any (·.depth == first.level)

/-- No block is opened and no header of the family starts behind a header on its last line. Either
no block is closed on a further line of the header, or only the one that its first line opens. -/
def isSettled (family : Family) (document : List Char) (edit : Edit) : Bool :=
  let code := mask document
  let header := slice code edit.start edit.stop
  let behind := (code.drop edit.stop).takeWhile (· != '\n')
  !hasWord openers behind && !hasWord [family.keyword] behind &&
    (!hasWord closers (header.dropWhile (· != '\n') ++ behind) || isEnclosed document edit)

/-- All headers that are put on one line, family after family, are settled. -/
def areSettled : List Family → List Char → Bool
  | [], _ => true
  | family :: families, document =>
      (edits family document).all (isSettled family document) &&
        areSettled families (join family document)

end Header

/-! ## Lines at a place -/

theorem Indentation.codeLine_of_opener {depth : Nat} {content : List Char}
    (h : (codeLine depth content).kind = some .opener) :
    (codeLine depth content).level = depth ∧ (codeLine depth content).depth = depth + 1 := by
  cases content with
  | nil => cases h
  | cons c content =>
    have hkind : ofLine (c :: content) = .opener := Option.some.inj h
    change levelAt (ofLine (c :: content)) depth = depth ∧
      depthAfter (ofLine (c :: content)) depth = depth + 1
    rw [hkind]
    exact ⟨rfl, rfl⟩

/-- A line that opens a block stands at the depth before it. -/
theorem Indentation.place_of_opener {spans : Array Span} {start depth : Nat} {line : List Char}
    (h : (place spans start depth line).kind = some .opener) :
    (place spans start depth line).level = depth ∧
      (place spans start depth line).depth = depth + 1 := by
  unfold place at h ⊢
  split at h
  · cases h
  · exact codeLine_of_opener h

section

variable {family : Header.Family} {first start block behind tail : List Cell}

theorem Header.lineAt_eq (hmarked : Marked recognize [] (first ++ (start ++ behind ++ tail)))
    (hfirst : StartsLine first) (hline : '\n' ∉ chars (start ++ behind))
    (htail : EndsLine (chars tail)) :
    ∃ spans, lineAt (chars (first ++ (start ++ behind ++ tail))) (first ++ start).length =
      some (Indentation.place spans first.length (depthBehind 0 first) (chars (start ++ behind))) ∧
      (Indentation.place spans first.length (depthBehind 0 first) (chars (start ++ behind))).depth =
        lineDepth (depthBehind 0 first) (start ++ behind) := by
  refine ⟨_, ?_, Indentation.depth_place hmarked rfl _⟩
  have hstart : '\n' ∉ chars start := by
    rw [chars_append, mem_append, not_or] at hline
    exact hline.1
  have htake : (chars (first ++ (start ++ behind ++ tail))).take (first ++ start).length =
      chars (first ++ start) := by
    rw [append_assoc, ← append_assoc first, chars_append,
      take_left' (length_chars _)]
  rw [lineAt, htake, chars_append first start, count_append, count_eq_zero.mpr hstart,
    Nat.add_zero, Indentation.scan_getElem? hmarked hfirst hline htail]

/-- The first line of an enclosed header opens a block that is closed at the end of its last
line. -/
theorem Header.enclosed
    (hmarked : Marked recognize [] (first ++ start ++ (block ++ (behind ++ tail))))
    (hfirst : StartsLine first) (hstart : '\n' ∉ chars start) (hbehind : '\n' ∉ chars behind)
    (htail : EndsLine (chars tail)) {text : List Char}
    (h : isEnclosed (chars (first ++ start ++ (block ++ (behind ++ tail))))
      ⟨(first ++ start).length, (first ++ start ++ block).length, text⟩ = true) :
    '\n' ∉ text ∧ ∃ line rest, start ++ (block ++ behind) = line ++ rest ∧ '\n' ∉ chars line ∧
      EndsLine (chars rest) ∧ lineDepth (depthBehind 0 first) line = depthBehind 0 first + 1 ∧
      depthBehind (depthBehind 0 first) (line ++ rest) = depthBehind 0 first := by
  obtain ⟨line, rest, hcells, hline, hrest⟩ := exists_endsLine (start ++ (block ++ behind))
  -- The line that the header starts on, and the one that it ends on.
  obtain ⟨more, rfl, hmore⟩ := exists_append_of_endsLine hstart hrest hcells
  obtain ⟨before, last, hsplit, hbefore, hlast⟩ := exists_startsLine (first ++ start ++ block)
  have hwhole : first ++ start ++ (block ++ (behind ++ tail)) =
      first ++ (start ++ more ++ (rest ++ tail)) := by
    rw [append_assoc, ← append_assoc (start ++ more), ← hcells]
    simp
  have hwhole' : first ++ start ++ (block ++ (behind ++ tail)) =
      before ++ (last ++ behind ++ tail) := by
    rw [← append_assoc, hsplit]
    simp
  have hlastLine : '\n' ∉ chars (last ++ behind) := by
    rw [chars_append, mem_append, not_or]
    exact ⟨hlast, hbehind⟩
  obtain ⟨spans, hopening, hopened⟩ :=
    lineAt_eq (hwhole ▸ hmarked) hfirst hline (hrest.append htail)
  obtain ⟨spans', hending, hended⟩ := lineAt_eq (hwhole' ▸ hmarked) hbefore hlastLine htail
  rw [← hwhole] at hopening
  rw [← hwhole', ← hsplit] at hending
  simp only [isEnclosed, hopening, hending, Option.any_some, Bool.and_eq_true, Bool.not_eq_true',
    beq_iff_eq, contains_eq_mem, decide_eq_false_iff_not] at h
  obtain ⟨htext, hkind, hlevel⟩ := h
  obtain ⟨hplaced, hdepth⟩ := Indentation.place_of_opener hkind
  refine ⟨htext, start ++ more, rest, hcells, hline, hrest, by rw [← hopened, hdepth], ?_⟩
  rw [hended, hplaced] at hlevel
  rw [← hcells, ← depthBehind_append hfirst, ← hlevel, ← depthBehind_line hlastLine,
    ← depthBehind_append hbefore, ← append_assoc before, ← hsplit]
  simp

/-- What is behind a header on its last line, in the masked text. -/
theorem takeWhile_map_shade (hbehind : '\n' ∉ chars behind) (htail : EndsLine (chars tail)) :
    ((behind ++ tail).map shade).takeWhile (· != '\n') = behind.map shade := by
  have hline : ∀ c ∈ behind.map shade, (c != '\n') = true := by
    intro c hc
    obtain ⟨cell, hcell, rfl⟩ := mem_map.mp hc
    have hfeed : cell.char ≠ '\n' := fun hfeed => hbehind (mem_map.mpr ⟨cell, hcell, hfeed⟩)
    rw [shade]
    split
    · simpa using hfeed
    · decide
  rw [map_append, takeWhile_append_of_pos hline]
  cases tail with
  | nil => simp
  | cons feed tail =>
    have hfeed : feed.char = '\n' := htail _ rfl
    rw [map_cons, shade_feed hfeed, takeWhile_cons_of_neg (by simp), append_nil]

/-- What it means for a header to be settled. -/
theorem Header.settled {left : List Cell} (hfamily : family ∈ families)
    (hmarked : Marked recognize [] (left ++ (block ++ (behind ++ tail))))
    (hbehind : '\n' ∉ chars behind) (htail : EndsLine (chars tail)) {edit : Edit}
    (hstart : edit.start = left.length) (hstop : edit.stop = (left ++ block).length)
    (h : isSettled family (chars (left ++ (block ++ (behind ++ tail)))) edit = true) :
    codeHas openers behind = false ∧ codeHas [family.keyword] behind = false ∧
      (hasWord closers ((block.map shade).dropWhile (· != '\n') ++ behind.map shade) = false ∨
        isEnclosed (chars (left ++ (block ++ (behind ++ tail)))) edit = true) := by
  have hslice := slice_map shade left block (behind ++ tail)
  have hdrop : ((left ++ (block ++ (behind ++ tail))).map shade).drop (left ++ block).length =
      (behind ++ tail).map shade := by
    rw [← append_assoc, map_append, drop_left' (length_map shade)]
  rw [isSettled, mask_eq hmarked, hstart, hstop] at h
  simp only [hslice, hdrop, takeWhile_map_shade hbehind htail, Bool.and_eq_true, Bool.or_eq_true,
    Bool.not_eq_true', hasWord_map_shade openers_checked,
    hasWord_map_shade (keyword_checked hfamily)] at h
  simpa [and_assoc] using h

/-- Putting a settled header on one line keeps the depth. -/
theorem Spot.depthBehind_eq (h : Spot family (first ++ start) block (behind ++ tail))
    (hmarked : Marked recognize [] (first ++ start ++ (block ++ (behind ++ tail))))
    (hfirst : StartsLine first) (hstart : '\n' ∉ chars start) (hbehind : '\n' ∉ chars behind)
    (htail : EndsLine (chars tail)) {line : List Cell} (hrespaces : RespacesHeader block line)
    (hflat : Flat line) (htightened : Tightened block line)
    (hsettled : Header.isSettled family (chars (first ++ start ++ (block ++ (behind ++ tail))))
      ⟨(first ++ start).length, (first ++ start ++ block).length, chars line⟩ = true) :
    depthBehind (depthBehind 0 first) (start ++ (line ++ behind)) =
      depthBehind (depthBehind 0 first) (start ++ (block ++ behind)) := by
  have hretold : Retold (start ++ (block ++ behind)) (start ++ (line ++ behind)) := by
    refine .tightened (fun cell hcell => h.outside cell ?_) htightened
    rw [head?_append, Option.mem_def.mp hcell]
    rfl
  have hnoComment := h.header.behindNoComment hmarked
  have hmarked' : Marked recognize [] (first ++ ((start ++ (line ++ behind)) ++ tail)) := by
    simpa using (hrespaces.moves _ _ hnoComment h.outside).marked hmarked
  have hwhole : Marked recognize [] (first ++ ((start ++ (block ++ behind)) ++ tail)) := by
    simpa using hmarked
  have hflat : Flat (start ++ (line ++ behind)) := by
    intro cell hcell hcode hfeed
    rcases mem_append.mp hcell with hcell | hcell
    · exact hstart (mem_map.mpr ⟨cell, hcell, hfeed⟩)
    rcases mem_append.mp hcell with hcell | hcell
    · exact hflat cell hcell hcode hfeed
    · exact hbehind (mem_map.mpr ⟨cell, hcell, hfeed⟩)
  obtain ⟨hopeners, -, hclosers | henclosed⟩ :=
    Header.settled h.member hmarked hbehind htail rfl rfl hsettled
  · have hquiet := h.quiet hstart hbehind htail hopeners hclosers
    exact hretold.depthBehind_eq hflat hquiet hwhole hmarked' htail htail _
  · obtain ⟨hline, opening, rest, hcells, hopening, hrest, hopen, hclosed⟩ :=
      Header.enclosed hmarked hfirst hstart hbehind htail henclosed
    have hfeeds : '\n' ∉ chars (start ++ (line ++ behind)) := by
      simp only [chars_append, mem_append, not_or]
      exact ⟨hstart, hline, hbehind⟩
    rw [hcells] at hretold hwhole ⊢
    have hrecoded := hretold.recoded hfeeds
    exact hrecoded.depthBehind_of_closed hfeeds hopening hrest (by simpa using hwhole)
      hmarked' htail htail hopen hclosed

end

/-! ## Several headers -/

/-- A settled header of a family stands at a place. -/
def SettledAt (family : Header.Family) (cells : List Cell) (place : Nat × Nat) : Prop :=
  ∃ left block right, cells = left ++ (block ++ right) ∧
    place = (left.length, (left ++ block).length) ∧ Spot family left block right ∧
    Header.isSettled family (chars cells) (Header.editAt (chars cells) place) = true

theorem SettledAt.spot {family : Header.Family} {left block right : List Cell}
    (h : SettledAt family (left ++ (block ++ right)) (left.length, (left ++ block).length)) :
    Spot family left block right ∧ Header.isSettled family (chars (left ++ (block ++ right)))
      ⟨left.length, (left ++ block).length, Header.joined (chars block)⟩ = true := by
  obtain ⟨left', block', right', hcells, hplace, hspot, hsettled⟩ := h
  obtain ⟨hleft, hblock⟩ := Prod.mk.inj hplace
  rw [length_append, length_append, hleft, Nat.add_left_cancel_iff] at hblock
  obtain ⟨rfl, hrest⟩ := append_inj hcells hleft
  obtain ⟨rfl, rfl⟩ := append_inj hrest hblock
  refine ⟨hspot, ?_⟩
  have hslice : slice (chars (left ++ (block ++ right))) left.length (left ++ block).length =
      chars block := slice_map Cell.char left block right
  rwa [Header.editAt, hslice] at hsettled

section

variable {family : Header.Family} {cells left rest out behind tail : List Cell}
  {places : List (Nat × Nat)}

/-- What stands before the first header is kept. -/
theorem JoinedAt.keeps (h : JoinedAt left places (behind ++ tail) out)
    (hplaces : ∀ place ∈ places, (left ++ behind).length ≤ place.1) :
    ∃ tail', out = behind ++ tail' ∧ tail'.head? = tail.head? := by
  generalize hrest : behind ++ tail = rest at h
  cases h with
  | nil => exact ⟨tail, hrest.symm, rfl⟩
  | @cons _ segment block line right out places hblock _ _ hrespaces _ _ _ =>
    have hle : behind.length ≤ segment.length := by
      have := hplaces _ mem_cons_self
      simp only [length_append] at this
      omega
    obtain ⟨more, rfl, rfl⟩ := append_eq_append_of_length_le hrest hle
    refine ⟨more ++ (line ++ out), by simp, ?_⟩
    cases more with
    | nil =>
      obtain ⟨c, hc, -⟩ := hblock.first
      simp [hrespaces.head, hc]
    | cons cell more => rfl

/-- On the last line of a settled header no other header of the family starts. -/
theorem SettledAt.length_le {place : Nat × Nat}
    (h : SettledAt family (left ++ (behind ++ tail)) place) (hbehind : '\n' ∉ chars behind)
    (htail : EndsLine (chars tail)) (hkeyword : codeHas [family.keyword] behind = false)
    (hle : left.length ≤ place.1) : (left ++ behind).length ≤ place.1 := by
  obtain ⟨left', block, right, hcells, rfl, hspot, -⟩ := h
  by_contra hlt
  rw [Nat.not_le] at hlt
  obtain ⟨start, rfl, hstart⟩ := append_eq_append_of_length_le hcells hle
  have hline : '\n' ∉ chars start := by
    intro hmem
    refine hbehind ?_
    have hshort : start.length ≤ behind.length := by
      simp only [length_append] at hlt
      omega
    obtain ⟨more, rfl, -⟩ := append_eq_append_of_length_le hstart.symm hshort
    rw [chars_append]
    exact mem_append_left _ hmem
  rw [hspot.codeHas_line hline hstart.symm htail] at hkeyword
  cases hkeyword

/-- Putting settled headers on one line each keeps the depth. -/
theorem JoinedAt.depthBehind_eq (h : JoinedAt left places rest out) (hcells : cells = left ++ rest)
    (hmarked : Marked recognize [] cells) (hplaces : ∀ place ∈ places, SettledAt family cells place)
    (hsorted : places.Pairwise fun first second => first.2 ≤ second.1) :
    depthBehind 0 (left ++ out) = depthBehind 0 (left ++ rest) := by
  induction h with
  | nil => rfl
  | @cons left segment block line right out places _ _ hline hrespaces hflat htightened
      hjoined ih =>
    obtain ⟨hapart, hsorted⟩ := pairwise_cons.mp hsorted
    have hlater := ih (by rw [hcells]; simp)
      (fun place hplace => hplaces place (mem_cons_of_mem _ hplace)) hsorted
    -- What is behind the header on its last line is there before and after the later headers are
    -- put on one line.
    obtain ⟨behind, tail, rfl, hbehind, htail⟩ := exists_endsLine right
    obtain ⟨first, start, hleft, hfirst, hstart⟩ := exists_startsLine (left ++ segment)
    rw [← append_assoc, hleft] at hcells
    have hplace := hplaces _ mem_cons_self
    rw [hleft, hcells] at hplace
    obtain ⟨hspot, hsettled⟩ := hplace.spot
    rw [hcells] at hmarked
    have hkeyword := (Header.settled hspot.member hmarked hbehind htail rfl rfl hsettled).2.1
    obtain ⟨tail', rfl, hsame⟩ := hjoined.keeps fun place hplace => by
      refine SettledAt.length_le ?_ hbehind htail hkeyword (hapart place hplace)
      have := hplaces place (mem_cons_of_mem _ hplace)
      rwa [hcells, ← hleft, ← append_assoc] at this
    have htail' : EndsLine (chars tail') := by
      rw [EndsLine, chars, head?_map, hsame, ← head?_map]
      exact htail
    have hstep := hspot.depthBehind_eq hmarked hfirst hstart hbehind htail hrespaces
      hflat htightened (hline ▸ hsettled)
    calc depthBehind 0 (left ++ (segment ++ (line ++ (behind ++ tail'))))
        = depthBehind 0 (first ++ ((start ++ (line ++ behind)) ++ tail')) := by
          rw [← append_assoc, hleft]
          simp
      _ = depthBehind 0 (first ++ ((start ++ (block ++ behind)) ++ tail')) :=
          depthBehind_congr hfirst htail' hstep
      _ = depthBehind 0 (left ++ segment ++ block ++ (behind ++ tail')) := by
          rw [hleft]
          simp
      _ = depthBehind 0 (left ++ (segment ++ (block ++ (behind ++ tail)))) := by
          rw [hlater]
          simp

end

/-! ## All headers -/

namespace Header

/-- Putting the headers of a family on one line each keeps the depth, if they are settled. -/
theorem exists_joined_depth {family : Family} (hfamily : family ∈ families) {cells : List Cell}
    (hmarked : Marked recognize [] cells)
    (h : (edits family (chars cells)).all (isSettled family (chars cells)) = true) :
    ∃ out, chars out = join family (chars cells) ∧ Marked recognize [] out ∧
      depthBehind 0 out = depthBehind 0 cells := by
  have hplaces : ∀ place ∈ places family cells, SettledAt family cells place := by
    intro place hplace
    rw [edits_eq hmarked, all_map, all_eq_true] at h
    have hsettled := h place hplace
    obtain ⟨found, hfound, rfl⟩ := mem_map.mp hplace
    obtain ⟨left, block, right, hcells, hstart, hstop, hspot⟩ := exists_spot hfamily hmarked hfound
    exact ⟨left, block, right, hcells, by rw [hstart, hstop], hspot, hsettled⟩
  obtain ⟨out, hout, hjoined⟩ := join_joinedAt hfamily hmarked
  exact ⟨out, hout, (hjoined.respacing hmarked).marked hmarked,
    hjoined.depthBehind_eq rfl hmarked hplaces (places_pairwise hfamily cells)⟩

/-- Family after family, the depth stays. -/
theorem exists_joinedAll_depth {chosen : List Family}
    (hchosen : ∀ family ∈ chosen, family ∈ families) {cells : List Cell}
    (hmarked : Marked recognize [] cells) (h : areSettled chosen (chars cells) = true) :
    ∃ out, chars out = joinAll chosen (chars cells) ∧ Marked recognize [] out ∧
      depthBehind 0 out = depthBehind 0 cells := by
  induction chosen generalizing cells with
  | nil => exact ⟨cells, rfl, hmarked, rfl⟩
  | cons family chosen ih =>
    rw [areSettled, Bool.and_eq_true] at h
    obtain ⟨middle, hmiddle, hmarked', hdepth⟩ :=
      exists_joined_depth (hchosen family mem_cons_self) hmarked h.1
    obtain ⟨out, hout, hmarked'', hdepth'⟩ :=
      ih (fun other hother => hchosen other (mem_cons_of_mem _ hother)) hmarked'
        (hmiddle ▸ h.2)
    refine ⟨out, ?_, hmarked'', hdepth'.trans hdepth⟩
    rw [hout, hmiddle]
    rfl

/-- Putting the headers of a text on one line each keeps the depth behind its last line, if they are
settled. -/
theorem joinAll_depth (document : List Char) (h : areSettled families document = true) :
    (Indentation.scan (joinAll families document)).getLast?.map (·.depth) =
      (Indentation.scan document).getLast?.map (·.depth) := by
  obtain ⟨cells, rfl, hmarked⟩ := exists_marked_recognize document
  obtain ⟨out, hout, hmarked', hdepth⟩ := exists_joinedAll_depth (fun _ => id) hmarked h
  rw [← hout, Indentation.scan_getLast? hmarked', Indentation.scan_getLast? hmarked, hdepth]

/-- Headers of two branches, of a block that is closed on the last line, and of one that stays
open. -/
theorem joinAll_depth_branches :
    let document :=
      "IF a\nTHEN\nELSIF b\nTHEN x; ELSE\nIF c\nAND d THEN y; END_IF;\nWHILE e\nDO".toList
    areSettled families document = true ∧
      joinAll families document =
        "IF a THEN\nELSIF b THEN x; ELSE\nIF c AND d THEN y; END_IF;\nWHILE e DO".toList ∧
      (Indentation.scan (joinAll families document)).getLast?.map (·.depth) = some 2 := by
  intro document
  have h : areSettled families document = true := by decide +kernel
  refine ⟨h, by decide +kernel, ?_⟩
  rw [joinAll_depth document h]
  decide +kernel

/-- With another header behind it on its last line, a header on one line opens one block where there
were two. -/
theorem joinAll_depth_nested :
    let document := "IF a\nTHEN IF c\nd;".toList
    (Indentation.scan document).getLast?.map (·.depth) = some 2 ∧
      (Indentation.scan (joinAll families document)).getLast?.map (·.depth) = some 1 := by
  decide +kernel

end Header

end StructuredText
