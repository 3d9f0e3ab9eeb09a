import StructuredText.Proofs.ClosedLiterals
import StructuredText.Proofs.Totality
import StructuredText.Proofs.TypedScan

/-!
# Warnings on open literals

A document that ends in an open string or comment is formatted with one warning, which names the
line where the literal starts. Lines are counted in the document as it was given, whatever its line
breaks are, although the literal is looked for once they are normalised.

Results:
1. `judged_scan`, `judged_scanTyped`: which literals of a text are closed, and where open ones
   stand.
2. `exists_split_of_normalizeNewlines`: a place between normalised line breaks, in the text as it
   was.
3. `canonical_warns`: when formatting warns, and of what.
-/

namespace StructuredText

open Literal

variable {text : List Char} {span : Span}

/-! ## Spans -/

namespace Literal

/-- The last of the spans is the one that goes to the end of the text. -/
theorem Ordered.getLast?_eq {spans : List Span} (ordered : Ordered spans) {finish : Nat}
    (within : ∀ span ∈ spans, span.stop ≤ finish) (hmem : span ∈ spans)
    (hstop : span.stop = finish) :
    spans.getLast? = some span := by
  rcases List.eq_nil_or_concat' spans with rfl | ⟨init, last, rfl⟩
  · cases hmem
  · rw [List.getLast?_concat]
    rcases List.mem_append.mp hmem with hinit | hlast
    · have happart := (List.pairwise_append.mp ordered.apart).2.2 span hinit last (by simp)
      have hnonempty := ordered.nonempty last (by simp)
      have := within last (by simp)
      omega
    · rw [List.mem_singleton.mp hlast]

/-- What is said of a literal: it counts as closed if its text ends in its closing delimiter, and if
it does not, it is the last one and goes to the end of the text. -/
def Judged (text : List Char) (spans : List Span) (span : Span) : Prop :=
  (span.isTerminated text = true ↔ EndsClosed span.kind (span.text text)) ∧
    (span.isTerminated text = false → spans.getLast? = some span ∧ span.stop = text.length)

theorem stop_of_not_isTerminated (hspan : span ∈ scan text) (h : span.isTerminated text = false) :
    span.stop = text.length := by
  have hscans := scan_scans text
  rcases (hscans.spelled span hspan).closed_or_open with hclosed | ⟨-, hrest⟩
  · rw [Span.isTerminated, hclosed.closes] at h
    cases h
  · exact Nat.le_antisymm (hscans.within span hspan) (List.drop_eq_nil_iff.mp hrest)

theorem judged_scan (hspan : span ∈ scan text) : Judged text (scan text) span := by
  have hscans := scan_scans text
  refine ⟨(hscans.spelled span hspan).closes_iff, fun hopen => ?_⟩
  have hstop := stop_of_not_isTerminated hspan hopen
  exact ⟨hscans.ordered.getLast?_eq hscans.within hspan hstop, hstop⟩

/-- A literal of the larger scan is typed, or one of the other scan. -/
theorem mem_scan_of_mem_scanTyped (hspan : span ∈ scanTyped text) (hkind : span.kind ≠ .typed) :
    span ∈ scan text := by
  obtain ⟨cells, rfl, hmarked⟩ := exists_marked recognizeTyped_isProper text []
  have hscan := hmarked.untype.scan_eq
  rw [chars_untype] at hscan
  have hfilter := hmarked.spansFrom_untype
  rw [List.length_nil] at hfilter
  rw [hmarked.scanTyped_eq] at hspan
  rw [hscan, ← hfilter, List.mem_filter]
  exact ⟨hspan, by simpa using hkind⟩

theorem judged_scanTyped (hspan : span ∈ scanTyped text) : Judged text (scanTyped text) span := by
  by_cases hkind : span.kind = .typed
  · have hcloses : span.isTerminated text = true := by rw [Span.isTerminated, hkind]; rfl
    rw [Judged, hcloses, hkind]
    exact ⟨iff_of_true rfl .typed, fun h => by cases h⟩
  · have hmem := mem_scan_of_mem_scanTyped hspan hkind
    refine ⟨(judged_scan hmem).1, fun hopen => ?_⟩
    have hstop := stop_of_not_isTerminated hmem hopen
    refine ⟨?_, hstop⟩
    obtain ⟨cells, rfl, hmarked⟩ := exists_marked recognizeTyped_isProper text []
    rw [hmarked.scanTyped_eq] at hspan ⊢
    refine (spansFrom_ordered cells 0).getLast?_eq (fun other hother => ?_) hspan hstop
    rw [length_chars, ← Nat.zero_add cells.length]
    exact stop_le_of_mem_spansFrom 0 hother

end Literal

/-! ## Line breaks -/

/-- The number of line breaks of a text: line feeds, carriage returns, and carriage returns with a
line feed behind them. -/
def lineBreaks : List Char → Nat
  | [] => 0
  | '\r' :: '\n' :: rest => lineBreaks rest + 1
  | c :: rest => lineBreaks rest + if c = '\r' ∨ c = '\n' then 1 else 0

/-- Each line break is written as one line feed. -/
theorem count_normalizeNewlines (text : List Char) :
    (normalizeNewlines text).count '\n' = lineBreaks text := by
  fun_induction normalizeNewlines text with
  | case1 => rfl
  | case2 rest ih => rw [List.count_cons_self, ih, lineBreaks]
  | case3 c rest hbreak ih =>
    rw [lineBreaks, List.count_cons, ih]
    · by_cases hc : c = '\r'
      · simp [hc]
      · simp [hc]
    · exact hbreak

/-- A place of the normalised text that is not right before a line break is a place of the text. -/
theorem exists_split_of_normalizeNewlines {left right : List Char}
    (h : normalizeNewlines text = left ++ right) (hright : right.head? ≠ some '\n') :
    ∃ before rest, text = before ++ rest ∧ normalizeNewlines before = left ∧
      normalizeNewlines rest = right := by
  fun_induction normalizeNewlines text generalizing left with
  | case1 =>
    obtain ⟨rfl, rfl⟩ := List.append_eq_nil_iff.mp h.symm
    exact ⟨[], [], rfl, rfl, rfl⟩
  | case2 rest ih =>
    cases left with
    | nil =>
      rw [List.nil_append] at h
      rw [← h] at hright
      exact absurd rfl hright
    | cons d left =>
      obtain ⟨rfl, htail⟩ := List.cons_eq_cons.mp h
      obtain ⟨before, rest', rfl, hbefore, hrest⟩ := ih htail
      refine ⟨'\r' :: '\n' :: before, rest', rfl, ?_, hrest⟩
      rw [normalizeNewlines, hbefore]
  | case3 c rest hbreak ih =>
    cases left with
    | nil =>
      refine ⟨[], c :: rest, rfl, rfl, ?_⟩
      rw [normalizeNewlines]
      · exact h
      · exact hbreak
    | cons d left =>
      obtain ⟨rfl, htail⟩ := List.cons_eq_cons.mp h
      obtain ⟨before, rest', rfl, hbefore, hrest⟩ := ih htail
      refine ⟨c :: before, rest', rfl, ?_, hrest⟩
      rw [normalizeNewlines, hbefore]
      rintro tail rfl rfl
      exact hbreak (tail ++ rest') rfl rfl

/-- What has no line breaks is left as it is. -/
theorem prefix_of_normalizeNewlines {word : List Char} (hword : '\n' ∉ word)
    (h : word <+: normalizeNewlines text) : word <+: text := by
  fun_induction normalizeNewlines text generalizing word with
  | case1 => exact h
  | case2 rest ih =>
    cases word with
    | nil => exact List.nil_prefix
    | cons d word =>
      obtain ⟨rfl, -⟩ := List.cons_prefix_cons.mp h
      exact absurd List.mem_cons_self hword
  | case3 c rest hbreak ih =>
    cases word with
    | nil => exact List.nil_prefix
    | cons d word =>
      rw [List.mem_cons, not_or] at hword
      obtain ⟨hd, hrest⟩ := List.cons_prefix_cons.mp h
      have hc : c ≠ '\r' := by
        rintro rfl
        exact hword.1 hd.symm
      rw [if_neg hc] at hd
      exact List.cons_prefix_cons.mpr ⟨hd, ih hword.2 hrest⟩

theorem Literal.lineFeed_not_mem_openers : ∀ opener ∈ openers, '\n' ∉ opener := by
  decide

theorem Literal.Opens.of_normalizeNewlines (h : Opens (normalizeNewlines text)) : Opens text := by
  obtain ⟨opener, hopener, hprefix⟩ := h
  exact ⟨opener, hopener,
    prefix_of_normalizeNewlines (lineFeed_not_mem_openers opener hopener) hprefix⟩

theorem Literal.Opens.head?_ne (h : Opens text) : text.head? ≠ some '\n' := by
  obtain ⟨opener, hopener, rest, rfl⟩ := h
  have hnil : ∀ opener ∈ openers, opener ≠ [] := by decide
  intro hhead
  rw [List.head?_append_of_ne_nil _ (hnil opener hopener)] at hhead
  exact lineFeed_not_mem_openers opener hopener (List.mem_of_head? hhead)

/-! ## Notices -/

/-- The warnings among the notices of a formatted document. -/
def Formatted.warnings (formatted : Formatted) : List Notice :=
  formatted.notices.filter fun notice => notice.severity = .warning

namespace Format

/-- The warnings on a document: none if it does not end in an open string or comment, and otherwise
one that names the line of its opener, counted in the document as it was given. -/
inductive Warns (file : String) (text : List Char) : List Notice → Prop
  | closed : openLiteral (normalizeNewlines text) = none → Warns file text []
  | opened {before rest : List Char} {kind : Kind} :
      text = before ++ rest → Opens rest →
      openLiteral (normalizeNewlines text) = some (kind, (normalizeNewlines before).length) →
      Warns file text
        [.unterminated kind ⟨file, ↑(lineBreaks before + 1), ↑(lineBreaks before + 1)⟩]

theorem location_eq (file : String) (left right : List Char) :
    Location.ofPosition file (left ++ right) left.length =
      ⟨file, ↑(left.count '\n' + 1), ↑(left.count '\n' + 1)⟩ := by
  have hclamp : Location.clampOffset (left ++ right).length left.length = left.length := by
    rw [Location.clampOffset, if_neg (by omega), Int.toNat_natCast, List.length_append]
    omega
  rw [Location.ofPosition, hclamp, List.take_left]

theorem unterminatedNotice_warns (file : String) (text : List Char) :
    Warns file text (unterminatedNotice file (normalizeNewlines text)) := by
  have hunterminated := unterminated_eq (normalizeNewlines text)
  rw [unterminatedNotice]
  cases hopen : openLiteral (normalizeNewlines text) with
  | none =>
    rw [hopen, Option.map_none] at hunterminated
    rw [hunterminated]
    exact .closed hopen
  | some found =>
    obtain ⟨kind, start⟩ := found
    rw [hopen, Option.map_some] at hunterminated
    have hmem := List.mem_of_find?_eq_some hunterminated
    have hscans := scan_scans (normalizeNewlines text)
    have hopens := hscans.opens hmem
    have hlt := hscans.ordered.nonempty _ hmem
    -- The opener is no line break, so that it stands in the text as it was given.
    obtain ⟨before, rest, htext, hbefore, hrest⟩ :=
      exists_split_of_normalizeNewlines (List.take_append_drop start _).symm hopens.head?_ne
    have hstart : (normalizeNewlines before).length = start := by
      rw [hbefore, List.length_take, Nat.min_eq_left (Nat.le_of_lt hlt)]
    have hlocation : Location.ofPosition file (normalizeNewlines text) start =
        ⟨file, ↑(lineBreaks before + 1), ↑(lineBreaks before + 1)⟩ := by
      rw [← List.take_append_drop start (normalizeNewlines text), ← hbefore, ← hstart, location_eq,
        count_normalizeNewlines]
    rw [hunterminated]
    dsimp only
    rw [hlocation]
    refine .opened htext (Opens.of_normalizeNewlines ?_) (by rw [hopen, hstart])
    rw [hrest]
    exact hopens

/-- What the layout notices is for debugging. -/
theorem warnings_layOut (document : List Char) : (layOut document).warnings = [] := by
  rw [Formatted.warnings, layOut, List.filter_map, List.map_eq_nil_iff, List.filter_eq_nil_iff]
  intro line _ h
  cases h

theorem warnings_unterminatedNotice (file : String) (document : List Char) :
    (unterminatedNotice file document).filter (fun notice => notice.severity = .warning) =
      unterminatedNotice file document := by
  rw [unterminatedNotice]
  split <;> rfl

/-- Only open literals are warned of. -/
theorem warnings_canonical [Host] {vocabulary : Vocabulary} {file : String} {formatted : Formatted}
    (h : canonical vocabulary file text = .ok formatted) :
    formatted.warnings = unterminatedNotice file (normalizeNewlines text) := by
  rw [canonical] at h
  cases hcased : Casing.apply vocabulary (normalizeNewlines text) with
  | error fault => rw [hcased] at h; cases h
  | ok cased =>
    rw [hcased] at h
    cases hspaced : Spacing.normalize vocabulary cased with
    | error fault => simp [hspaced, bind, Except.bind] at h
    | ok spaced =>
      simp only [hspaced, bind, Except.bind, pure, Except.pure] at h
      rw [← Except.ok.inj h, Formatted.warnings, List.filter_append, warnings_unterminatedNotice]
      have hlayout := warnings_layOut spaced
      rw [Formatted.warnings] at hlayout
      rw [hlayout, List.append_nil]

/-- A literal is closed exactly when its text ends in its closing delimiter, and an open one is the
last of its text. The text has one if reading it from its start ends in a string or a block comment,
and then formatting gives one warning, with the line of the opener; otherwise it gives none. -/
theorem canonical_warns [Host] (text : List Char) :
    (∀ span ∈ scan text, Judged text (scan text) span) ∧
    (∀ span ∈ scanTyped text, Judged text (scanTyped text) span) ∧
    unterminated text = (openLiteral text).map (fun found => ⟨found.2, text.length, found.1⟩) ∧
    ∀ (vocabulary : Vocabulary) (file : String),
      (vocabulary.IsValid → vocabulary.Joinable →
        ∃ formatted, canonical vocabulary file text = .ok formatted) ∧
      ∀ formatted, canonical vocabulary file text = .ok formatted →
        Warns file text formatted.warnings := by
  refine ⟨fun _ => judged_scan, fun _ => judged_scanTyped, unterminated_eq text, ?_⟩
  intro vocabulary file
  refine ⟨fun hvalid hjoinable => (canonical_eq_ok_iff hvalid file text).mpr hjoinable, ?_⟩
  intro formatted hformatted
  rw [warnings_canonical hformatted]
  exact unterminatedNotice_warns file text

end Format

end StructuredText
