import Diagram.Proofs.Hulls
import Diagram.Proofs.Lines
import Diagram.Proofs.Partition

/-!
# Ranges of what is reported

Tokens, the parts of a tree, messages and findings are all marked in the editor by ranges.  Their
spans begin and end in the middle of lines, whatever stands in between, and such a range is the
right one exactly when every line break in front of its end is a line feed, with or without a
carriage return.  The lines of the language end at line feeds only, and their numbers are looked up
among the lines of the editor: behind any other break the mark is on the wrong characters.
-/

namespace Diagram

/-! ## Stretches -/

/-- A text whose first and last characters are no line breaks. -/
structure IsTight (w : List Char) : Prop where
  first : ∃ c cs, w = c :: cs ∧ isLineBreak c = false
  last : ∃ cs c, w = cs ++ [c] ∧ isLineBreak c = false

/-- The span of a text that begins and ends in a line. -/
def IsStretch (text : List Char) (s : Span) : Prop :=
  ∃ a w b, text = a ++ w ++ b ∧ IsTight w ∧ s = (Cursor.start.skip a).cover w

theorem isTight_of_all {w : List Char} (hne : w ≠ []) (h : ∀ c ∈ w, isLineBreak c = false) :
    IsTight w where
  first := by
    obtain ⟨c, cs, rfl⟩ := List.exists_cons_of_ne_nil hne
    exact ⟨c, cs, rfl, h c (by simp)⟩
  last := by
    refine ⟨w.dropLast, w.getLast hne, (List.dropLast_append_getLast hne).symm, ?_⟩
    exact h _ (List.getLast_mem hne)

theorem IsTight.ne_nil {w : List Char} (h : IsTight w) : w ≠ [] := by
  obtain ⟨c, cs, rfl, -⟩ := h.first
  exact List.cons_ne_nil c cs

/-- Two tight texts, the second of them behind the start of the first, are parts of a tight
text. -/
theorem IsTight.hull {u v w b c : List Char} (hv : IsTight v) (hw : IsTight w)
    (h : v ++ b = u ++ w ++ c) : IsTight (u ++ w) where
  first := by
    obtain ⟨d, ds, rfl, hd⟩ := hv.first
    obtain ⟨e, es, he⟩ := List.exists_cons_of_ne_nil
      (List.append_ne_nil_of_right_ne_nil u hw.ne_nil)
    rw [he] at h ⊢
    obtain ⟨rfl, -⟩ := List.cons.inj h
    exact ⟨d, es, rfl, hd⟩
  last := by
    obtain ⟨ds, d, rfl, hd⟩ := hw.last
    exact ⟨u ++ ds, d, (List.append_assoc u ds [d]).symm, hd⟩

/-- The hull of two spans, of which the second begins in the first or behind it, and ends behind
it. -/
theorem Span.merge_of_le {s t : Span} (hstart : s.start ≤ t.start) (hstop : s.stop ≤ t.stop) :
    s.merge t = ⟨s.start, t.stop, s.first, t.last⟩ := by
  simp [Span.merge, hstart, hstop]

/-- A span covers another that neither begins before it nor ends behind it. -/
theorem Span.merge_eq_left {s t : Span} (hstart : s.start ≤ t.start) (hstop : t.stop < s.stop) :
    s.merge t = s := by
  simp [Span.merge, hstart, Nat.not_le.mpr hstop, Nat.max_eq_left hstop.le]

theorem Span.merge_comm_of_lt {s t : Span} (h : t.start < s.start) : s.merge t = t.merge s := by
  simp [Span.merge, Nat.not_le.mpr h, h.le]

/-- The hull of the spans of two texts, the second behind the start of the first. -/
theorem merge_cover {a u v w : List Char}
    (hle : byteSize v ≤ byteSize (u ++ w)) (hw : w ≠ []) :
    ((Cursor.start.skip a).cover v).merge ((Cursor.start.skip (a ++ u)).cover w) =
      (Cursor.start.skip a).cover (u ++ w) := by
  rw [byteSize_append] at hle
  rw [Span.merge_of_le]
  · simp only [Cursor.cover, Cursor.skip_append, List.dropLast_append_of_ne_nil hw]
  · simp [Cursor.offset_skip]
  · simp only [Cursor.stop_cover, Cursor.skip_append, Cursor.offset_skip]
    omega

/-- The hull of two stretches, of which the first begins first, is a stretch. -/
theorem isStretch_merge_of_le {text : List Char} {s t : Span} (hs : IsStretch text s)
    (ht : IsStretch text t) (hle : s.start ≤ t.start) : IsStretch text (s.merge t) := by
  by_cases hstop : t.stop < s.stop
  · rw [Span.merge_eq_left hle hstop]
    exact hs
  · obtain ⟨a, v, b, htext, hv, rfl⟩ := hs
    obtain ⟨d, w, c, htext', hw, rfl⟩ := ht
    have ha : a <+: text := ⟨v ++ b, by rw [htext, List.append_assoc]⟩
    have hd : d <+: text := ⟨w ++ c, by rw [htext', List.append_assoc]⟩
    simp only [Cursor.start_cover, Cursor.stop_cover, Cursor.offset_start_skip] at hle hstop
    obtain ⟨u, rfl⟩ := prefix_of_byteSize_le ha hd hle
    rw [byteSize_append] at hstop
    rw [merge_cover (by rw [byteSize_append]; omega) hw.ne_nil]
    refine ⟨a, u ++ w, c, by rw [htext', List.append_assoc a u w], ?_, rfl⟩
    rw [htext] at htext'
    exact hv.hull (b := b) (c := c) hw (by simpa using htext')

/-- **The hull of two stretches is a stretch.** -/
theorem IsStretch.merge {text : List Char} {s t : Span} (hs : IsStretch text s)
    (ht : IsStretch text t) : IsStretch text (s.merge t) := by
  by_cases hle : s.start ≤ t.start
  · exact isStretch_merge_of_le hs ht hle
  · rw [Span.merge_comm_of_lt (Nat.not_le.mp hle)]
    exact isStretch_merge_of_le ht hs (Nat.le_of_not_le hle)

/-! ## Tokens and stray characters -/

/-- A line break is white space. -/
theorem isLineBreak_eq_false {c : Char} (h : isBlank c = false) : isLineBreak c = false := by
  rw [Bool.eq_false_iff, ne_eq, isBlank_iff] at h
  simp only [List.mem_cons, List.not_mem_nil, or_false] at h
  simp only [isLineBreak, Bool.or_eq_false_iff, Bool.and_eq_false_iff, decide_eq_false_iff_not,
    beq_eq_false_iff_ne]
  omega

/-- The last character of a token is not white space. -/
theorem last_of_fits {k : TokenKind} {w : List Char} (h : k.Fits w) :
    ∃ cs c, w = cs ++ [c] ∧ isBlank c = false := by
  have hall : (∀ c ∈ w, isBlank c = false) → ∃ cs c, w = cs ++ [c] ∧ isBlank c = false := fun hw =>
    have hne := ne_nil_of_fits h
    ⟨_, _, (List.dropLast_append_getLast hne).symm, hw _ (List.getLast_mem hne)⟩
  have hfixed : w.all (fun c => !isBlank c) → ∃ cs c, w = cs ++ [c] ∧ isBlank c = false := fun hw =>
    hall fun c hc => by simpa using List.all_eq_true.mp hw c hc
  have hword : k.isWord → ∃ cs c, w = cs ++ [c] ∧ isBlank c = false := by
    intro hk
    obtain ⟨c, cs, rfl⟩ := List.exists_cons_of_ne_nil (ne_nil_of_fits h)
    have hn := (isName_of_fits hk h).1
    simp only [isName, Bool.and_eq_true, List.all_eq_true] at hn
    refine hall fun d hd => not_isBlank_of_isNameChar ?_
    rcases List.mem_cons.mp hd with rfl | hd
    · exact isNameChar_of_isNameStart hn.1
    · exact hn.2 d hd
  cases k
  case group | freeArrow | shapeName | identifier => exact hword rfl
  case color =>
    obtain ⟨ds, -, -, hds, rfl⟩ := h
    refine hall (List.forall_mem_cons.mpr ⟨by decide, fun c hc => ?_⟩)
    exact not_isBlank_of_isNameChar (isNameChar_of_isHexDigit (List.all_eq_true.mp hds c hc))
  case string =>
    obtain ⟨body, -, rfl⟩ := h
    exact ⟨'"' :: body, '"', rfl, by decide⟩
  case number =>
    obtain ⟨ds, -, hds, hw⟩ := h
    have hdigits : ∀ c ∈ ds, isBlank c = false := fun c hc =>
      not_isBlank_of_isNameChar (isNameChar_of_isDigit (List.all_eq_true.mp hds c hc))
    rcases hw with rfl | rfl
    · exact hall hdigits
    · exact hall (List.forall_mem_cons.mpr ⟨by decide, hdigits⟩)
  case arrow a => subst h; cases a <;> exact hfixed (by decide)
  all_goals subst h; exact hfixed (by decide)

/-- Stray characters are not white space. -/
theorem not_isBlank_of_mem_pieces {afterColon : Bool} {s : List Char} {p : Piece}
    (h : p ∈ pieces afterColon s) (hp : p.kind = .stray) : ∀ c ∈ p.text, isBlank c = false := by
  fun_induction pieces afterColon s with
  | case1 => cases h
  | case2 afterColon c cs kind n hfirst ih =>
    rcases List.mem_cons.mp h with rfl | h
    · obtain rfl : kind = .stray := hp
      have hblank : isBlank c = false := by
        by_contra hc
        rw [Bool.not_eq_false] at hc
        simp [firstPiece, hc] at hfirst
      obtain ⟨-, hn, -⟩ | ⟨-, hn, -⟩ | ⟨k, hn⟩ | ⟨-, rfl⟩ := firstPiece_cases hfirst
      · cases hn
      · cases hn
      · cases hn
      · simpa using hblank
    · exact ih h

theorem not_isBlank_of_mem_joinStray {ps : List Piece}
    (hps : ∀ p ∈ ps, p.kind = .stray → ∀ c ∈ p.text, isBlank c = false) :
    ∀ p ∈ joinStray ps, p.kind = .stray → ∀ c ∈ p.text, isBlank c = false := by
  induction ps with
  | nil => exact nofun
  | cons p ps ih =>
    obtain ⟨hp, hps⟩ := List.forall_mem_cons.mp hps
    have ih := ih hps
    rw [joinStray]
    cases hjoin : joinStray ps with
    | nil => simpa using hp
    | cons q qs =>
      rw [hjoin] at ih
      obtain ⟨hq, hqs⟩ := List.forall_mem_cons.mp ih
      simp only
      split
      · next hstray =>
        refine List.forall_mem_cons.mpr ⟨fun _ c hc => ?_, hqs⟩
        rcases List.mem_append.mp hc with hc | hc
        · exact hp hstray.1 c hc
        · exact hq hstray.2 c hc
      · exact List.forall_mem_cons.mpr ⟨hp, ih⟩

/-- **The span of a token or of a lexical message is a stretch.** -/
theorem isStretch_of_mem_tokenize {text : String} {s : Span}
    (hs : s ∈ (tokenize text).1.map Token.span ++ (tokenize text).2.map Issue.span) :
    IsStretch text.toList s := by
  obtain ⟨x, hx, hmark, rfl⟩ := mem_spans_iff.mp hs
  obtain ⟨a, b, htext, hsound, hspan⟩ := mem_located hx
  refine ⟨a, x.1.text, b, htext, ?_, hspan⟩
  have hmem : x.1 ∈ joinStray (pieces false text.toList) := by
    rw [← map_fst_locate .start (joinStray (pieces false text.toList))]
    exact List.mem_map_of_mem hx
  cases hkind : x.1.kind with
  | token k =>
    have hfits := fits_of_mem_pieces (mem_of_mem_joinStray hmem (by simp [hkind])) hkind
    obtain ⟨c, cs, hc, hblank, -⟩ := head_of_fits hfits
    obtain ⟨ds, d, hd, hblank'⟩ := last_of_fits hfits
    exact ⟨⟨c, cs, hc, isLineBreak_eq_false hblank⟩, ⟨ds, d, hd, isLineBreak_eq_false hblank'⟩⟩
  | stray =>
    refine isTight_of_all hsound.ne_nil fun c hc => isLineBreak_eq_false ?_
    exact not_isBlank_of_mem_joinStray (fun p hp => not_isBlank_of_mem_pieces hp) x.1 hmem hkind
      c hc
  | comment => simp [isMark, Piece.token?, Piece.issue?, hkind] at hmark
  | blank => simp [isMark, Piece.token?, Piece.issue?, hkind] at hmark

/-! ## What is reported -/

/-- The spans of everything that is reported about a text: its tokens, the parts of its tree, the
messages of the parser and the findings. -/
def reportedSpans (text : String) : List Span :=
  (tokenize text).1.map Token.span ++ Syntax.treeSpans (Syntax.parse text).1 ++
    ((Syntax.parse text).2.map Issue.span ++ (Lint.ofText text).map Lint.Diagnosis.span)

/-- **What is reported is a stretch, or is about the end.** -/
theorem isStretch_of_mem_reportedSpans {text : String} {s : Span} (hs : s ∈ reportedSpans text) :
    IsStretch text.toList s ∨ s = endSpan text.toList := by
  have htoken : ∀ t ∈ (tokenize text).1, IsStretch text.toList t.span := fun t ht =>
    isStretch_of_mem_tokenize (List.mem_append_left _ (List.mem_map_of_mem ht))
  have hleaves : ∀ x ∈ Syntax.leavesAll (Syntax.parse text).1, IsStretch text.toList x := by
    intro x hx
    have hkept := Syntax.keeps_parseTokens (endSpan text.toList) (tokenize text).1
    obtain ⟨t, ht, rfl⟩ := List.mem_map.mp (hkept.subset hx)
    exact htoken t ht
  rcases List.mem_append.mp hs with hs | hs
  · refine .inl ?_
    rcases List.mem_append.mp hs with hs | hs
    · obtain ⟨t, ht, rfl⟩ := List.mem_map.mp hs
      exact htoken t ht
    · exact Syntax.treeSpans_of_leaves IsStretch.merge hleaves s hs
  · rcases List.mem_append.mp hs with hs | hs
    · obtain ⟨i, hi, rfl⟩ := List.mem_map.mp hs
      rcases List.mem_append.mp (List.mem_mergeSort.mp hi) with hi | hi
      · exact .inl (isStretch_of_mem_tokenize (List.mem_append_right _ (List.mem_map_of_mem hi)))
      · rcases Syntax.mem_issues_parseTokens hi with hend | ⟨t, ht, hspan⟩
        · exact .inr hend
        · rw [hspan]
          exact .inl (htoken t ht)
    · obtain ⟨d, hd, rfl⟩ := List.mem_map.mp hs
      exact .inl (Lint.ofTree_of_leaves IsStretch.merge hleaves d hd)

/-! ## Ranges -/

/-- The text in front of the end of a span. -/
def Span.textUpToEnd (s : Span) (text : List Char) : List Char := (takeBytes text s.stop).getD []

namespace Editor

/-- A span is found again in its range. -/
def LineMap.Finds (m : LineMap) (s : Span) : Prop :=
  m.byteOffset (m.range s).start = s.start ∧ m.byteOffset (m.range s).stop = s.stop

theorem hasPlainBreaks_left {a b : List Char} (h : hasPlainBreaks (a ++ b))
    (hcut : ¬ CutsPair a b) : hasPlainBreaks a := by
  induction a with
  | nil => rfl
  | cons c cs ih =>
    simp only [List.cons_append, hasPlainBreaks, Bool.and_eq_true] at h ⊢
    refine ⟨?_, ih h.2 fun hpair => hcut hpair.cons⟩
    cases cs with
    | nil =>
      have hno : (decide (c = '\r') && decide (b.head? = some '\n')) = false := by
        refine Bool.eq_false_iff.mpr fun hpair => hcut ?_
        simp only [Bool.and_eq_true, decide_eq_true_eq] at hpair
        exact ⟨by rw [hpair.1]; rfl, hpair.2⟩
      rw [List.nil_append, hno, Bool.or_false] at h
      rw [h.1, Bool.true_or]
    | cons d cs => exact h.1

/-- The text in front of the end of a stretch. -/
theorem textUpToEnd_cover (a w b : List Char) :
    ((Cursor.start.skip a).cover w).textUpToEnd (a ++ w ++ b) = a ++ w := by
  rw [Span.textUpToEnd, Cursor.stop_cover, Cursor.offset_start_skip, ← byteSize_append,
    takeBytes_append, Option.getD_some]

/-- The range of a stretch ends at the position behind its last character. -/
theorem range_stop_cover (m : LineMap) (a cs : List Char) {c : Char} (hc : c ≠ '\n') :
    (m.range ((Cursor.start.skip a).cover (cs ++ [c]))).stop =
      m.place (Cursor.start.skip (a ++ cs ++ [c])).position := by
  have hnext : (Cursor.start.skip (a ++ cs ++ [c])).position =
      ⟨(Cursor.start.skip (a ++ cs)).position.line,
        (Cursor.start.skip (a ++ cs)).position.column + 1⟩ := by
    rw [Cursor.skip_append, Cursor.skip_cons, Cursor.skip_nil, Cursor.next, Position.next,
      if_neg hc]
  rw [hnext, Cursor.skip_append]
  simp [LineMap.range, LineMap.between, Cursor.cover]

/-- **A stretch is found exactly when all breaks in front of its end are plain.** -/
theorem finds_stretch_iff {text : List Char} {s : Span} (hs : IsStretch text s) :
    (LineMap.mk (breakLines text)).Finds s ↔ hasPlainBreaks (s.textUpToEnd text) := by
  obtain ⟨a, w, b, rfl, hw, rfl⟩ := hs
  obtain ⟨cs, c, rfl, hc⟩ := hw.last
  obtain ⟨d, ds, hfirst, hd⟩ := hw.first
  -- A stretch begins and ends with a visible character, so neither end of it cuts a pair of breaks.
  have hcut : ¬ CutsPair (a ++ (cs ++ [c])) b := by
    rw [← List.append_assoc]
    exact not_cutsPair_concat (ne_return hc) _ b
  have hcut' : ∀ r, ¬ CutsPair a (cs ++ [c] ++ r) := fun r => by
    rw [hfirst]
    exact not_cutsPair_cons (ne_feed hd) a (ds ++ r)
  obtain ⟨y, ls, hb⟩ := List.exists_cons_of_ne_nil (breakLines_ne_nil b)
  obtain ⟨y', ls', hb'⟩ := List.exists_cons_of_ne_nil (breakLines_ne_nil (cs ++ [c] ++ b))
  rw [textUpToEnd_cover, LineMap.Finds, range_stop_cover _ a cs (ne_feed hc), Cursor.start_cover,
    Cursor.stop_cover, Cursor.offset_start_skip, ← byteSize_append, List.append_assoc a cs [c],
    LineMap.byteOffset_eq_iff]
  constructor
  · rintro ⟨-, hstop⟩
    -- behind another break the number of the line is too small for the editor: it falls short
    by_contra hplain
    rw [Bool.not_eq_true, ← List.append_assoc] at hplain
    have hlt := LineMap.charOffset_place_lt (b := b) hc hplain
      (Cursor.start.skip (a ++ cs ++ [c])).position.column
    simp only [List.append_assoc] at hlt hstop
    exact absurd hstop hlt.ne
  · intro hplain
    have hleft : hasPlainBreaks a := hasPlainBreaks_left hplain (by simpa using hcut' [])
    have hstart := LineMap.charOffset_place_of_plain hb' (hcut' b) hleft 0
    have hstop := LineMap.charOffset_place_of_plain hb hcut hplain 0
    rw [Nat.zero_min, Nat.add_zero, Nat.add_zero] at hstart hstop
    refine ⟨?_, hstop⟩
    rw [List.append_assoc a (cs ++ [c]) b]
    exact (LineMap.byteOffset_eq_iff _).mpr hstart

/-- A text whose last character is its first line break that is not plain, and is no carriage
return. -/
def EndsInBreak (text : List Char) : Prop :=
  ∃ a c, text = a ++ [c] ∧ isLineBreak c ∧ c ≠ '\n' ∧ c ≠ '\r' ∧ hasPlainBreaks a

/-- **The place of a character is found exactly when all breaks in front of it are plain**, or all
but the last of them, which ends directly in front of it. -/
theorem charOffset_place_iff {a b : List Char} (hcut : ¬ CutsPair a b) :
    (LineMap.mk (breakLines (a ++ b))).charOffset ((LineMap.mk (breakLines (a ++ b))).place
        (Cursor.start.skip a).position) = a.length ↔ hasPlainBreaks a ∨ EndsInBreak a := by
  constructor
  · intro h
    by_cases hplain : hasPlainBreaks a
    · exact .inl hplain
    · exact .inr (LineMap.exists_of_charOffset_place_eq hcut (Bool.not_eq_true _ ▸ hplain) h)
  · rintro (hplain | ⟨a, c, rfl, hc, hfeed, hreturn, hplain⟩)
    · obtain ⟨y, ls, hb⟩ := List.exists_cons_of_ne_nil (breakLines_ne_nil b)
      simpa using LineMap.charOffset_place_of_plain hb hcut hplain 0
    · exact LineMap.charOffset_place_of_last hc hfeed hreturn hplain 0

/-- The end of a text is found also when the last character is the first break that is not
plain. -/
theorem finds_endSpan_iff (text : List Char) :
    (LineMap.mk (breakLines text)).Finds (endSpan text) ↔
      hasPlainBreaks text ∨ EndsInBreak text := by
  have hfinds : (LineMap.mk (breakLines text)).Finds (endSpan text) ↔ ∀ behind ∈ [0, 1],
      (LineMap.mk (breakLines text)).charOffset ((LineMap.mk (breakLines text)).place
        ⟨(Cursor.start.skip text).position.line,
          (Cursor.start.skip text).position.column + behind⟩) = text.length := by
    have hbyte := LineMap.byteOffset_eq_iff (a := text) (b := [])
    rw [List.append_nil] at hbyte
    simp only [List.forall_mem_cons, ← hbyte]
    simp [LineMap.Finds, endSpan, LineMap.range, LineMap.between, Cursor.offset_start_skip]
  rw [hfinds]
  constructor
  · intro h
    have hiff := charOffset_place_iff (a := text) (b := []) fun hcut => by cases hcut.2
    rw [List.append_nil] at hiff
    exact hiff.mp (h 0 (by simp))
  · rintro (hplain | ⟨a, c, rfl, hc, hfeed, hreturn, hplain⟩) behind -
    · have h := LineMap.charOffset_place_of_plain (b := []) rfl (fun hcut => by cases hcut.2) hplain
        behind
      simpa [stripBreak] using h
    · have h := LineMap.charOffset_place_of_last (b := []) hc hfeed hreturn hplain behind
      rwa [List.append_nil] at h

/-- **A range is the right one exactly when all line breaks in front of its end are plain.**  For
everything that is reported about a text, the range leads back to the bytes of the span exactly when
every line of the editor in front of the end of the span ends in a line feed, with or without a
carriage return; for what is reported at the end of the text, one other break may stand there,
which is the last character and no carriage return. -/
theorem byteOffset_range_iff {text : String} {s : Span} (hs : s ∈ reportedSpans text) :
    ((LineMap.ofText text).byteOffset ((LineMap.ofText text).range s).start = s.start ∧
        (LineMap.ofText text).byteOffset ((LineMap.ofText text).range s).stop = s.stop) ↔
      hasPlainBreaks (s.textUpToEnd text.toList) ∨
        (s = endSpan text.toList ∧ EndsInBreak text.toList) := by
  rcases isStretch_of_mem_reportedSpans hs with hstretch | rfl
  · have hne : s ≠ endSpan text.toList := by
      rintro rfl
      obtain ⟨a, w, b, -, hw, hspan⟩ := hstretch
      have hpos := byteSize_pos hw.ne_nil
      have hstart := congrArg Span.start hspan
      have hstop := congrArg Span.stop hspan
      simp only [endSpan, Cursor.start_cover, Cursor.stop_cover] at hstart hstop
      omega
    rw [or_iff_left fun h => hne h.1]
    exact finds_stretch_iff hstretch
  · have hall : (endSpan text.toList).textUpToEnd text.toList = text.toList := by
      have htake := takeBytes_append text.toList []
      rw [List.append_nil] at htake
      rw [Span.textUpToEnd, endSpan, Cursor.offset_start_skip, htake, Option.getD_some]
    rw [hall, and_iff_right rfl]
    exact finds_endSpan_iff text.toList

/-- Behind a lone carriage return a stray character is marked in front of the text. -/
theorem byteOffset_range_iff_return :
    (⟨8, 9, ⟨1, 9⟩, ⟨1, 9⟩⟩ : Span) ∈ reportedSpans "\ra -> b $" ∧
      (LineMap.ofText "\ra -> b $").range ⟨8, 9, ⟨1, 9⟩, ⟨1, 9⟩⟩ = ⟨⟨0, 0⟩, ⟨0, 0⟩⟩ ∧
      ¬ ((LineMap.ofText "\ra -> b $").byteOffset ⟨0, 0⟩ = 8 ∧
        (LineMap.ofText "\ra -> b $").byteOffset ⟨0, 0⟩ = 9) := by
  have hmem : (⟨8, 9, ⟨1, 9⟩, ⟨1, 9⟩⟩ : Span) ∈ reportedSpans "\ra -> b $" := by decide +kernel
  have hrange : (LineMap.ofText "\ra -> b $").range ⟨8, 9, ⟨1, 9⟩, ⟨1, 9⟩⟩ =
      ⟨⟨0, 0⟩, ⟨0, 0⟩⟩ := by decide +kernel
  refine ⟨hmem, hrange, fun hfound => ?_⟩
  have hiff := byteOffset_range_iff hmem
  rw [hrange] at hiff
  rcases hiff.mp hfound with hplain | ⟨hend, -⟩
  · revert hplain
    decide +kernel
  · revert hend
    decide +kernel

end Editor

end Diagram
