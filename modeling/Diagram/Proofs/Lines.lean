import Diagram.Editor.LineMap
import Diagram.Proofs.Offsets

/-!
# Lines of the editor and of the language

The positions of spans count the line feeds of a text, and the editor looks them up among lines
that end at seven more characters.  Where all line breaks in front of a place are line feeds, with
or without a carriage return, both count alike and the place is found.  One other break, and the
editor looks in an earlier line, which ends before the place.

## Main definitions

* `hasPlainBreaks` — a text whose lines all end in line feeds.
* `stripBreak` — a line without the line feed and the carriage return at its end.

## Main statements

* `breakLines_append` — the lines of a text in two parts.
* `length_breakLines_eq_iff` — lines are counted alike exactly when all breaks are plain.
* `charOffset_place_of_plain` — behind plain breaks a position is found, also when its column lies
  behind the end of the line.
* `charOffset_place_lt` — behind other breaks it is looked for too early.
-/

namespace Diagram

/-! ## Positions -/

/-- A line begins behind each line feed. -/
theorem line_skip (cur : Cursor) (a : List Char) :
    (cur.skip a).position.line = cur.position.line + a.count '\n' := by
  induction a generalizing cur with
  | nil => rfl
  | cons c cs ih =>
    rw [Cursor.skip_cons, ih, Cursor.next, Position.next, List.count_cons]
    by_cases hc : c = '\n'
    · simp [hc, Nat.add_right_comm, Nat.add_assoc]
    · simp [hc]

namespace Editor

/-! ## Lines -/

theorem isLineBreak_feed : isLineBreak '\n' := by decide

theorem ne_feed {c : Char} (h : isLineBreak c = false) : c ≠ '\n' := by
  rintro rfl
  simp [isLineBreak] at h

theorem ne_return {c : Char} (h : isLineBreak c = false) : c ≠ '\r' := by
  rintro rfl
  simp [isLineBreak] at h

@[simp] theorem breakLines_ne_nil (text : List Char) : breakLines text ≠ [] := by
  fun_induction breakLines text <;> simp

/-- A character that is no line break goes to the first line. -/
theorem breakLines_cons {c : Char} (h : isLineBreak c = false) {cs l : List Char}
    {ls : List (List Char)} (hcs : breakLines cs = l :: ls) :
    breakLines (c :: cs) = (c :: l) :: ls := by
  rw [breakLines.eq_3 _ _ (by simp [ne_return h]), if_neg (by simp [h]), hcs]

/-- A line break is the end of the first line. -/
theorem breakLines_break {c : Char} (h : isLineBreak c) {cs : List Char}
    (hcs : c = '\r' → cs.head? ≠ some '\n') : breakLines (c :: cs) = [c] :: breakLines cs := by
  rw [breakLines.eq_3 _ _ fun ds hc hds => hcs hc (by simp [hds]), if_pos h]

/-- A carriage return and a line feed are the end of one line. -/
theorem breakLines_return (cs : List Char) :
    breakLines ('\r' :: '\n' :: cs) = ['\r', '\n'] :: breakLines cs := breakLines.eq_2 cs

/-- **The ways in which a text can start**: with a carriage return and a line feed, with another
line break, or with a character that is none. -/
theorem breakLines_cases {P : List Char → Prop} (nil : P [])
    (pair : ∀ cs, P cs → P ('\r' :: '\n' :: cs))
    (single : ∀ c cs, isLineBreak c → (c = '\r' → cs.head? ≠ some '\n') → P cs → P (c :: cs))
    (other : ∀ c cs, isLineBreak c = false → P cs → P (c :: cs)) (text : List Char) : P text := by
  fun_induction breakLines text with
  | case1 => exact nil
  | case2 cs ih => exact pair cs ih
  | case3 c cs hne hbreak ih =>
    refine single c cs hbreak (fun hc hhead => ?_) ih
    obtain ⟨ds, rfl⟩ := List.head?_eq_some_iff.mp hhead
    exact hne ds hc rfl
  | case4 c cs hne hbreak hnil ih => exact other c cs (by simpa using hbreak) ih
  | case5 c cs hne hbreak l ls hcons ih => exact other c cs (by simpa using hbreak) ih

/-- **Every line but the last ends in a line break**, and the last one has none. -/
theorem exists_breakLines (text : List Char) :
    ∃ init x, breakLines text = init ++ [x] ∧ (∀ c ∈ x, isLineBreak c = false) ∧
      ∀ l ∈ init, ∃ u c, l = u ++ [c] ∧ isLineBreak c := by
  induction text using breakLines_cases with
  | nil => exact ⟨[], [], rfl, nofun, nofun⟩
  | pair cs ih =>
    obtain ⟨init, x, hcs, hx, hinit⟩ := ih
    refine ⟨['\r', '\n'] :: init, x, by rw [breakLines_return, hcs]; rfl, hx, ?_⟩
    exact List.forall_mem_cons.mpr ⟨⟨['\r'], '\n', rfl, isLineBreak_feed⟩, hinit⟩
  | single c cs hc hpair ih =>
    obtain ⟨init, x, hcs, hx, hinit⟩ := ih
    refine ⟨[c] :: init, x, by rw [breakLines_break hc hpair, hcs]; rfl, hx, ?_⟩
    exact List.forall_mem_cons.mpr ⟨⟨[], c, rfl, hc⟩, hinit⟩
  | other c cs hc ih =>
    obtain ⟨init, x, hcs, hx, hinit⟩ := ih
    cases init with
    | nil => exact ⟨[], c :: x, breakLines_cons hc hcs, List.forall_mem_cons.mpr ⟨hc, hx⟩, nofun⟩
    | cons l init =>
      obtain ⟨⟨u, d, rfl, hd⟩, hrest⟩ := List.forall_mem_cons.mp hinit
      refine ⟨(c :: (u ++ [d])) :: init, x, breakLines_cons hc hcs, hx, ?_⟩
      exact List.forall_mem_cons.mpr ⟨⟨c :: u, d, rfl, hd⟩, hrest⟩

/-- The line in front of others is the first of them all. -/
theorem cons_eq_concat {l x : List Char} {ls init : List (List Char)} (hls : ls ≠ [])
    (h : l :: ls = init ++ [x]) : ∃ init', init = l :: init' ∧ ls = init' ++ [x] := by
  cases init with
  | nil => exact absurd (List.cons.inj h).2 hls
  | cons l' init' =>
    obtain ⟨rfl, htail⟩ := List.cons.inj h
    exact ⟨init', rfl, htail⟩

theorem eq_nil_of_breakLines_nil {x : List Char} {init : List (List Char)}
    (h : breakLines [] = init ++ [x]) : init = [] ∧ x = [] := by
  cases init <;> simp_all [breakLines]

/-- A character that is no line break stands in the last line or in front of the first. -/
theorem breakLines_cons_cases {c : Char} (hc : isLineBreak c = false) {cs x : List Char}
    {init : List (List Char)} (h : breakLines (c :: cs) = init ++ [x]) :
    (∃ x', breakLines cs = [x'] ∧ init = [] ∧ x = c :: x') ∨
      ∃ l init', breakLines cs = (l :: init') ++ [x] ∧ init = (c :: l) :: init' := by
  obtain ⟨l, ls, hcs⟩ := List.exists_cons_of_ne_nil (breakLines_ne_nil cs)
  rw [breakLines_cons hc hcs] at h
  cases ls with
  | nil =>
    obtain ⟨rfl, hx⟩ := List.append_inj' ((List.nil_append [c :: l]).trans h) rfl
    exact .inl ⟨l, hcs, rfl, (List.cons.inj hx).1.symm⟩
  | cons l' ls =>
    obtain ⟨init', rfl, hls⟩ := cons_eq_concat (List.cons_ne_nil l' ls) h
    exact .inr ⟨l, init', by rw [hcs, hls, List.cons_append], rfl⟩

/-- Whether a cut between two texts separates a carriage return from its line feed. -/
def CutsPair (a b : List Char) : Prop := a.getLast? = some '\r' ∧ b.head? = some '\n'

theorem CutsPair.cons {c : Char} {a b : List Char} (h : CutsPair a b) : CutsPair (c :: a) b :=
  ⟨by simp [List.getLast?_cons, h.1], h.2⟩

theorem not_cutsPair_cons {c : Char} (hc : c ≠ '\n') (a b : List Char) : ¬ CutsPair a (c :: b) :=
  fun h => hc (Option.some.inj h.2)

theorem not_cutsPair_concat {c : Char} (hc : c ≠ '\r') (a b : List Char) :
    ¬ CutsPair (a ++ [c]) b :=
  fun h => hc (by simpa using h.1)

/-- **The lines of a text in two parts.**  The last line of the first part and the first line of
the second become one. -/
theorem breakLines_append {a b x y : List Char} {init ls : List (List Char)}
    (ha : breakLines a = init ++ [x]) (hb : breakLines b = y :: ls) (hcut : ¬ CutsPair a b) :
    breakLines (a ++ b) = init ++ (x ++ y) :: ls := by
  induction a using breakLines_cases generalizing init x with
  | nil =>
    obtain ⟨rfl, rfl⟩ := eq_nil_of_breakLines_nil ha
    exact hb
  | pair cs ih =>
    rw [breakLines_return] at ha
    obtain ⟨init, rfl, hcs⟩ := cons_eq_concat (breakLines_ne_nil cs) ha
    rw [List.cons_append, List.cons_append, breakLines_return, ih hcs fun h => hcut h.cons.cons]
    rfl
  | single c cs hc hpair ih =>
    rw [breakLines_break hc hpair] at ha
    obtain ⟨init, rfl, hcs⟩ := cons_eq_concat (breakLines_ne_nil cs) ha
    -- a carriage return at the end of the first part does not meet a line feed, as no pair is cut
    have hpair' : c = '\r' → (cs ++ b).head? ≠ some '\n' := by
      rintro rfl hhead
      cases cs with
      | nil => exact hcut ⟨rfl, hhead⟩
      | cons d cs => exact hpair rfl hhead
    rw [List.cons_append, breakLines_break hc hpair', ih hcs fun h => hcut h.cons]
    rfl
  | other c cs hc ih =>
    have hcut' : ¬ CutsPair cs b := fun h => hcut h.cons
    obtain ⟨x', hcs, rfl, rfl⟩ | ⟨l, init', hcs, rfl⟩ := breakLines_cons_cases hc ha
    · rw [← List.nil_append [x']] at hcs
      exact breakLines_cons hc (ih hcs hcut')
    · exact breakLines_cons hc (ih hcs hcut')

/-! ## Plain breaks -/

/-- Whether all lines end in line feeds, with or without a carriage return in front. -/
def hasPlainBreaks : List Char → Bool
  | [] => true
  | c :: cs =>
    (!isLineBreak c || c = '\n' || (c = '\r' && cs.head? = some '\n')) && hasPlainBreaks cs

theorem hasPlainBreaks_pair (cs : List Char) :
    hasPlainBreaks ('\r' :: '\n' :: cs) = hasPlainBreaks cs := by
  simp [hasPlainBreaks]

theorem hasPlainBreaks_single {c : Char} {cs : List Char} (hc : isLineBreak c)
    (hpair : c = '\r' → cs.head? ≠ some '\n') :
    hasPlainBreaks (c :: cs) = (decide (c = '\n') && hasPlainBreaks cs) := by
  have hno : (decide (c = '\r') && decide (cs.head? = some '\n')) = false := by simpa using hpair
  rw [hasPlainBreaks, hc, hno, Bool.not_true, Bool.false_or, Bool.or_false]

theorem hasPlainBreaks_other {c : Char} (hc : isLineBreak c = false) (cs : List Char) :
    hasPlainBreaks (c :: cs) = hasPlainBreaks cs := by
  simp [hasPlainBreaks, hc]

/-- The editor has at least the lines of the language. -/
theorem count_lt_length_breakLines (a : List Char) : a.count '\n' < (breakLines a).length := by
  induction a using breakLines_cases with
  | nil => simp [breakLines]
  | pair cs ih =>
    rw [breakLines_return, List.count_cons_of_ne (by decide), List.count_cons_self,
      List.length_cons]
    omega
  | single c cs hc hpair ih =>
    rw [breakLines_break hc hpair, List.count_cons, List.length_cons]
    split <;> omega
  | other c cs hc ih =>
    obtain ⟨l, ls, hcs⟩ := List.exists_cons_of_ne_nil (breakLines_ne_nil cs)
    rw [hcs] at ih
    rw [breakLines_cons hc hcs, List.count_cons_of_ne (ne_feed hc)]
    exact ih

/-- **Editor and language count the same lines exactly when all breaks are plain.** -/
theorem length_breakLines_eq_iff (a : List Char) :
    (breakLines a).length = a.count '\n' + 1 ↔ hasPlainBreaks a := by
  induction a using breakLines_cases with
  | nil => simp [breakLines, hasPlainBreaks]
  | pair cs ih =>
    rw [breakLines_return, List.count_cons_of_ne (by decide), List.count_cons_self,
      List.length_cons, Nat.add_right_cancel_iff, ih, hasPlainBreaks_pair]
  | single c cs hc hpair ih =>
    rw [breakLines_break hc hpair, List.count_cons, List.length_cons,
      hasPlainBreaks_single hc hpair]
    by_cases hfeed : c = '\n'
    · simp [hfeed, ih]
    · have := count_lt_length_breakLines cs
      simp [hfeed]
      omega
  | other c cs hc ih =>
    obtain ⟨l, ls, hcs⟩ := List.exists_cons_of_ne_nil (breakLines_ne_nil cs)
    rw [hcs] at ih
    rw [breakLines_cons hc hcs, List.count_cons_of_ne (ne_feed hc), hasPlainBreaks_other hc]
    exact ih

/-- Behind plain breaks a column counts the characters of the last line. -/
theorem column_of_plain {a x : List Char} {init : List (List Char)}
    (ha : breakLines a = init ++ [x]) (h : hasPlainBreaks a) (cur : Cursor) :
    (cur.skip a).position.column = (if init = [] then cur.position.column else 1) + x.length := by
  induction a using breakLines_cases generalizing init x cur with
  | nil =>
    obtain ⟨rfl, rfl⟩ := eq_nil_of_breakLines_nil ha
    rfl
  | pair cs ih =>
    rw [breakLines_return] at ha
    rw [hasPlainBreaks_pair] at h
    obtain ⟨init, rfl, hcs⟩ := cons_eq_concat (breakLines_ne_nil cs) ha
    rw [Cursor.skip_cons, Cursor.skip_cons, ih hcs h]
    simp [Cursor.next, Position.next]
  | single c cs hc hpair ih =>
    rw [breakLines_break hc hpair] at ha
    rw [hasPlainBreaks_single hc hpair, Bool.and_eq_true_iff, decide_eq_true_eq] at h
    obtain ⟨rfl, h⟩ := h
    obtain ⟨init, rfl, hcs⟩ := cons_eq_concat (breakLines_ne_nil cs) ha
    rw [Cursor.skip_cons, ih hcs h]
    simp [Cursor.next, Position.next]
  | other c cs hc ih =>
    rw [hasPlainBreaks_other hc] at h
    obtain ⟨x', hcs, rfl, rfl⟩ | ⟨l, init', hcs, rfl⟩ := breakLines_cons_cases hc ha
    · rw [← List.nil_append [x']] at hcs
      rw [Cursor.skip_cons, ih hcs h]
      simp only [Cursor.next, Position.next, if_neg (ne_feed hc), if_true, List.length_cons]
      omega
    · rw [Cursor.skip_cons, ih hcs h]
      simp

/-! ## Places -/

/-- A line without the line feed and the carriage return at its end. -/
def stripBreak (l : List Char) : List Char :=
  (l.reverse.dropWhile (fun c => c = '\n' || c = '\r')).reverse

theorem length_stripBreak_le (l : List Char) : (stripBreak l).length ≤ l.length := by
  have hle : (l.reverse.dropWhile fun c => c = '\n' || c = '\r').length ≤ l.reverse.length :=
    (List.dropWhile_sublist _).length_le
  rw [List.length_reverse] at hle
  rwa [stripBreak, List.length_reverse]

/-- Only the end of a line is stripped. -/
theorem stripBreak_append {x : List Char} (hx : ∀ c ∈ x, isLineBreak c = false) (y : List Char) :
    stripBreak (x ++ y) = x ++ stripBreak y := by
  have hkeep : x.reverse.dropWhile (fun c => c = '\n' || c = '\r') = x.reverse := by
    cases hrev : x.reverse with
    | nil => rfl
    | cons c cs =>
      have hc : isLineBreak c = false := hx c (List.mem_reverse.mp (by simp [hrev]))
      exact List.dropWhile_cons_of_neg (by simp [ne_feed hc, ne_return hc])
  rw [stripBreak, stripBreak, List.reverse_append, List.dropWhile_append, hkeep]
  split
  · next h => simp [List.isEmpty_iff.mp h]
  · simp

/-- Other breaks are not stripped. -/
theorem stripBreak_of_ne {c : Char} (hfeed : c ≠ '\n') (hreturn : c ≠ '\r') (l : List Char) :
    stripBreak (l ++ [c]) = l ++ [c] := by
  simp [stripBreak, hfeed, hreturn]

/-- A line that ends in another character is stripped of nothing. -/
theorem ne_of_length_stripBreak {l : List Char} {c : Char}
    (h : (l ++ [c]).length ≤ (stripBreak (l ++ [c])).length) : c ≠ '\n' ∧ c ≠ '\r' := by
  have hshort : c = '\n' ∨ c = '\r' → stripBreak (l ++ [c]) = stripBreak l := by
    rintro (rfl | rfl) <;> simp [stripBreak]
  have hle := length_stripBreak_le l
  rw [List.length_append, List.length_singleton] at h
  refine not_or.mp fun hc => ?_
  rw [hshort hc] at h
  omega

theorem charsWithin_units_take (k : Nat) (w : List Char) :
    charsWithin (units (w.take k)) w = min k w.length := by
  induction w generalizing k with
  | nil => simp [charsWithin]
  | cons c cs ih =>
    cases k with
    | zero =>
      have hpos : 0 < unitSize c := by
        unfold unitSize
        split <;> decide
      simp [charsWithin, units]
      omega
    | succ k =>
      have hunits : units ((c :: cs).take (k + 1)) = unitSize c + units (cs.take k) := rfl
      rw [hunits, charsWithin, if_pos (Nat.le_add_right _ _), Nat.add_sub_cancel_left, ih,
        List.length_cons]
      omega

namespace LineMap

/-- The place of a line and a column, found again: on that line, or on the last one, and in that
column, or at the end of the line. -/
theorem charOffset_place (m : LineMap) (line column : Nat) :
    m.charOffset (m.place ⟨line, column⟩) = m.lineStart (m.clampLine (line - 1)) +
      min (column - 1) (stripBreak (m.lines.getD (m.clampLine (line - 1)) [])).length := by
  have hclamp : m.clampLine (m.clampLine (line - 1)) = m.clampLine (line - 1) := by
    simp [clampLine]
  simp only [charOffset, linePrefix, place, hclamp, charsWithin_units_take, List.length_take,
    Nat.min_assoc, Nat.min_self]
  rfl

variable {a b x y : List Char} {init ls : List (List Char)}

/-- The line of a place behind some text, among the lines of the editor. -/
theorem clampLine_line (ha : breakLines a = init ++ [x]) (hb : breakLines b = y :: ls)
    (hcut : ¬ CutsPair a b) :
    (LineMap.mk (breakLines (a ++ b))).clampLine ((Cursor.start.skip a).position.line - 1) =
      a.count '\n' := by
  have hcount := count_lt_length_breakLines a
  rw [ha, List.length_append, List.length_singleton] at hcount
  rw [clampLine, lastLine, line_skip, breakLines_append ha hb hcut]
  simp [Cursor.start, Position.first]
  omega

/-- **Behind plain breaks a position is found.**  A position behind the end of its line is found
at that end. -/
theorem charOffset_place_of_plain (hb : breakLines b = y :: ls) (hcut : ¬ CutsPair a b)
    (h : hasPlainBreaks a) (behind : Nat) :
    (LineMap.mk (breakLines (a ++ b))).charOffset ((LineMap.mk (breakLines (a ++ b))).place
        ⟨(Cursor.start.skip a).position.line, (Cursor.start.skip a).position.column + behind⟩) =
      a.length + min behind (stripBreak y).length := by
  obtain ⟨init, x, ha, hx, -⟩ := exists_breakLines a
  have hlines := (length_breakLines_eq_iff a).mpr h
  have hcolumn := column_of_plain ha h Cursor.start
  have hlength : a.length = init.flatten.length + x.length := by
    rw [← flatten_breakLines a, ha]
    simp
  rw [ha, List.length_append, List.length_singleton, Nat.add_right_cancel_iff] at hlines
  have hstart : (if init = [] then Cursor.start.position.column else 1) = 1 := by
    split <;> rfl
  rw [charOffset_place, clampLine_line ha hb hcut, ← hlines, hcolumn, hstart, lineStart,
    breakLines_append ha hb hcut]
  simp [stripBreak_append hx, hlength]
  omega

/-- The number of the line of a position behind other breaks. -/
theorem line_lt_of_not_plain (ha : breakLines a = init ++ [x]) (h : hasPlainBreaks a = false) :
    a.count '\n' < init.length := by
  have hle := count_lt_length_breakLines a
  have hne : (breakLines a).length ≠ a.count '\n' + 1 := by
    rw [ne_eq, length_breakLines_eq_iff, h]
    exact Bool.false_ne_true
  rw [ha, List.length_append, List.length_singleton] at hle hne
  omega

/-- Behind other breaks a position is looked for in a line that ends before it. -/
theorem charOffset_place_of_not_plain (ha : breakLines a = init ++ [x])
    (hb : breakLines b = y :: ls) (hcut : ¬ CutsPair a b) (h : hasPlainBreaks a = false)
    (column : Nat) :
    ∃ before l after, init = before ++ l :: after ∧ before.length = a.count '\n' ∧
      (LineMap.mk (breakLines (a ++ b))).charOffset ((LineMap.mk (breakLines (a ++ b))).place
        ⟨(Cursor.start.skip a).position.line, column⟩) =
      before.flatten.length + min (column - 1) (stripBreak l).length := by
  have hlt := line_lt_of_not_plain ha h
  refine ⟨init.take (a.count '\n'), init[a.count '\n'], init.drop (a.count '\n' + 1), ?_, ?_, ?_⟩
  · rw [← List.drop_eq_getElem_cons hlt, List.take_append_drop]
  · rw [List.length_take, Nat.min_eq_left (Nat.le_of_lt hlt)]
  · rw [charOffset_place, clampLine_line ha hb hcut, lineStart, breakLines_append ha hb hcut,
      List.take_append_of_le_length (Nat.le_of_lt hlt)]
    simp [List.getElem?_append_left hlt, List.getElem?_eq_getElem hlt]

/-- A line ends behind its break, which may be stripped. -/
theorem length_flatten_split (before after : List (List Char)) (l x : List Char) :
    (before ++ l :: after ++ [x]).flatten.length =
      before.flatten.length + l.length + after.flatten.length + x.length := by
  simp [Nat.add_assoc]

/-- **Behind other breaks the end of a line is looked for too early.** -/
theorem charOffset_place_lt {c : Char} (hc : isLineBreak c = false)
    (h : hasPlainBreaks (a ++ [c]) = false) (column : Nat) :
    (LineMap.mk (breakLines (a ++ [c] ++ b))).charOffset
        ((LineMap.mk (breakLines (a ++ [c] ++ b))).place
          ⟨(Cursor.start.skip (a ++ [c])).position.line, column⟩) < (a ++ [c]).length := by
  obtain ⟨init, x, ha, -, -⟩ := exists_breakLines a
  obtain ⟨y, ls, hb⟩ := List.exists_cons_of_ne_nil (breakLines_ne_nil b)
  -- The line behind all breaks is not empty, since it ends in the last character.
  have hac : breakLines (a ++ [c]) = init ++ [x ++ [c]] :=
    breakLines_append ha (breakLines_cons hc rfl) (not_cutsPair_cons (ne_feed hc) a [])
  obtain ⟨before, l, after, rfl, -, hoffset⟩ := charOffset_place_of_not_plain hac hb
    (not_cutsPair_concat (ne_return hc) a b) h column
  have hlength := length_flatten_split before after l (x ++ [c])
  rw [← hac, flatten_breakLines] at hlength
  have hle := length_stripBreak_le l
  rw [hoffset, hlength, List.length_append, List.length_singleton]
  omega

/-- A last break that makes the only line that is not counted stands behind plain breaks. -/
theorem hasPlainBreaks_of_length {c : Char} (hc : isLineBreak c) (hfeed : c ≠ '\n')
    (hreturn : c ≠ '\r')
    (h : (breakLines (a ++ [c])).length = (a ++ [c]).count '\n' + 2) : hasPlainBreaks a := by
  obtain ⟨init, x, ha, -, -⟩ := exists_breakLines a
  have hsplit : breakLines (a ++ [c]) = init ++ (x ++ [c]) :: [[]] :=
    breakLines_append ha (breakLines_break hc fun hr => absurd hr hreturn)
      (not_cutsPair_cons hfeed a [])
  have hcount : (a ++ [c]).count '\n' = a.count '\n' := by
    rw [List.count_append, List.count_singleton, beq_eq_false_iff_ne.mpr hfeed]
    rfl
  rw [hsplit, hcount] at h
  rw [← length_breakLines_eq_iff, ha]
  simpa using h

/-- **Behind other breaks the end of a text is found only when its last character is the first such
break.** -/
theorem exists_of_charOffset_place_eq {text : List Char} (hcut : ¬ CutsPair text b)
    (h : hasPlainBreaks text = false) {column : Nat}
    (heq : (LineMap.mk (breakLines (text ++ b))).charOffset
      ((LineMap.mk (breakLines (text ++ b))).place
        ⟨(Cursor.start.skip text).position.line, column⟩) = text.length) :
    ∃ a c, text = a ++ [c] ∧ isLineBreak c ∧ c ≠ '\n' ∧ c ≠ '\r' ∧ hasPlainBreaks a := by
  obtain ⟨init, x, ha, hx, hinit⟩ := exists_breakLines text
  obtain ⟨y, ls, hb⟩ := List.exists_cons_of_ne_nil (breakLines_ne_nil b)
  obtain ⟨before, l, after, rfl, hbefore, hoffset⟩ :=
    charOffset_place_of_not_plain ha hb hcut h column
  rw [heq] at hoffset
  have hlength := length_flatten_split before after l x
  rw [← ha, flatten_breakLines] at hlength
  have hle := length_stripBreak_le l
  -- a line that is left behind the place would have to be empty, and so would the last one
  have hafter : after = [] := by
    cases after with
    | nil => rfl
    | cons l' after =>
      obtain ⟨u, c, rfl, -⟩ := hinit l' (by simp)
      simp only [List.flatten_cons, List.length_append, List.length_singleton] at hlength
      omega
  have hxnil : x = [] := List.length_eq_zero_iff.mp (by omega)
  obtain ⟨u, c, rfl, hc⟩ := hinit l (by simp)
  subst hafter hxnil
  obtain ⟨hfeed, hreturn⟩ := ne_of_length_stripBreak (l := u) (c := c) (by omega)
  have htext : text = before.flatten ++ u ++ [c] := by
    have hflat := flatten_breakLines text
    rw [ha] at hflat
    simpa using hflat.symm
  refine ⟨before.flatten ++ u, c, htext, hc, hfeed, hreturn, ?_⟩
  refine hasPlainBreaks_of_length hc hfeed hreturn ?_
  rw [← htext, ha, ← hbefore]
  simp

/-- Behind a last break that is the first that is not plain, the end of the text is found. -/
theorem charOffset_place_of_last {c : Char} (hc : isLineBreak c) (hfeed : c ≠ '\n')
    (hreturn : c ≠ '\r') (h : hasPlainBreaks a) (behind : Nat) :
    (LineMap.mk (breakLines (a ++ [c] ++ b))).charOffset
        ((LineMap.mk (breakLines (a ++ [c] ++ b))).place
          ⟨(Cursor.start.skip (a ++ [c])).position.line,
            (Cursor.start.skip (a ++ [c])).position.column + behind⟩) = (a ++ [c]).length := by
  have hb : breakLines (c :: b) = [c] :: breakLines b :=
    breakLines_break hc fun hr => absurd hr hreturn
  have hposition : (Cursor.start.skip (a ++ [c])).position =
      ⟨(Cursor.start.skip a).position.line, (Cursor.start.skip a).position.column + 1⟩ := by
    rw [Cursor.skip_append, Cursor.skip_cons, Cursor.skip_nil, Cursor.next, Position.next,
      if_neg hfeed]
  have hstrip : stripBreak [c] = [c] := stripBreak_of_ne hfeed hreturn []
  have hoffset := charOffset_place_of_plain hb (not_cutsPair_cons hfeed a b) h (1 + behind)
  rw [hstrip, List.length_singleton, Nat.min_eq_right (Nat.le_add_right 1 behind)] at hoffset
  rw [hposition, List.length_append, List.length_singleton, Nat.add_assoc, List.append_assoc]
  exact hoffset

/-! ## Bytes -/

theorem length_linePrefix_le (m : LineMap) (p : Place) :
    (m.linePrefix p).length ≤ (m.lines.getD (m.clampLine p.line) []).length := by
  rw [linePrefix, List.length_take]
  exact Nat.le_trans (Nat.min_le_right _ _) (length_stripBreak_le _)

/-- What stands before a line and the line itself are part of the whole. -/
theorem length_take_add_getD_le (ls : List (List Char)) (n : Nat) :
    (ls.take n).flatten.length + (ls.getD n []).length ≤ ls.flatten.length := by
  induction ls generalizing n with
  | nil => simp
  | cons l ls ih =>
    cases n with
    | zero => simp
    | succ n =>
      have := ih n
      simp only [List.take_succ_cons, List.flatten_cons, List.length_append, List.getD_cons_succ]
      omega

/-- Every place is in the text. -/
theorem charOffset_le (m : LineMap) (p : Place) : m.charOffset p ≤ m.text.length := by
  have hprefix := length_linePrefix_le m p
  have hline := length_take_add_getD_le m.lines (m.clampLine p.line)
  rw [charOffset, lineStart, text]
  omega

/-- A place is found in bytes when it is found in characters. -/
theorem byteOffset_eq_iff (p : Place) :
    (LineMap.mk (breakLines (a ++ b))).byteOffset p = byteSize a ↔
      (LineMap.mk (breakLines (a ++ b))).charOffset p = a.length := by
  have hle := charOffset_le (LineMap.mk (breakLines (a ++ b))) p
  have htext : (LineMap.mk (breakLines (a ++ b))).text = a ++ b := flatten_breakLines _
  rw [byteOffset]
  rw [htext] at hle ⊢
  generalize (LineMap.mk (breakLines (a ++ b))).charOffset p = n at hle ⊢
  have hn : (a ++ b).take n <+: a ++ b := List.take_prefix n _
  have ha : a <+: a ++ b := List.prefix_append a b
  constructor
  · intro h
    have hsame : (a ++ b).take n = a :=
      (prefix_of_byteSize_le hn ha (Nat.le_of_eq h)).eq_of_length_le
        (prefix_of_byteSize_le ha hn (Nat.le_of_eq h.symm)).length_le
    rw [← hsame, List.length_take, Nat.min_eq_left hle]
  · rintro rfl
    rw [List.take_left]

end LineMap

end Editor

end Diagram
