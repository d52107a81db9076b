import Diagram.Proofs.Nesting

/-!
# Places and offsets

A place of the editor counts UTF-16 units, and its offset counts characters.  The characters that
fit into a number of units are the most whose units do not exceed it, so each of the two counts is
determined by the other one, and offsets follow the order of the places.

A place behind the last line is moved to the last line, but keeps its units: there the order of the
places is that of the places they are moved to.  A place behind the end of a line is moved to the
end of what is left of the line without its break.  Only line feeds and carriage returns are
stripped, so a line that ends in another break ends for the editor where the next line starts.
-/

namespace Diagram

namespace Editor

/-! ## Units -/

theorem charsWithin_le_length (n : Nat) (w : List Char) : charsWithin n w ≤ w.length := by
  induction w generalizing n with
  | nil => simp [charsWithin]
  | cons c cs ih =>
    rw [charsWithin]
    split
    · simpa using ih (n - unitSize c)
    · exact Nat.zero_le _

/-- **The characters that fit into a number of units** are the most whose units do not exceed it. -/
theorem le_charsWithin_iff {k n : Nat} {w : List Char} (hk : k ≤ w.length) :
    k ≤ charsWithin n w ↔ units (w.take k) ≤ n := by
  induction w generalizing k n with
  | nil =>
    obtain rfl : k = 0 := Nat.le_zero.mp hk
    simp [units]
  | cons c cs ih =>
    cases k with
    | zero => simp [units]
    | succ k =>
      have hunits : units ((c :: cs).take (k + 1)) = unitSize c + units (cs.take k) := rfl
      rw [hunits, charsWithin]
      split
      · have h := ih (n := n - unitSize c) (Nat.le_of_succ_le_succ hk)
        omega
      · omega

theorem charsWithin_mono {n n' : Nat} (h : n ≤ n') (w : List Char) :
    charsWithin n w ≤ charsWithin n' w := by
  have hle := charsWithin_le_length n w
  have hunits := (le_charsWithin_iff hle).mp le_rfl
  exact (le_charsWithin_iff hle).mpr (hunits.trans h)

/-- A number of units that ends inside a surrogate pair: between the two units of a character. -/
def SplitsPair (w : List Char) (n : Nat) : Prop :=
  ∃ a c b, w = a ++ c :: b ∧ unitSize c = 2 ∧ n = units a + 1

theorem unitSize_eq (c : Char) : unitSize c = 1 ∨ unitSize c = 2 := by
  unfold unitSize
  split
  · exact .inl rfl
  · exact .inr rfl

@[simp] theorem not_splitsPair_nil (n : Nat) : ¬ SplitsPair [] n := by
  rintro ⟨a, c, b, h, -⟩
  exact absurd h.symm (by simp)

/-- A pair is split at the first character or behind it. -/
theorem splitsPair_cons_iff {c : Char} {w : List Char} {n : Nat} : SplitsPair (c :: w) n ↔
    (unitSize c = 2 ∧ n = 1) ∨ (unitSize c ≤ n ∧ SplitsPair w (n - unitSize c)) := by
  constructor
  · rintro ⟨a, d, b, h, hd, rfl⟩
    cases a with
    | nil =>
      obtain ⟨rfl, -⟩ := List.cons.inj h
      exact .inl ⟨hd, rfl⟩
    | cons e a =>
      obtain ⟨rfl, rfl⟩ := List.cons.inj h
      have hunits : units (c :: a) = unitSize c + units a := rfl
      exact .inr ⟨by omega, a, d, b, rfl, hd, by omega⟩
  · rintro (⟨hc, rfl⟩ | ⟨hle, a, d, b, rfl, hd, hn⟩)
    · exact ⟨[], c, w, rfl, hc, rfl⟩
    · have hunits : units (c :: a) = unitSize c + units a := rfl
      exact ⟨c :: a, d, b, rfl, hd, by omega⟩

/-- Whether a pair is split is found by reading on. -/
instance decidableSplitsPair : (w : List Char) → (n : Nat) → Decidable (SplitsPair w n)
  | [], n => .isFalse (not_splitsPair_nil n)
  | c :: w, n =>
    have := decidableSplitsPair w (n - unitSize c)
    decidable_of_iff _ splitsPair_cons_iff.symm

/-- A number of units that splits no surrogate pair is filled by the characters that fit. -/
theorem units_take_charsWithin {n : Nat} {w : List Char} (hle : n ≤ units w)
    (hsplit : ¬ SplitsPair w n) : units (w.take (charsWithin n w)) = n := by
  induction w generalizing n with
  | nil =>
    obtain rfl : n = 0 := Nat.le_zero.mp hle
    rfl
  | cons c cs ih =>
    have hcons : units (c :: cs) = unitSize c + units cs := rfl
    obtain ⟨hfirst, hrest⟩ := not_or.mp (mt splitsPair_cons_iff.mpr hsplit)
    rw [charsWithin]
    split
    · next hfits =>
      have htake : units ((c :: cs).take (charsWithin (n - unitSize c) cs + 1)) =
          unitSize c + units (cs.take (charsWithin (n - unitSize c) cs)) := rfl
      rw [htake, ih (by omega) fun h => hrest ⟨hfits, h⟩]
      omega
    · next hfits =>
      -- Less than the first character needs is nothing, or one unit of a pair.
      have hzero : n = 0 := by
        rcases unitSize_eq c with hc | hc <;> omega
      rw [hzero]
      rfl

/-! ## Offsets in the order of the places -/

namespace LineMap

theorem lineStart_succ (m : LineMap) (line : Nat) :
    m.lineStart (line + 1) = m.lineStart line + (m.lines.getD line []).length := by
  rw [lineStart, lineStart, List.take_add_one, List.flatten_append, List.length_append]
  cases h : m.lines[line]? <;> simp [List.getD, h]

theorem lineStart_mono (m : LineMap) {line line' : Nat} (h : line ≤ line') :
    m.lineStart line ≤ m.lineStart line' := by
  induction h with
  | refl => exact le_rfl
  | step _ ih =>
    rw [lineStart_succ]
    exact ih.trans (Nat.le_add_right _ _)

theorem length_linePrefix (m : LineMap) (p : Place) :
    (m.linePrefix p).length = charsWithin p.unit (m.content (m.clampLine p.line)) := by
  rw [linePrefix, List.length_take]
  exact Nat.min_eq_left (charsWithin_le_length _ _)

/-- A place is not moved over the start of the next line. -/
theorem charOffset_le_lineStart (m : LineMap) (p : Place) :
    m.charOffset p ≤ m.lineStart (m.clampLine p.line + 1) := by
  rw [charOffset, lineStart_succ]
  exact Nat.add_le_add_left (length_linePrefix_le m p) _

theorem clampLine_of_lt (m : LineMap) {line : Nat} (h : line < m.lines.length) :
    m.clampLine line = line := by
  simp only [clampLine, lastLine]
  omega

/-- A place on a line that exists: a line behind the last one counts as the last one. -/
def onLine (m : LineMap) (p : Place) : Place := ⟨m.clampLine p.line, p.unit⟩

/-- **Offsets follow the order of the places**, when they are on lines that exist. -/
theorem charOffset_mono {m : LineMap} {p q : Place} (h : m.onLine p ≤ m.onLine q) :
    m.charOffset p ≤ m.charOffset q := by
  obtain hline | ⟨hline, hunit⟩ := h
  · calc m.charOffset p
        ≤ m.lineStart (m.clampLine p.line + 1) := charOffset_le_lineStart m p
      _ ≤ m.lineStart (m.clampLine q.line) := lineStart_mono m hline
      _ ≤ m.charOffset q := Nat.le_add_right _ _
  · have hline : m.clampLine p.line = m.clampLine q.line := hline
    rw [charOffset, charOffset, length_linePrefix, length_linePrefix, hline]
    exact Nat.add_le_add_left (charsWithin_mono hunit _) _

theorem byteOffset_mono {m : LineMap} {p q : Place} (h : m.onLine p ≤ m.onLine q) :
    m.byteOffset p ≤ m.byteOffset q :=
  total_take_le Char.utf8Size m.text (charOffset_mono h)

/-- The offset of a place on a line that exists. -/
theorem charOffset_of_lt (m : LineMap) {p : Place} (h : p.line < m.lines.length) :
    m.charOffset p = m.lineStart p.line + charsWithin p.unit (m.content p.line) := by
  rw [charOffset, length_linePrefix, clampLine_of_lt m h]

/-- The place of a position on a line that exists. -/
theorem place_of_lt (m : LineMap) {line : Nat} (h : line < m.lines.length) (k : Nat) :
    m.place ⟨line + 1, k + 1⟩ = ⟨line, units ((m.content line).take k)⟩ := by
  simp only [place, Nat.add_sub_cancel, clampLine_of_lt m h]

end LineMap

/-- **Places and offsets determine each other.**  The offset of the place of a line and a column is
that column of the line; the column of the offset of a place is at that place, unless the place is
inside a surrogate pair; and offsets, in characters and in bytes, follow the order of the places,
where a line behind the last one counts as the last one. -/
theorem charOffset_place_inverse (text : String) :
    let m := LineMap.ofText text
    (∀ line < m.lines.length, ∀ k ≤ (m.content line).length,
        m.charOffset (m.place ⟨line + 1, k + 1⟩) = m.lineStart line + k) ∧
      (∀ p : Place, p.line < m.lines.length → p.unit ≤ units (m.content p.line) →
        ¬ SplitsPair (m.content p.line) p.unit →
        m.place ⟨p.line + 1, m.charOffset p - m.lineStart p.line + 1⟩ = p) ∧
      ∀ p q : Place, m.onLine p ≤ m.onLine q →
        m.charOffset p ≤ m.charOffset q ∧ m.byteOffset p ≤ m.byteOffset q := by
  intro m
  refine ⟨?_, ?_, ?_⟩
  · intro line hline k hk
    have hoffset := m.charOffset_place (line + 1) (k + 1)
    rw [Nat.add_sub_cancel, Nat.add_sub_cancel, m.clampLine_of_lt hline] at hoffset
    rw [hoffset]
    congr 1
    exact Nat.min_eq_left hk
  · intro p hline hunit hsplit
    have hcolumn : m.charOffset p - m.lineStart p.line =
        charsWithin p.unit (m.content p.line) := by
      rw [m.charOffset_of_lt hline, Nat.add_sub_cancel_left]
    rw [hcolumn, m.place_of_lt hline, units_take_charsWithin hunit hsplit]
  · intro p q hpq
    exact ⟨LineMap.charOffset_mono hpq, LineMap.byteOffset_mono hpq⟩

/-- Behind an emoji, which is one character, two units and four bytes. -/
theorem charOffset_place_inverse_emoji :
    let m := LineMap.ofText "a\n😀b -> c"
    m.charOffset (m.place ⟨1 + 1, 1 + 1⟩) = m.lineStart 1 + 1 ∧
      m.place ⟨1 + 1, m.charOffset ⟨1, 2⟩ - m.lineStart 1 + 1⟩ = ⟨1, 2⟩ ∧
      m.charOffset ⟨1, 2⟩ ≤ m.charOffset ⟨5, 3⟩ ∧ m.byteOffset ⟨1, 2⟩ ≤ m.byteOffset ⟨5, 3⟩ := by
  intro m
  obtain ⟨hplace, hoffset, hmono⟩ := charOffset_place_inverse "a\n😀b -> c"
  refine ⟨?_, ?_, ?_⟩
  · exact hplace 1 (by decide +kernel) 1 (by decide +kernel)
  · exact hoffset ⟨1, 2⟩ (by decide +kernel) (by decide +kernel) (by decide +kernel)
  · exact hmono ⟨1, 2⟩ ⟨5, 3⟩ (.inr (by decide +kernel))

/-- The end of the only line stands in front of the start of a line behind it, which is moved to the
start of the only line. -/
theorem not_charOffset_mono_lastLine :
    let m := LineMap.ofText "abc"
    (⟨0, 3⟩ : Place) ≤ ⟨1, 0⟩ ∧ ¬ m.charOffset ⟨0, 3⟩ ≤ m.charOffset ⟨1, 0⟩ ∧
      ¬ m.byteOffset ⟨0, 3⟩ ≤ m.byteOffset ⟨1, 0⟩ := by
  intro m
  exact ⟨.inl (by decide), by decide +kernel, by decide +kernel⟩

/-! ## Lines and their breaks -/

/-- What ends a line: nothing, a carriage return and a line feed, or one line break. -/
inductive IsBreak : List Char → Prop
  | none : IsBreak []
  | pair : IsBreak ['\r', '\n']
  | single {c : Char} (h : isLineBreak c) : IsBreak [c]

/-- **A line has no breaks but the one at its end.** -/
theorem exists_isBreak {text l : List Char} (h : l ∈ breakLines text) :
    ∃ u brk, l = u ++ brk ∧ (∀ c ∈ u, isLineBreak c = false) ∧ IsBreak brk := by
  induction text using breakLines_cases generalizing l with
  | nil =>
    obtain rfl : l = [] := List.mem_singleton.mp h
    exact ⟨[], [], rfl, nofun, .none⟩
  | pair cs ih =>
    rw [breakLines_return] at h
    rcases List.mem_cons.mp h with rfl | h
    · exact ⟨[], _, rfl, nofun, .pair⟩
    · exact ih h
  | single c cs hc hpair ih =>
    rw [breakLines_break hc hpair] at h
    rcases List.mem_cons.mp h with rfl | h
    · exact ⟨[], _, rfl, nofun, .single hc⟩
    · exact ih h
  | other c cs hc ih =>
    obtain ⟨l', ls, hcs⟩ := List.exists_cons_of_ne_nil (breakLines_ne_nil cs)
    rw [breakLines_cons hc hcs] at h
    rw [hcs] at ih
    rcases List.mem_cons.mp h with rfl | h
    · obtain ⟨u, brk, rfl, hu, hbrk⟩ := ih (List.mem_cons_self)
      exact ⟨c :: u, brk, rfl, List.forall_mem_cons.mpr ⟨hc, hu⟩, hbrk⟩
    · exact ih (List.mem_cons_of_mem _ h)

/-- Whether a line ends in a break that is neither a line feed nor a carriage return. -/
def endsInOtherBreak (l : List Char) : Bool :=
  l.getLast?.any fun c => isLineBreak c && c != '\n' && c != '\r'

/-- **What is left of a line.**  Either the break is stripped, if there is one, or it is another
break, and nothing is stripped. -/
theorem stripBreak_cases {text l : List Char} (h : l ∈ breakLines text) :
    (endsInOtherBreak l = false ∧ (∀ c ∈ stripBreak l, isLineBreak c = false) ∧
        ((∀ c ∈ l, isLineBreak c = false) ∨ (stripBreak l).length < l.length)) ∨
      ∃ u c, l = u ++ [c] ∧ endsInOtherBreak l ∧ stripBreak l = l ∧
        (∀ d ∈ u, isLineBreak d = false) ∧ isLineBreak c := by
  obtain ⟨u, brk, rfl, hu, hbrk⟩ := exists_isBreak h
  rw [stripBreak_append hu]
  cases hbrk with
  | none =>
    have hstrip : stripBreak [] = [] := rfl
    rw [hstrip, List.append_nil]
    refine .inl ⟨?_, hu, .inl hu⟩
    cases hlast : u.getLast? with
    | none => simp [endsInOtherBreak, hlast]
    | some c => simp [endsInOtherBreak, hlast, hu c (List.mem_of_getLast? hlast)]
  | pair =>
    have hstrip : stripBreak ['\r', '\n'] = [] := by decide
    rw [hstrip, List.append_nil]
    refine .inl ⟨by simp [endsInOtherBreak], hu, .inr (by simp)⟩
  | @single c hc =>
    -- only a line feed and a carriage return are taken off
    by_cases hplain : c = '\n' ∨ c = '\r'
    · have hstrip : stripBreak [c] = [] := by rcases hplain with rfl | rfl <;> decide
      rw [hstrip, List.append_nil]
      refine .inl ⟨?_, hu, .inr (by simp)⟩
      rcases hplain with rfl | rfl <;> simp [endsInOtherBreak]
    · obtain ⟨hfeed, hreturn⟩ := not_or.mp hplain
      refine .inr ⟨u, c, rfl, ?_, ?_, hu, hc⟩
      · simp [endsInOtherBreak, hc, hfeed, hreturn]
      · exact congrArg (u ++ ·) (stripBreak_of_ne hfeed hreturn [])

/-- The line of a place. -/
def LineMap.lineAt (m : LineMap) (p : Place) : List Char := m.lines.getD (m.clampLine p.line) []

theorem lineAt_mem (text : String) (p : Place) :
    (LineMap.ofText text).lineAt p ∈ breakLines text.toList := by
  have hpos : 0 < (LineMap.ofText text).lines.length :=
    List.length_pos_iff.mpr (breakLines_ne_nil text.toList)
  have hlt : (LineMap.ofText text).clampLine p.line < (LineMap.ofText text).lines.length := by
    simp only [LineMap.clampLine, LineMap.lastLine]
    omega
  rw [LineMap.lineAt, List.getD_eq_getElem?_getD, List.getElem?_eq_getElem hlt, Option.getD_some]
  exact List.getElem_mem hlt

/-- A line in front of the last one ends in a break. -/
theorem exists_break_lineAt {text : String} {p : Place}
    (h : p.line < (LineMap.ofText text).lastLine) :
    ∃ c ∈ (LineMap.ofText text).lineAt p, isLineBreak c := by
  obtain ⟨init, x, hlines, -, hinit⟩ := exists_breakLines text.toList
  have hlength : p.line < init.length := by
    simpa [LineMap.ofText, LineMap.lastLine, hlines] using h
  have hline : (LineMap.ofText text).lineAt p = init[p.line] := by
    have hclamp : (LineMap.ofText text).clampLine p.line = p.line := Nat.min_eq_left h.le
    rw [LineMap.lineAt, hclamp, LineMap.ofText, hlines]
    simp [List.getElem?_append_left hlength, List.getElem?_eq_getElem hlength]
  obtain ⟨u, c, hl, hc⟩ := hinit _ (List.getElem_mem hlength)
  rw [hline, hl]
  exact ⟨c, by simp, hc⟩

/-- A place is in front of the next line when not all of its line fits in front of it. -/
theorem LineMap.charOffset_lt_lineStart_iff (m : LineMap) {p : Place}
    (h : p.line < m.lastLine) : m.charOffset p < m.lineStart (p.line + 1) ↔
      charsWithin p.unit (stripBreak (m.lineAt p)) < (m.lineAt p).length := by
  have hline : p.line < m.lines.length := by
    rw [LineMap.lastLine] at h
    omega
  have hat : m.lineAt p = m.lines.getD p.line [] := by
    rw [LineMap.lineAt, m.clampLine_of_lt hline]
  have hcontent : m.content p.line = stripBreak (m.lineAt p) := by
    rw [hat]
    rfl
  rw [← hcontent, m.charOffset_of_lt hline, m.lineStart_succ, hat]
  exact Nat.add_lt_add_iff_left

/-- Where a line has one break, at its end, only the whole line has it. -/
theorem forall_mem_take_concat_iff {u : List Char} {c : Char} {n : Nat}
    (hu : ∀ d ∈ u, isLineBreak d = false) (hc : isLineBreak c) :
    (∀ d ∈ (u ++ [c]).take n, isLineBreak d = false) ↔ n < (u ++ [c]).length := by
  rw [List.length_append, List.length_singleton]
  constructor
  · intro hfree
    by_contra hlong
    have htake : (u ++ [c]).take n = u ++ [c] := List.take_of_length_le (by simpa using hlong)
    have hlast : isLineBreak c = false := hfree c (by rw [htake]; simp)
    rw [hc] at hlast
    exact Bool.noConfusion hlast
  · intro hlt d hd
    rw [List.take_append_of_le_length (Nat.le_of_lt_succ hlt)] at hd
    exact hu d (List.mem_of_mem_take hd)

/-- **A place is moved over the end of its line exactly when the line ends in another break than a
line feed or a carriage return, and the place lies at its end or behind it.**  Everywhere else no
line break stands in front of it on its line, and it is in front of the next line. -/
theorem staysOnLine_iff (text : String) (p : Place) :
    let m := LineMap.ofText text
    let isOver := endsInOtherBreak (m.lineAt p) ∧ units (m.lineAt p) ≤ p.unit
    ((∀ c ∈ m.linePrefix p, isLineBreak c = false) ↔ ¬ isOver) ∧
      (p.line < m.lastLine → (m.charOffset p < m.lineStart (p.line + 1) ↔ ¬ isOver)) := by
  intro m isOver
  have hfront : m.linePrefix p =
      (stripBreak (m.lineAt p)).take (charsWithin p.unit (stripBreak (m.lineAt p))) := rfl
  have hnext : p.line < m.lastLine → (m.charOffset p < m.lineStart (p.line + 1) ↔
      charsWithin p.unit (stripBreak (m.lineAt p)) < (m.lineAt p).length) :=
    m.charOffset_lt_lineStart_iff
  -- Either the line is shown without its break, or it ends in one that is not taken off.
  rcases stripBreak_cases (lineAt_mem text p) with
    ⟨hother, hnone, hshort⟩ | ⟨u, c, hl, hother, hstrip, hu, hc⟩
  · have hstays : ¬ isOver := fun h => by simp [isOver, m, hother] at h
    refine ⟨iff_of_true ?_ hstays, fun hlast => ?_⟩
    · rw [hfront]
      exact fun c hc => hnone c (List.mem_of_mem_take hc)
    · rw [hnext hlast]
      refine iff_of_true ?_ hstays
      obtain ⟨c, hmem, hc⟩ := exists_break_lineAt hlast
      rcases hshort with hfree | hshort
      · rw [hfree c hmem] at hc
        exact Bool.noConfusion hc
      · exact Nat.lt_of_le_of_lt (charsWithin_le_length _ _) hshort
  · have hover : isOver ↔ ¬ charsWithin p.unit (m.lineAt p) < (m.lineAt p).length := by
      have hfits := le_charsWithin_iff (n := p.unit) (le_refl (m.lineAt p).length)
      rw [List.take_length] at hfits
      rw [Nat.not_lt, hfits]
      exact and_iff_right hother
    have hstrip : stripBreak (m.lineAt p) = m.lineAt p := hstrip
    rw [hstrip] at hfront hnext
    refine ⟨?_, fun hlast => ?_⟩
    · rw [hover, not_not, hfront]
      have hl : m.lineAt p = u ++ [c] := hl
      rw [hl]
      exact forall_mem_take_concat_iff hu hc
    · rw [hnext hlast, hover, not_not]

/-- Behind a vertical tab a place at the end of its line is at the start of the next one. -/
theorem staysOnLine_iff_verticalTab :
    let m := LineMap.ofText "a\x0bb"
    m.linePrefix ⟨0, 9⟩ = ['a', '\x0b'] ∧ m.charOffset ⟨0, 9⟩ = m.lineStart 1 ∧
      ¬ (∀ c ∈ m.linePrefix ⟨0, 9⟩, isLineBreak c = false) ∧
      ¬ m.charOffset ⟨0, 9⟩ < m.lineStart (0 + 1) := by
  intro m
  obtain ⟨hbreak, hnext⟩ := staysOnLine_iff "a\x0bb" ⟨0, 9⟩
  refine ⟨by decide +kernel, by decide +kernel, ?_, ?_⟩
  · rw [hbreak, not_not]
    decide +kernel
  · rw [hnext (by decide +kernel), not_not]
    decide +kernel

end Editor

end Diagram
