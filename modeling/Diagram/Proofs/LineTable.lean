import Mathlib.Data.List.DropRight
import Mathlib.Data.List.GetD
import Diagram.Proofs.Lines

/-!
# Places that are looked up

A place can be reached by reading, or be looked up in a table of where the lines start.  Both count
the line feeds in front of an offset and the characters behind the last of them, and so they agree
at every offset, as long as the numbers of lines and columns do not leave their 32 bits.

The table grows, so the lines that start at an offset or before it are its first entries.  How many
they are is found by halving: the number never leaves the range that is still looked at.  Inside a
character no line starts, so there the line is that of the character.
-/

namespace Diagram

/-! ## Halving -/

section

variable {p : Nat → Bool} {table : Array Nat} {k : Nat}

/-- The partition point stays in the range. -/
theorem partitionPointFrom_eq (hp : ∀ i < table.size, p (table.getD i 0) = decide (i < k))
    {base size : Nat} (hpos : 0 < size) (hsize : base + size ≤ table.size) (hbase : base ≤ k)
    (hk : k ≤ base + size) : partitionPointFrom p table base size = k := by
  fun_induction partitionPointFrom p table base size with
  | case1 base size hlt half middle ih =>
    -- An odd range keeps its middle on both sides, so `k` may be at the end of what is left.
    have hmiddle : p (table.getD (base + half) 0) = decide (base + half < k) :=
      hp _ (by omega)
    have hcut : middle = if base + half < k then base + half else base := by
      simp only [middle, hmiddle, decide_eq_true_iff, dite_eq_ite]
    have hrange : middle ≤ k ∧ k ≤ middle + (size - half) ∧
        middle + (size - half) ≤ base + size := by
      rw [hcut]
      split <;> omega
    obtain ⟨hbelow, habove, hwithin⟩ := hrange
    exact ih (by omega) (hwithin.trans hsize) hbelow habove
  | case2 base size hlt htrue =>
    rw [hp base (by omega), decide_eq_true_iff] at htrue
    omega
  | case3 base size hlt hfalse =>
    rw [hp base (by omega), decide_eq_true_iff] at hfalse
    omega

/-- **Halving finds where the entries of a table stop to satisfy a condition.** -/
theorem partitionPoint_eq (hk : k ≤ table.size)
    (hp : ∀ i < table.size, p (table.getD i 0) = decide (i < k)) : partitionPoint p table = k := by
  rw [partitionPoint]
  split
  case isTrue h =>
    rw [Array.isEmpty_iff_size_eq_zero] at h
    omega
  case isFalse h =>
    rw [Array.isEmpty_iff_size_eq_zero] at h
    exact partitionPointFrom_eq hp (Nat.pos_of_ne_zero h) (by omega) k.zero_le (by omega)

/-- A table in two parts, the first of which satisfies the condition. -/
theorem partitionPoint_append {xs ys : List Nat} (htable : table.toList = xs ++ ys)
    (hxs : ∀ x ∈ xs, p x = true) (hys : ∀ y ∈ ys, p y = false) :
    partitionPoint p table = xs.length := by
  have hsize : table.size = xs.length + ys.length := by
    rw [← Array.length_toList, htable, List.length_append]
  refine partitionPoint_eq (by omega) fun i hi => ?_
  have hget : table.getD i 0 = (xs ++ ys).getD i 0 := by
    rw [← htable, Array.getD_eq_getD_getElem?, List.getD_eq_getElem?_getD, Array.getElem?_toList]
  rw [hget]
  by_cases hlt : i < xs.length
  · rw [List.getD_append _ _ _ _ hlt, List.getD_eq_getElem _ _ hlt, hxs _ (List.getElem_mem hlt),
      decide_eq_true hlt]
  · rw [List.getD_append_right _ _ _ _ (not_lt.mp hlt), List.getD_eq_getElem _ _ (by omega),
      hys _ (List.getElem_mem _), decide_eq_false hlt]

end

/-! ## Where lines start -/

theorem lineStartsFrom_append (offset : Nat) (a b : List Char) :
    lineStartsFrom offset (a ++ b) =
      lineStartsFrom offset a ++ lineStartsFrom (offset + byteSize a) b := by
  induction a generalizing offset with
  | nil => rfl
  | cons c a ih =>
    simp only [List.cons_append, lineStartsFrom, ih, byteSize_cons, Nat.add_assoc]
    split <;> rfl

/-- A line starts behind each line feed. -/
theorem length_lineStartsFrom (offset : Nat) (text : List Char) :
    (lineStartsFrom offset text).length = text.count '\n' := by
  induction text generalizing offset with
  | nil => rfl
  | cons c cs ih =>
    rw [lineStartsFrom, List.count_cons]
    by_cases hc : c = '\n' <;> simp [hc, ih]

theorem bounds_of_mem_lineStartsFrom {offset start : Nat} {text : List Char}
    (h : start ∈ lineStartsFrom offset text) : offset < start ∧ start ≤ offset + byteSize text := by
  induction text generalizing offset with
  | nil => cases h
  | cons c cs ih =>
    have hpos := c.utf8Size_pos
    rw [byteSize_cons]
    have hrest : start ∈ lineStartsFrom (offset + c.utf8Size) cs →
        offset < start ∧ start ≤ offset + (c.utf8Size + byteSize cs) := by
      intro hmem
      have hbounds := ih hmem
      omega
    rw [lineStartsFrom] at h
    split at h
    · rcases List.mem_cons.mp h with rfl | h
      · omega
      · exact hrest h
    · exact hrest h

/-- What is in front of the last line. -/
def beforeLastLine (text : List Char) : List Char := text.rdropWhile (· ≠ '\n')

/-- The last line, as far as the text goes. -/
def lastLine (text : List Char) : List Char := text.rtakeWhile (· ≠ '\n')

theorem beforeLastLine_append_lastLine (text : List Char) :
    beforeLastLine text ++ lastLine text = text :=
  List.rdropWhile_append_rtakeWhile

@[simp] theorem beforeLastLine_feed (text : List Char) :
    beforeLastLine (text ++ ['\n']) = text ++ ['\n'] :=
  List.rdropWhile_concat_neg _ _ _ (by simp)

@[simp] theorem lastLine_feed (text : List Char) : lastLine (text ++ ['\n']) = [] :=
  List.rtakeWhile_concat_neg _ _ _ (by simp)

theorem beforeLastLine_concat (text : List Char) {c : Char} (hc : c ≠ '\n') :
    beforeLastLine (text ++ [c]) = beforeLastLine text :=
  List.rdropWhile_concat_pos _ _ _ (by simpa using hc)

theorem lastLine_concat (text : List Char) {c : Char} (hc : c ≠ '\n') :
    lastLine (text ++ [c]) = lastLine text ++ [c] :=
  List.rtakeWhile_concat_pos _ _ _ (by simpa using hc)

/-- The last line starts behind the last line feed, or where the text does. -/
theorem getElem?_lineStarts (text : List Char) :
    (0 :: lineStartsFrom 0 text)[text.count '\n']? = some (byteSize (beforeLastLine text)) := by
  -- From the right, where the last line grows until a line feed ends it.
  induction text using List.reverseRecOn with
  | nil => rfl
  | append_singleton text c ih =>
    have hlength := length_lineStartsFrom 0 text
    rw [lineStartsFrom_append, List.count_append]
    by_cases hc : c = '\n'
    · subst hc
      rw [beforeLastLine_feed]
      simp [lineStartsFrom, hlength]
    · rw [beforeLastLine_concat text hc]
      simpa [lineStartsFrom, hc] using ih

/-! ## Places by counting -/

/-- The column counts the characters behind the last line feed. -/
theorem position_skip_start (text : List Char) : (Cursor.start.skip text).position =
    ⟨text.count '\n' + 1, (lastLine text).length + 1⟩ := by
  have hcolumn : (Cursor.start.skip text).position.column = (lastLine text).length + 1 := by
    induction text using List.reverseRecOn with
    | nil => rfl
    | append_singleton text c ih =>
      rw [Cursor.skip_append, Cursor.skip_cons, Cursor.skip_nil, Cursor.next, Position.next]
      by_cases hc : c = '\n'
      · rw [if_pos hc, hc, lastLine_feed, List.length_nil]
      · rw [if_neg hc, lastLine_concat text hc, List.length_append, List.length_singleton, ih]
  have hline : (Cursor.start.skip text).position.line = text.count '\n' + 1 :=
    (line_skip .start text).trans (Nat.add_comm _ _)
  rw [← hcolumn, ← hline]

/-- No line and no column of a text needs a number of more than 32 bits. -/
def HasCountedLines (text : List Char) : Prop :=
  ∀ a, a <+: text → a.count '\n' + 1 < UInt32.size ∧ (lastLine a).length + 1 < UInt32.size

/-- It is enough that the characters can be counted. -/
theorem hasCountedLines_of_length {text : List Char} (h : text.length + 1 < UInt32.size) :
    HasCountedLines text := by
  intro a ha
  have hline : a.count '\n' ≤ a.length := List.count_le_length
  have hcolumn : (lastLine a).length ≤ a.length := (List.rtakeWhile_suffix _ a).length_le
  have hfront : a.length ≤ text.length := ha.length_le
  omega

/-- In front of another place: on an earlier line, or in an earlier column of the same line. -/
def Position.IsBefore (p q : Position) : Prop :=
  p.line < q.line ∨ p.line = q.line ∧ p.column < q.column

namespace Position

theorem IsBefore.trans {p q r : Position} (hpq : p.IsBefore q) (hqr : q.IsBefore r) :
    p.IsBefore r := by
  unfold IsBefore at *
  omega

theorem isBefore_next (p : Position) (c : Char) : p.IsBefore (p.next c) := by
  rw [next]
  split
  · exact .inl (Nat.lt_succ_self _)
  · exact .inr ⟨rfl, Nat.lt_succ_self _⟩

end Position

/-- Reading leads on. -/
theorem isBefore_skip (cur : Cursor) {w : List Char} (hw : w ≠ []) :
    cur.position.IsBefore (cur.skip w).position := by
  induction w generalizing cur with
  | nil => exact absurd rfl hw
  | cons c w ih =>
    have hnext : cur.position.IsBefore (cur.next c).position := cur.position.isBefore_next c
    by_cases hnil : w = []
    · rwa [hnil, Cursor.skip_cons, Cursor.skip_nil]
    · exact hnext.trans (ih (cur.next c) hnil)

/-! ## Looking up -/

/-- An offset between two characters of a text, or at one of its ends. -/
def IsBoundary (text : List Char) (offset : Nat) : Prop := ∃ a, a <+: text ∧ byteSize a = offset

/-- What stands between two boundaries. -/
theorem exists_text_between {text : List Char} {start stop : Nat} (hstart : IsBoundary text start)
    (hstop : IsBoundary text stop) (hlt : start < stop) :
    ∃ a w b, text = a ++ w ++ b ∧ w ≠ [] ∧ byteSize a = start ∧ byteSize (a ++ w) = stop := by
  obtain ⟨a, ha, rfl⟩ := hstart
  obtain ⟨u, ⟨b, rfl⟩, rfl⟩ := hstop
  obtain ⟨w, rfl⟩ := prefix_of_byteSize_le ha (List.prefix_append u b) hlt.le
  refine ⟨a, w, b, rfl, ?_, rfl, rfl⟩
  rintro rfl
  rw [List.append_nil] at hlt
  exact absurd hlt (lt_irrefl _)

/-- Nothing ends inside a character. -/
theorem takeBytes_inside (a b : List Char) {c : Char} {n : Nat} (hpos : 0 < n)
    (hlt : n < c.utf8Size) : takeBytes (a ++ c :: b) (byteSize a + n) = none := by
  induction a with
  | nil =>
    obtain ⟨k, rfl⟩ := Nat.exists_eq_succ_of_ne_zero hpos.ne'
    rw [byteSize_nil, Nat.zero_add, List.nil_append, takeBytes, if_pos hlt]
  | cons d a ih =>
    have hd := d.utf8Size_pos
    obtain ⟨k, hk⟩ := Nat.exists_eq_succ_of_ne_zero (show byteSize (d :: a) + n ≠ 0 by omega)
    rw [hk, List.cons_append, takeBytes, ← Nat.succ_eq_add_one, ← hk, byteSize_cons,
      if_neg (by omega), Nat.add_assoc, Nat.add_sub_cancel_left, ih, Option.map_none]

theorem slice?_inside (a w b : List Char) {c : Char} {n : Nat} (hpos : 0 < n)
    (hlt : n < c.utf8Size) :
    slice? (a ++ w ++ c :: b) (byteSize a) (byteSize (a ++ w) + n) = none := by
  rw [slice?, if_pos (by rw [byteSize_append]; omega), List.append_assoc, dropBytes_append,
    Option.bind_some, byteSize_append, Nat.add_assoc, Nat.add_sub_cancel_left,
    takeBytes_inside _ _ hpos hlt]

namespace LineIndex

theorem ordinal_of_lt {n : Nat} (h : n + 1 < UInt32.size) : ordinal n = n + 1 := by
  have hn : n.toUInt32.toNat = n := UInt32.toNat_ofNat_of_lt' (Nat.lt_of_succ_lt h)
  rw [ordinal, UInt32.toNat_add, hn, UInt32.toNat_one, Nat.mod_eq_of_lt h]

variable (m : LineIndex) {a b : List Char}

/-- The lines that start at an offset or before it, if none starts between the text `a` in front of
it and the offset. -/
theorem partitionPoint_lineStarts (htext : m.text = a ++ b) {offset : Nat}
    (hle : byteSize a ≤ offset) (hlt : ∀ start ∈ lineStartsFrom (byteSize a) b, offset < start) :
    partitionPoint (· ≤ offset) m.lineStarts = a.count '\n' + 1 := by
  have htable : m.lineStarts.toList =
      (0 :: lineStartsFrom 0 a) ++ lineStartsFrom (byteSize a) b := by
    rw [m.toList_lineStarts, htext, lineStartsFrom_append, Nat.zero_add, List.cons_append]
  rw [partitionPoint_append htable, List.length_cons, length_lineStartsFrom]
  · refine List.forall_mem_cons.mpr ⟨decide_eq_true offset.zero_le, fun start hstart => ?_⟩
    have hbounds := (bounds_of_mem_lineStartsFrom hstart).2
    exact decide_eq_true (by omega)
  · exact fun start hstart => decide_eq_false (Nat.not_le.mpr (hlt start hstart))

theorem getD_lineStarts (htext : m.text = a ++ b) :
    m.lineStarts.getD (a.count '\n') 0 = byteSize (beforeLastLine a) := by
  have hlt : a.count '\n' < (0 :: lineStartsFrom 0 a).length := by
    rw [List.length_cons, length_lineStartsFrom]
    exact Nat.lt_succ_self _
  rw [Array.getD_eq_getD_getElem?, ← Array.getElem?_toList, m.toList_lineStarts, htext,
    lineStartsFrom_append, ← List.cons_append, List.getElem?_append_left hlt, getElem?_lineStarts,
    Option.getD_some]

/-- The place at an offset, if no line starts between the text `a` in front of it and the offset.
It is on the last line of `a`, and its column counts what stands between the start of that line and
the offset, or is the first one when the offset is inside a character. -/
theorem position_eq (htext : m.text = a ++ b) {offset : Nat} (hle : byteSize a ≤ offset)
    (hsize : offset ≤ byteSize m.text)
    (hlt : ∀ start ∈ lineStartsFrom (byteSize a) b, offset < start) :
    m.position offset = ⟨ordinal (a.count '\n'),
      ordinal ((slice? m.text (byteSize (beforeLastLine a)) offset).elim 0 List.length)⟩ := by
  rw [position, Nat.min_eq_left hsize, m.partitionPoint_lineStarts htext hle hlt,
    Nat.add_sub_cancel, m.getD_lineStarts htext]
  cases slice? m.text (byteSize (beforeLastLine a)) offset <;> rfl

/-- The place between two parts of a text. -/
theorem position_append (htext : m.text = a ++ b) :
    m.position (byteSize a) = ⟨ordinal (a.count '\n'), ordinal (lastLine a).length⟩ := by
  have hsize : byteSize a ≤ byteSize m.text := by
    rw [htext, byteSize_append]
    exact Nat.le_add_right _ _
  have hslice : slice? m.text (byteSize (beforeLastLine a)) (byteSize a) = some (lastLine a) := by
    have hmiddle := slice?_append (beforeLastLine a) (lastLine a) b
    rwa [beforeLastLine_append_lastLine, ← htext] at hmiddle
  rw [m.position_eq htext le_rfl hsize fun _ h => (bounds_of_mem_lineStartsFrom h).1, hslice,
    Option.elim_some]

/-- **The place between two parts of a text** is the one that reading the first part leads to. -/
theorem position_append_eq_skip (hcounted : HasCountedLines m.text) (htext : m.text = a ++ b) :
    m.position (byteSize a) = (Cursor.start.skip a).position := by
  obtain ⟨hline, hcolumn⟩ := hcounted a ⟨b, htext.symm⟩
  rw [m.position_append htext, ordinal_of_lt hline, ordinal_of_lt hcolumn, position_skip_start]

/-- Inside a character the place is the first column of the line. -/
theorem position_inside {c : Char} (htext : m.text = a ++ c :: b) {n : Nat} (hpos : 0 < n)
    (hlt : n < c.utf8Size) :
    m.position (byteSize a + n) = ⟨ordinal (a.count '\n'), 1⟩ := by
  have hfeed : c ≠ '\n' := by
    rintro rfl
    have hone : '\n'.utf8Size = 1 := rfl
    omega
  have hslice : slice? m.text (byteSize (beforeLastLine a)) (byteSize a + n) = none := by
    have hmiddle := slice?_inside (beforeLastLine a) (lastLine a) b hpos hlt
    rwa [beforeLastLine_append_lastLine, ← htext] at hmiddle
  rw [m.position_eq htext (Nat.le_add_right _ _), hslice, Option.elim_none]
  · rfl
  · rw [htext, byteSize_append, byteSize_cons]
    omega
  · intro start hstart
    rw [lineStartsFrom, if_neg hfeed] at hstart
    have hbounds := (bounds_of_mem_lineStartsFrom hstart).1
    omega

/-- Past the end is the end. -/
theorem position_of_le {offset : Nat} (h : byteSize m.text ≤ offset) :
    m.position offset = m.position (byteSize m.text) := by
  rw [position, position, Nat.min_eq_right h, Nat.min_self]

/-- **Looking up and reading on lead to the same place**, at every offset. -/
theorem position_eq_positionAt (hcounted : HasCountedLines m.text) (offset : Nat) :
    m.position offset = positionAt m.text offset := by
  by_cases hsize : byteSize m.text ≤ offset
  · obtain ⟨n, rfl⟩ := Nat.exists_eq_add_of_le hsize
    have hread := positionFrom_append_add m.text [] .start n
    rw [List.append_nil] at hread
    rw [m.position_of_le hsize, m.position_append_eq_skip hcounted (List.append_nil _).symm]
    exact hread.symm
  · obtain ⟨a, c, b, htext, hle, hlt⟩ := exists_char_at (not_le.mp hsize)
    obtain ⟨n, rfl⟩ := Nat.exists_eq_add_of_le hle
    have hread := positionFrom_append_add a (c :: b) .start n
    rw [← htext] at hread
    refine Eq.trans ?_ hread.symm
    by_cases hn : n = 0
    · rw [hn, Nat.add_zero, m.position_append_eq_skip hcounted htext]
      rfl
    · have hinside := Nat.lt_of_add_lt_add_left hlt
      have hline := (hcounted a ⟨c :: b, htext.symm⟩).1
      rw [m.position_inside htext (Nat.pos_of_ne_zero hn) hinside, ordinal_of_lt hline,
        positionFrom, if_neg hn, if_pos hinside, position_skip_start]

/-- Places follow the order of the offsets. -/
theorem isBefore_position (hcounted : HasCountedLines m.text) {o o' : Nat}
    (ho : IsBoundary m.text o) (ho' : IsBoundary m.text o') (hlt : o < o') :
    (m.position o).IsBefore (m.position o') := by
  obtain ⟨a, w, b, htext, hw, rfl, rfl⟩ := exists_text_between ho ho' hlt
  have hfront : m.text = a ++ (w ++ b) := htext.trans (List.append_assoc a w b)
  rw [m.position_append_eq_skip hcounted hfront, m.position_append_eq_skip hcounted htext,
    Cursor.skip_append]
  exact isBefore_skip _ hw

/-- **The place at an offset, by plain counting.**  Its line counts the line feeds in front of it,
and its column the characters behind the last of them; past the end is the end; and the places at
the boundaries of characters follow each other as their offsets do.  It is the place that is reached
by reading, at every offset.  No line and no column may need more than 32 bits. -/
theorem counts_position {text : List Char} (h : HasCountedLines text) :
    let m := LineIndex.ofText text
    (∀ a b, text = a ++ b → m.position (byteSize a) =
      ⟨1 + a.count '\n', 1 + (a.rtakeWhile (· ≠ '\n')).length⟩) ∧
    (∀ offset, byteSize text ≤ offset → m.position offset = m.position (byteSize text)) ∧
    (∀ o o', IsBoundary text o → IsBoundary text o' → o < o' →
      (m.position o).IsBefore (m.position o')) ∧
    ∀ offset, m.position offset = positionAt text offset := by
  intro m
  refine ⟨fun a b htext => ?_, fun _ => m.position_of_le, fun _ _ => m.isBefore_position h,
    m.position_eq_positionAt h⟩
  rw [m.position_append_eq_skip h htext, position_skip_start, Nat.add_comm 1, Nat.add_comm 1,
    lastLine]

/-- Behind an empty line, at a character of two bytes, and past the end. -/
theorem counts_position_empty :
    let text := "é\n\nüb".toList
    let m := LineIndex.ofText text
    HasCountedLines text ∧ text = "é\n\nü".toList ++ ['b'] ∧ m.position 6 = ⟨3, 2⟩ ∧
      byteSize text ≤ 9 ∧ m.position 9 = m.position 7 ∧
      IsBoundary text 2 ∧ IsBoundary text 4 ∧ (m.position 2).IsBefore (m.position 4) := by
  intro text m
  have hcounted : HasCountedLines text := hasCountedLines_of_length (by decide)
  obtain ⟨hcount, hend, hbefore, -⟩ := counts_position hcounted
  have hsplit : text = "é\n\nü".toList ++ ['b'] := by decide
  have hfirst : IsBoundary text 2 := ⟨['é'], ⟨"\n\nüb".toList, by decide⟩, by decide⟩
  have hsecond : IsBoundary text 4 := ⟨"é\n\n".toList, ⟨"üb".toList, by decide⟩, by decide⟩
  refine ⟨hcounted, hsplit, (hcount _ _ hsplit).trans ?_, by decide, hend 9 (by decide), hfirst,
    hsecond, hbefore 2 4 hfirst hsecond (by decide)⟩
  decide

end LineIndex

end Diagram
