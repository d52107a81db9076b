import Diagram.Text.Span

/-!
# Offsets between characters

The offset of a place is the number of bytes in front of it.  Texts that are put together are cut
apart again at the offsets of their ends.
-/

namespace Diagram

@[simp] theorem total_nil (measure : Char → Nat) : total measure [] = 0 := rfl

@[simp] theorem total_cons (measure : Char → Nat) (c : Char) (cs : List Char) :
    total measure (c :: cs) = measure c + total measure cs := rfl

@[simp] theorem total_append (measure : Char → Nat) (a b : List Char) :
    total measure (a ++ b) = total measure a + total measure b := by
  induction a with
  | nil => simp
  | cons c cs ih => simp [ih, Nat.add_assoc]

/-- More of a text measures more. -/
theorem total_take_le (measure : Char → Nat) (text : List Char) {k n : Nat} (h : k ≤ n) :
    total measure (text.take k) ≤ total measure (text.take n) := by
  obtain ⟨d, rfl⟩ := Nat.exists_eq_add_of_le h
  rw [List.take_add, total_append]
  exact Nat.le_add_right _ _

@[simp] theorem byteSize_nil : byteSize [] = 0 := rfl

@[simp] theorem byteSize_cons (c : Char) (cs : List Char) :
    byteSize (c :: cs) = c.utf8Size + byteSize cs := rfl

@[simp] theorem byteSize_append (a b : List Char) :
    byteSize (a ++ b) = byteSize a + byteSize b := total_append _ a b

/-- A text with a character has a byte. -/
theorem byteSize_pos {text : List Char} (h : text ≠ []) : 0 < byteSize text := by
  cases text with
  | nil => exact absurd rfl h
  | cons c cs =>
    have := c.utf8Size_pos
    rw [byteSize_cons]
    omega

/-- Of two places in a text, the one behind fewer bytes is behind fewer characters. -/
theorem prefix_of_byteSize_le {a b text : List Char} (ha : a <+: text) (hb : b <+: text)
    (h : byteSize a ≤ byteSize b) : a <+: b := by
  rcases List.prefix_or_prefix_of_prefix ha hb with hab | ⟨t, rfl⟩
  · exact hab
  · cases t with
    | nil => simp
    | cons c cs =>
      have := byteSize_pos (List.cons_ne_nil c cs)
      rw [byteSize_append] at h
      omega

theorem exists_byteSize_cons (c : Char) (cs : List Char) : ∃ n, byteSize (c :: cs) = n + 1 :=
  Nat.exists_eq_add_one.mpr (byteSize_pos (List.cons_ne_nil c cs))

@[simp] theorem dropBytes_append (a b : List Char) : dropBytes (a ++ b) (byteSize a) = some b := by
  induction a with
  | nil => cases b <;> rfl
  | cons c cs ih =>
    obtain ⟨n, hn⟩ := exists_byteSize_cons c cs
    rw [hn, List.cons_append, dropBytes, ← hn, byteSize_cons, if_neg (by omega),
      Nat.add_sub_cancel_left, ih]

@[simp] theorem takeBytes_append (a b : List Char) : takeBytes (a ++ b) (byteSize a) = some a := by
  induction a with
  | nil => cases b <;> rfl
  | cons c cs ih =>
    obtain ⟨n, hn⟩ := exists_byteSize_cons c cs
    rw [hn, List.cons_append, takeBytes, ← hn, byteSize_cons, if_neg (by omega),
      Nat.add_sub_cancel_left, ih, Option.map_some]

/-- The middle one of three texts is found between its offsets. -/
@[simp] theorem slice?_append (a b c : List Char) :
    slice? (a ++ b ++ c) (byteSize a) (byteSize (a ++ b)) = some b := by
  rw [slice?, if_pos (by simp), List.append_assoc, dropBytes_append, Option.bind_some,
    byteSize_append, Nat.add_sub_cancel_left, takeBytes_append]

/-- Every byte of a text belongs to one of its characters. -/
theorem exists_char_at {text : List Char} {offset : Nat} (h : offset < byteSize text) :
    ∃ a c b, text = a ++ c :: b ∧ byteSize a ≤ offset ∧ offset < byteSize a + c.utf8Size := by
  induction text generalizing offset with
  | nil => exact absurd h (Nat.not_lt_zero _)
  | cons c cs ih =>
    by_cases hlt : offset < c.utf8Size
    · exact ⟨[], c, cs, rfl, Nat.zero_le _, by simpa using hlt⟩
    · rw [byteSize_cons] at h
      obtain ⟨a, d, b, rfl, hle, hlt'⟩ := ih (show offset - c.utf8Size < byteSize cs by omega)
      refine ⟨c :: a, d, b, rfl, ?_, ?_⟩ <;> rw [byteSize_cons] <;> omega

/-! ## Places at offsets -/

/-- What stands behind a text is looked for from the place behind it. -/
theorem positionFrom_append_add (a b : List Char) (cur : Cursor) (n : Nat) :
    positionFrom cur.position (a ++ b) (byteSize a + n) =
      positionFrom (cur.skip a).position b n := by
  induction a generalizing cur with
  | nil => rw [byteSize_nil, Nat.zero_add, List.nil_append, Cursor.skip_nil]
  | cons c a ih =>
    have hpos := Char.utf8Size_pos c
    rw [List.cons_append, positionFrom, byteSize_cons, if_neg (by omega), if_neg (by omega),
      Nat.add_assoc, Nat.add_sub_cancel_left]
    exact ih (cur.next c)

/-- The place of the character behind some text. -/
theorem positionFrom_append (a b : List Char) (cur : Cursor) :
    positionFrom cur.position (a ++ b) (byteSize a) = (cur.skip a).position := by
  have hplace := positionFrom_append_add a b cur 0
  rw [Nat.add_zero] at hplace
  rw [hplace]
  cases b <;> rfl

/-! ## Spans of read text -/

namespace Cursor

theorem offset_start_skip (text : List Char) : (start.skip text).offset = byteSize text := by
  rw [offset_skip, start, Nat.zero_add]

@[simp] theorem start_cover (cur : Cursor) (text : List Char) :
    (cur.cover text).start = cur.offset := rfl

@[simp] theorem stop_cover (cur : Cursor) (text : List Char) :
    (cur.cover text).stop = cur.offset + byteSize text := offset_skip cur text

end Cursor

end Diagram
