import Diagram.Proofs.LineTable
import Diagram.Proofs.Ranges

/-!
# Hulls of spans that are looked up

The span between two offsets has the place of the first as its first place, and as its last place
that of the character in front of the second, wherever it starts.  So where two spans cover some
text, their hull needs no other places than theirs: it begins at the first place of the one that
starts first, and ends at the last place of the one that stops last, and if both stop together their
last places are the same.  This asks nothing of how places are numbered.

Where lines and columns are counted without a gap, the span that is looked up is the one that is
found by reading.  All spans that are reported could be looked up, though they are found by reading
and put together from those of tokens.
-/

namespace Diagram

/-! ## Looking up and reading -/

/-- The span up to a character. -/
theorem spanAt_concat {text a w b : List Char} {c : Char} (htext : text = a ++ (w ++ [c]) ++ b) :
    spanAt text (byteSize a) (byteSize (a ++ (w ++ [c]))) =
      ⟨byteSize a, byteSize (a ++ (w ++ [c])), (LineIndex.ofText text).position (byteSize a),
        (LineIndex.ofText text).position (byteSize (a ++ w))⟩ := by
  have hslice : slice? (LineIndex.ofText text).text (byteSize a) (byteSize (a ++ (w ++ [c]))) =
      some (w ++ [c]) := by
    rw [htext]
    exact slice?_append a (w ++ [c]) b
  have hlast : byteSize (a ++ (w ++ [c])) - c.utf8Size = byteSize (a ++ w) := by
    simp only [byteSize_append, byteSize_cons, byteSize_nil]
    omega
  rw [spanAt, LineIndex.span, hslice, Option.bind_some, List.getLast?_concat]
  simp only [hlast]

section

variable {text : List Char} (hcounted : HasCountedLines text)

include hcounted

/-- **A span is the same by looking it up and by reading.** -/
theorem spanAt_eq_cover {a w b : List Char} (htext : text = a ++ w ++ b) :
    spanAt text (byteSize a) (byteSize (a ++ w)) = (Cursor.start.skip a).cover w := by
  have hplace : ∀ u v, text = u ++ v →
      (LineIndex.ofText text).position (byteSize u) = (Cursor.start.skip u).position :=
    fun u v huv => LineIndex.position_append_eq_skip _ hcounted huv
  have hfirst := hplace a (w ++ b) (htext.trans (List.append_assoc a w b))
  have hcover : ∀ p, (⟨byteSize a, byteSize (a ++ w), (Cursor.start.skip a).position, p⟩ : Span) =
      ⟨(Cursor.start.skip a).offset, ((Cursor.start.skip a).skip w).offset,
        (Cursor.start.skip a).position, p⟩ := by
    intro p
    rw [← Cursor.skip_append, Cursor.offset_start_skip, Cursor.offset_start_skip]
  -- Without a character in it, the span ends where it starts.
  cases w using List.reverseRecOn with
  | nil =>
    have hslice : slice? text (byteSize a) (byteSize (a ++ [])) = some [] := by
      rw [htext]
      exact slice?_append a [] b
    rw [spanAt, LineIndex.span, show (LineIndex.ofText text).text = text from rfl, hslice]
    exact (congrArg₂ (Span.mk _ _) hfirst hfirst).trans (hcover _)
  | append_singleton w c =>
    have hlast := hplace (a ++ w) (c :: b) (by rw [htext]; simp)
    rw [Cursor.skip_append] at hlast
    rw [spanAt_concat htext, hfirst, hlast, hcover, Cursor.cover, List.dropLast_concat]

/-- The span at the end of a text. -/
theorem endSpan_eq_spanAt : endSpan text = spanAt text (byteSize text) (byteSize text) := by
  have htext : text = text ++ [] ++ [] := by simp
  have hspan := spanAt_eq_cover hcounted htext
  rw [List.append_nil] at hspan
  rw [hspan]
  rfl

theorem IsStretch.eq_spanAt {s : Span} (h : IsStretch text s) :
    s = spanAt text s.start s.stop := by
  obtain ⟨a, w, b, htext, -, rfl⟩ := h
  rw [Cursor.start_cover, Cursor.stop_cover, Cursor.offset_start_skip, ← byteSize_append,
    spanAt_eq_cover hcounted htext]

end

/-- **What is reported could be looked up** between its offsets. -/
theorem eq_spanAt_of_mem_reportedSpans {text : String} (hcounted : HasCountedLines text.toList)
    {s : Span} (hs : s ∈ reportedSpans text) : s = spanAt text.toList s.start s.stop := by
  rcases isStretch_of_mem_reportedSpans hs with hstretch | rfl
  · exact hstretch.eq_spanAt hcounted
  · rw [endSpan_eq_spanAt hcounted]
    rfl

/-! ## Hulls -/

/-- **The last place of a span depends on where it stops only.** -/
theorem exists_last_spanAt {text : List Char} {b : Nat} (hb : IsBoundary text b) :
    ∃ last, ∀ a, IsBoundary text a → a < b →
      spanAt text a b = ⟨a, b, (LineIndex.ofText text).position a, last⟩ := by
  obtain ⟨u, ⟨r, htext⟩, rfl⟩ := hb
  cases u using List.reverseRecOn with
  | nil => exact ⟨.first, fun a _ hlt => absurd hlt a.not_lt_zero⟩
  | append_singleton u c =>
    refine ⟨(LineIndex.ofText text).position (byteSize u), ?_⟩
    rintro _ ⟨a, ha, rfl⟩ hlt
    obtain ⟨w, hw⟩ := prefix_of_byteSize_le ha ⟨r, htext⟩ hlt.le
    -- What the span covers is not empty, so the character in front of its stop is in it.
    cases w using List.reverseRecOn with
    | nil =>
      rw [← hw, List.append_nil] at hlt
      exact absurd hlt (lt_irrefl _)
    | append_singleton w d =>
      rw [← List.append_assoc] at hw
      obtain ⟨rfl, hd⟩ := List.append_inj' hw rfl
      obtain rfl := List.singleton_inj.mp hd
      rw [List.append_assoc a w [d]] at htext
      have hspan := spanAt_concat htext.symm
      rwa [← List.append_assoc] at hspan

section

variable {text : List Char} {a b c d : Nat} (ha : IsBoundary text a) (hb : IsBoundary text b)
  (hc : IsBoundary text c) (hd : IsBoundary text d) (hab : a < b) (hcd : c < d)

include ha hb hc hd hab hcd

/-- The hull of two spans, of which the first starts first. -/
theorem merge_spanAt_of_le (hle : a ≤ c) :
    (spanAt text a b).merge (spanAt text c d) = spanAt text a (max b d) := by
  obtain ⟨last, hlast⟩ := exists_last_spanAt hb
  obtain ⟨last', hlast'⟩ := exists_last_spanAt hd
  rw [hlast a ha hab, hlast' c hc hcd]
  rcases le_or_gt b d with hstop | hstop
  · rw [max_eq_right hstop, hlast' a ha (hle.trans_lt hcd)]
    simp [Span.merge, hle, hstop]
  · rw [max_eq_left hstop.le, hlast a ha hab]
    simp [Span.merge, hle, not_le.mpr hstop, hstop.le]

/-- **The hull of two spans is the span between the first and the last of their offsets**, with the
places of its ends, wherever the two stand. -/
theorem merge_spanAt :
    (spanAt text a b).merge (spanAt text c d) = spanAt text (min a c) (max b d) := by
  rcases le_or_gt a c with hle | hlt
  · rw [min_eq_left hle]
    exact merge_spanAt_of_le ha hb hc hd hab hcd hle
  · have hcomm : (spanAt text a b).merge (spanAt text c d) =
        (spanAt text c d).merge (spanAt text a b) := Span.merge_comm_of_lt hlt
    rw [hcomm, min_eq_right hlt.le, max_comm]
    exact merge_spanAt_of_le hc hd ha hb hcd hab hlt.le

end

/-- Two spans over a line feed, the second of which starts first and stops in the first. -/
theorem merge_spanAt_lines :
    let text := "é\nüb\nc".toList
    IsBoundary text 3 ∧ IsBoundary text 8 ∧ 3 < 8 ∧ IsBoundary text 0 ∧ IsBoundary text 5 ∧ 0 < 5 ∧
      (spanAt text 3 8).merge (spanAt text 0 5) = spanAt text 0 8 ∧
      spanAt text 0 8 = ⟨0, 8, ⟨1, 1⟩, ⟨3, 1⟩⟩ := by
  intro text
  have hthree : IsBoundary text 3 := ⟨"é\n".toList, ⟨"üb\nc".toList, by decide⟩, by decide⟩
  have hend : IsBoundary text 8 := ⟨text, List.prefix_rfl, by decide⟩
  have hstart : IsBoundary text 0 := ⟨[], List.nil_prefix, rfl⟩
  have hfive : IsBoundary text 5 := ⟨"é\nü".toList, ⟨"b\nc".toList, by decide⟩, by decide⟩
  refine ⟨hthree, hend, by decide, hstart, hfive, by decide, ?_, ?_⟩
  · exact merge_spanAt hthree hend hstart hfive (by decide) (by decide)
  · decide +kernel

end Diagram
