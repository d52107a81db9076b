import Diagram.Proofs.Formatting
import Diagram.Proofs.Places
import Diagram.Proofs.Sessions

/-!
# Edits

A text is formatted by one edit that replaces all of it.  The range of this edit goes up to the end
of the last line, and behind the last break of a text no other break follows: nothing of the last
line is stripped, so the range ends behind the last character, and nothing of the text is left over
when the edit is made.
-/

namespace Diagram

variable {α : Type} [Scalar α]

/-! ## Texts without messages -/

/-- The document of a text has messages when the text has. -/
theorem errors_ofText_eq_nil_iff {text : String} :
    (Document.ofText text : Document α).errors = [] ↔ (Syntax.parse text).2 = [] := by
  constructor
  · intro h
    exact (ofText_of_ok h).1
  · intro h
    simp [Document.ofText, h]

/-- A text is formatted unless there are messages about it. -/
theorem exists_format_iff {text : String} :
    (∃ t, format α text = .ok t) ↔ (Syntax.parse text).2 = [] := by
  rw [← errors_ofText_eq_nil_iff (α := α)]
  constructor
  · rintro ⟨t, ht⟩
    exact (format_eq_ok ht).1
  · intro h
    exact ⟨_, format_eq h⟩

namespace Editor

/-! ## Making edits -/

/-- What stands behind the first `n` characters of a text when some edits have been made, given in
the order of their ranges.  The ranges are those of the text as it was. -/
def editedFrom (m : LineMap) (n : Nat) : List TextEdit → List Char
  | [] => m.text.drop n
  | e :: es =>
    (m.text.take (m.charOffset e.range.start)).drop n ++ e.newText.toList ++
      editedFrom m (m.charOffset e.range.stop) es

/-- A text with some edits made. -/
def applyEdits (text : String) (es : List TextEdit) : String :=
  String.ofList (editedFrom (.ofText text) 0 es)

namespace LineMap

@[simp] theorem text_ofText (text : String) : (ofText text).text = text.toList :=
  flatten_breakLines text.toList

/-- Nothing is stripped of the last line: the range of the whole text ends behind everything that
stands behind the last break. -/
theorem exists_fullRange (text : String) : ∃ init x, (ofText text).lines = init ++ [x] ∧
    (ofText text).content init.length = x ∧
      (ofText text).fullRange = ⟨⟨0, 0⟩, ⟨init.length, units x⟩⟩ := by
  obtain ⟨init, x, hlines, hx, -⟩ := exists_breakLines text.toList
  have hcontent : (ofText text).content init.length = x := by
    have hstrip := stripBreak_append hx []
    rw [List.append_nil] at hstrip
    have hline : (ofText text).lines.getD init.length [] = x := by simp [ofText, hlines]
    calc (ofText text).content init.length
        = stripBreak ((ofText text).lines.getD init.length []) := rfl
      _ = x ++ stripBreak [] := by rw [hline, hstrip]
      _ = x := List.append_nil x
  have hlast : (ofText text).lastLine = init.length := by simp [ofText, lastLine, hlines]
  refine ⟨init, x, hlines, hcontent, ?_⟩
  rw [fullRange, hlast, hcontent]

theorem charOffset_start_fullRange (text : String) :
    (ofText text).charOffset (ofText text).fullRange.start = 0 := by
  have hnone : ∀ w, charsWithin 0 w = 0 := by
    intro w
    cases w with
    | nil => rfl
    | cons c cs =>
      have hpos : ¬ unitSize c ≤ 0 := by rcases unitSize_eq c with h | h <;> omega
      rw [charsWithin, if_neg hpos]
  simp [charOffset, fullRange, clampLine, lineStart, length_linePrefix, hnone]

/-- **The range of the whole text covers it up to its end.** -/
theorem charOffset_stop_fullRange (text : String) :
    (ofText text).charOffset (ofText text).fullRange.stop = text.toList.length := by
  obtain ⟨init, x, hlines, hcontent, hrange⟩ := exists_fullRange text
  have hlt : init.length < (ofText text).lines.length := by simp [hlines]
  have hall : charsWithin (units x) x = x.length := by
    have h := charsWithin_units_take x.length x
    rwa [List.take_length, Nat.min_self] at h
  have hlength : text.toList.length = init.flatten.length + x.length := by
    rw [← text_ofText, LineMap.text, hlines]
    simp
  rw [hrange, charOffset_of_lt _ hlt, hcontent, hall, hlength, lineStart, hlines, List.take_left]

end LineMap

@[simp] theorem applyEdits_nil (text : String) : applyEdits text [] = text := by
  simp [applyEdits, editedFrom]

/-- An edit over the range of the whole text leaves nothing of it. -/
theorem applyEdits_fullRange (text newText : String) :
    applyEdits text [⟨(LineMap.ofText text).fullRange, newText⟩] = newText := by
  simp [applyEdits, editedFrom, LineMap.charOffset_start_fullRange,
    LineMap.charOffset_stop_fullRange]

/-! ## Formatting -/

/-- **Formatting edits are exact.**  There are none to be had exactly when there are messages about
the text.  Otherwise the text with the edits made is the formatted text; there is no edit exactly
when the text is formatted already, and never more than one, which is over the range from the start
of the first line to the end of the last. -/
theorem applyEdits_formatEdits? {s : Session} {uri : String} {t : OpenText}
    (h : s.find? uri = some t) :
    (s.formatEdits? uri = none ↔ (Syntax.parse t.text).2 ≠ []) ∧
      ∀ es, s.formatEdits? uri = some es → ∃ formatted, format Float t.text = .ok formatted ∧
        applyEdits t.text es = formatted ∧ (es = [] ↔ formatted = t.text) ∧ es.length ≤ 1 ∧
        ∀ e ∈ es, e.range = (LineMap.ofText t.text).fullRange ∧
          ∃ init x, breakLines t.text.toList = init ++ [x] ∧
            e.range = ⟨⟨0, 0⟩, ⟨init.length, units x⟩⟩ := by
  have hissues : (∃ formatted, format Float t.text = .ok formatted) ↔
      (Syntax.parse t.text).2 = [] := exists_format_iff
  simp only [Session.formatEdits?, h]
  cases hformat : format Float t.text with
  | error errors =>
    have hmessages : (Syntax.parse t.text).2 ≠ [] := by
      rw [ne_eq, ← hissues, hformat]
      rintro ⟨formatted, hok⟩
      cases hok
    exact ⟨by simp [hmessages], by simp⟩
  | ok formatted =>
    have hnone : (Syntax.parse t.text).2 = [] := hissues.mp ⟨formatted, hformat⟩
    by_cases hsame : formatted = t.text
    · simp only [hsame, if_true]
      refine ⟨by simp [hnone], ?_⟩
      rintro es ⟨⟩
      exact ⟨t.text, rfl, applyEdits_nil t.text, by simp, by simp, by simp⟩
    · simp only [hsame, if_false]
      refine ⟨by simp [hnone], ?_⟩
      rintro es ⟨⟩
      obtain ⟨init, x, hlines, -, hrange⟩ := LineMap.exists_fullRange t.text
      refine ⟨formatted, rfl, applyEdits_fullRange t.text formatted, by simp [hsame], le_rfl, ?_⟩
      intro e he
      obtain rfl := List.mem_singleton.mp he
      exact ⟨rfl, init, x, hlines, hrange⟩

@[simp] theorem OpenText.text_update (previous : Option OpenText) (text : String) :
    (OpenText.update previous text).text = text := rfl

/-- A text whose last line, behind a vertical tab, ends in an emoji, is replaced up to the end of
that line. -/
theorem applyEdits_formatEdits?_emoji :
    (({} : Session).change "x" "a  ->b\x0b# 😀").formatEdits? "x" =
        some [⟨⟨⟨0, 0⟩, ⟨1, 4⟩⟩, "b\na\n\na -> b\n"⟩] ∧
      format Float "a  ->b\x0b# 😀" = .ok "b\na\n\na -> b\n" := by
  have hfind := Session.find?_change {} "x" "a  ->b\x0b# 😀" "x"
  rw [if_pos rfl] at hfind
  have hedits : (({} : Session).change "x" "a  ->b\x0b# 😀").formatEdits? "x" =
      some [⟨⟨⟨0, 0⟩, ⟨1, 4⟩⟩, "b\na\n\na -> b\n"⟩] := by decide +kernel
  obtain ⟨formatted, hformat, hnew, -⟩ := (applyEdits_formatEdits? hfind).2 _ hedits
  have hrange : (LineMap.ofText "a  ->b\x0b# 😀").fullRange = ⟨⟨0, 0⟩, ⟨1, 4⟩⟩ := by decide +kernel
  rw [OpenText.text_update] at hformat
  rw [OpenText.text_update, ← hrange, applyEdits_fullRange] at hnew
  exact ⟨hedits, hnew ▸ hformat⟩

end Editor

end Diagram
