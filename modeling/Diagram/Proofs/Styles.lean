import Diagram.Proofs.Numbers
import Diagram.Proofs.Printing

/-!
# Styles, key by key

A style is determined by the values under its keys.  What is printed for a style and read
again has the same texts, and under each key that takes a number it has what the text of
that number is read as.
-/

namespace Diagram

open Syntax

namespace Style

variable {α : Type}

/-! ## Values under keys -/

/-- Two styles with the same values under every key are equal. -/
theorem ext_keys {s t : Style α} (hn : ∀ k, s.number k = t.number k)
    (ht : ∀ k, s.text k = t.text k) : s = t := by
  obtain ⟨⟩ := s
  obtain ⟨⟩ := t
  have hx := hn .x
  have hy := hn .y
  have hwidth := hn .width
  have hheight := hn .height
  have hx1 := hn .x1
  have hy1 := hn .y1
  have hx2 := hn .x2
  have hy2 := hn .y2
  have hstroke := hn .strokeWidth
  have hfill := ht .fill
  have hline := ht .stroke
  simp only [number, text] at *
  simp [*]

/-- A style whose numbers are changed. -/
def mapNumbers {β : Type} (f : α → β) (s : Style α) : Style β where
  fill := s.fill
  stroke := s.stroke
  strokeWidth := s.strokeWidth.map f
  x := s.x.map f
  y := s.y.map f
  width := s.width.map f
  height := s.height.map f
  x1 := s.x1.map f
  y1 := s.y1.map f
  x2 := s.x2.map f
  y2 := s.y2.map f

@[simp] theorem number_mapNumbers {β : Type} (f : α → β) (s : Style α) (k : NumberKey) :
    (s.mapNumbers f).number k = (s.number k).map f := by
  cases k <;> rfl

@[simp] theorem text_mapNumbers {β : Type} (f : α → β) (s : Style α) (k : TextKey) :
    (s.mapNumbers f).text k = s.text k := by
  cases k <;> rfl

@[simp] theorem number_default (k : NumberKey) : ({} : Style α).number k = none := by
  cases k <;> rfl

@[simp] theorem text_default (k : TextKey) : ({} : Style α).text k = none := by
  cases k <;> rfl

@[simp] theorem number_setNumber (s : Style α) (v : α) (j k : NumberKey) :
    (s.setNumber v j).number k = if j = k then some v else s.number k := by
  cases j <;> cases k <;> rfl

@[simp] theorem number_setText (s : Style α) (v : String) (j : TextKey) (k : NumberKey) :
    (s.setText v j).number k = s.number k := by
  cases j <;> cases k <;> rfl

@[simp] theorem text_setNumber (s : Style α) (v : α) (j : NumberKey) (k : TextKey) :
    (s.setNumber v j).text k = s.text k := by
  cases j <;> cases k <;> rfl

@[simp] theorem text_setText (s : Style α) (v : String) (j k : TextKey) :
    (s.setText v j).text k = if j = k then some v else s.text k := by
  cases j <;> cases k <;> rfl

/-! ## Reading back -/

variable [Scalar α]

/-- A number is written as a literal, and read as the numeral that is written. -/
theorem isLiteral_numberText (v : α) : isLiteral (numberText v) ∧
    literalValue (numberText v) =
      .number (.ofInt (clampWord (Scalar.nearest v))) := by
  rw [numberText_eq]
  exact isLiteral_text _

/-- What a style is read back as: the properties that are written for it, read in order. -/
def reread (s : Style α) : Style α := ofProperties s.properties

/-- One key of a style, read back over what was read before it. -/
def rereadKey (s t : Style α) (e : String × StyleKey) : Style α :=
  match s.valueText e.2 with
  | some v => if isLiteral v then t.add (literalProperty (e.1, v)) else t
  | none => t

theorem reread_eq_foldl (s : Style α) :
    s.reread = StyleKey.names.foldl s.rereadKey ({} : Style α) := by
  rw [reread, ofProperties, properties, literals, entries, List.foldl_map, List.foldl_filter,
    List.foldl_filterMap]
  congr 1
  funext t e
  rw [rereadKey]
  obtain ⟨name, key⟩ := e
  simp only
  cases s.valueText key <;> rfl

/-- A value is read under the key it was written under. -/
theorem ofName?_of_mem_names : ∀ e ∈ StyleKey.names, StyleKey.ofName? e.1 = some e.2 := by
  decide

/-- A number is read back under its key. -/
theorem rereadKey_number (s t : Style α) {name : String} {j : NumberKey}
    (hkey : StyleKey.ofName? name = some (.number j)) :
    s.rereadKey t (name, .number j) =
      (s.number j).elim t fun v => t.setNumber (Scalar.reread v) j := by
  cases hv : s.number j with
  | none => simp [rereadKey, valueText, hv]
  | some v =>
    obtain ⟨hliteral, hvalue⟩ := isLiteral_numberText v
    simp only [rereadKey, valueText, hv, Option.map_some, hliteral, if_true, literalProperty,
      hvalue, add, value_unplaced, setNumber?, hkey, Option.getD_some, Option.elim_some,
      Scalar.reread]

/-- A text that is read back leaves the numbers alone. -/
theorem number_rereadKey_text (s t : Style α) {name : String} {j : TextKey}
    (hkey : StyleKey.ofName? name = some (.text j)) (k : NumberKey) :
    (s.rereadKey t (name, .text j)).number k = t.number k := by
  rw [rereadKey]
  cases s.valueText (.text j) with
  | none => rfl
  | some text =>
    simp only
    split
    · simp only [add, literalProperty, value_unplaced]
      cases literalValue text <;> simp [setNumber?, setText?, hkey]
    · rfl

theorem number_rereadKey (s t : Style α) {e : String × StyleKey}
    (he : StyleKey.ofName? e.1 = some e.2) (k : NumberKey) :
    (s.rereadKey t e).number k =
      if e.2 = .number k then ((s.number k).map Scalar.reread <|> t.number k)
      else t.number k := by
  obtain ⟨name, key⟩ := e
  cases key with
  | number j =>
    rw [rereadKey_number s t he]
    by_cases hjk : j = k
    · subst hjk
      cases hv : s.number j <;> simp
    · cases hv : s.number j <;> simp [hjk]
  | text j => simpa using number_rereadKey_text s t he k

theorem text_rereadKey_self {s t : Style α} {name : String} {k : TextKey}
    (hkey : StyleKey.ofName? name = some (.text k)) (hs : ∀ v ∈ s.text k, IsTextValue v) :
    (s.rereadKey t (name, .text k)).text k = (s.text k <|> t.text k) := by
  cases hv : s.text k with
  | none => simp [rereadKey, valueText, hv]
  | some v =>
    obtain ⟨hliteral, hvalue⟩ := isLiteral_of_isTextValue (hs v hv)
    simp only [rereadKey, valueText, hv, hliteral, if_true, add, literalProperty, value_unplaced]
    rcases hvalue with h | h <;> simp [h, setText?, hkey]

theorem text_rereadKey_ne {s t : Style α} {e : String × StyleKey}
    (he : StyleKey.ofName? e.1 = some e.2) {k : TextKey} (hne : e.2 ≠ .text k) :
    (s.rereadKey t e).text k = t.text k := by
  rw [rereadKey]
  cases s.valueText e.2 with
  | none => rfl
  | some v =>
    simp only
    split
    · simp only [add, literalProperty, value_unplaced]
      cases literalValue v <;> simp only [setNumber?, setText?, he] <;> cases hkey : e.2 <;>
        simp_all
    · rfl

/-- Keys that are read back one after the other, each one's value laid over the others. -/
theorem number_foldl_rereadKey (s : Style α) (k : NumberKey) {es : List (String × StyleKey)}
    (hes : ∀ e ∈ es, StyleKey.ofName? e.1 = some e.2) (t : Style α) :
    (es.foldl s.rereadKey t).number k =
      if .number k ∈ es.map Prod.snd then ((s.number k).map Scalar.reread <|> t.number k)
      else t.number k := by
  induction es generalizing t with
  | nil => simp
  | cons e es ih =>
    have hfirst := number_rereadKey s t (hes e (by simp)) k
    have hmore := ih (fun f hf => hes f (List.mem_cons_of_mem e hf)) (s.rereadKey t e)
    rw [List.foldl_cons, hmore, hfirst, List.map_cons]
    by_cases hkey : e.2 = .number k
    · by_cases hrest : StyleKey.number k ∈ es.map Prod.snd
      · rw [if_pos hrest, if_pos hkey, if_pos (List.mem_cons_of_mem _ hrest)]
        cases s.number k <;> rfl
      · rw [if_neg hrest, if_pos hkey, if_pos (by simp [hkey])]
    · simp only [if_neg hkey, List.mem_cons, Ne.symm hkey, false_or]

theorem text_foldl_rereadKey {s : Style α} {k : TextKey} (hs : ∀ v ∈ s.text k, IsTextValue v)
    {es : List (String × StyleKey)} (hes : ∀ e ∈ es, StyleKey.ofName? e.1 = some e.2)
    (t : Style α) :
    (es.foldl s.rereadKey t).text k =
      if .text k ∈ es.map Prod.snd then (s.text k <|> t.text k) else t.text k := by
  induction es generalizing t with
  | nil => simp
  | cons e es ih =>
    have hmore := ih (fun f hf => hes f (List.mem_cons_of_mem e hf)) (s.rereadKey t e)
    rw [List.foldl_cons, hmore, List.map_cons]
    by_cases hkey : e.2 = .text k
    · obtain ⟨name, key⟩ := e
      subst hkey
      rw [text_rereadKey_self (hes _ List.mem_cons_self) hs, if_pos List.mem_cons_self]
      split
      · cases s.text k <;> rfl
      · rfl
    · rw [text_rereadKey_ne (hes e List.mem_cons_self) hkey]
      simp only [List.mem_cons, Ne.symm hkey, false_or]

/-- Under a key that takes a number stands what its text is read as. -/
@[simp] theorem number_reread (s : Style α) (k : NumberKey) :
    s.reread.number k = (s.number k).map Scalar.reread := by
  have hkey : StyleKey.number k ∈ StyleKey.names.map Prod.snd := by
    cases k <;> decide
  rw [reread_eq_foldl, number_foldl_rereadKey s k ofName?_of_mem_names, if_pos hkey, number_default]
  cases s.number k <;> rfl

/-- Under a key that takes a text stands that text, if it is one colour or one word. -/
theorem text_reread {s : Style α} {k : TextKey} (hs : ∀ v ∈ s.text k, IsTextValue v) :
    s.reread.text k = s.text k := by
  have hkey : StyleKey.text k ∈ StyleKey.names.map Prod.snd := by
    cases k <;> decide
  rw [reread_eq_foldl, text_foldl_rereadKey hs ofName?_of_mem_names, if_pos hkey, text_default]
  cases s.text k <;> rfl

/-- The texts of a style are colours and words. -/
def HasTextValues (s : Style α) : Prop := ∀ k, ∀ v ∈ s.text k, IsTextValue v

/-- **Reading back what was written for a style changes nothing but the numbers.** -/
theorem reread_eq_mapNumbers {s : Style α} (h : s.HasTextValues) :
    s.reread = s.mapNumbers Scalar.reread :=
  ext_keys (fun k => by simp) (fun k => by rw [text_reread (h k), text_mapNumbers])

end Style

end Diagram
