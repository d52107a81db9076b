import Diagram.Number.Scalar

/-!
# Style properties

A style is a sparse set of properties: nine that take a number and two that take a
colour or a name.  A property that is not set is left to whoever draws.
-/

namespace Diagram

/-- A key that takes a number. -/
inductive NumberKey where
  | x
  | y
  | width
  | height
  | x1
  | y1
  | x2
  | y2
  | strokeWidth
  deriving DecidableEq, Repr

/-- A key that takes a colour or a name. -/
inductive TextKey where
  | fill
  | stroke
  deriving DecidableEq, Repr

/-- A key of a style. -/
inductive StyleKey where
  | number (k : NumberKey)
  | text (k : TextKey)
  deriving DecidableEq, Repr

namespace StyleKey

/-- Every key, by name, in the order in which properties are written. -/
def names : List (String × StyleKey) :=
  [("x", number .x), ("y", number .y), ("width", number .width), ("height", number .height),
    ("x1", number .x1), ("y1", number .y1), ("x2", number .x2), ("y2", number .y2),
    ("fill", text .fill), ("stroke", text .stroke), ("strokeWidth", number .strokeWidth)]

/-- The key with a given name. -/
def ofName? (name : String) : Option StyleKey := names.lookup name

@[simp] def isNumeric : StyleKey → Bool
  | number _ => true
  | text _ => false

/-- Whether the key with a given name takes a number, in a table apart from that of the
setters. -/
def isNumeric? (name : String) : Option Bool :=
  match name with
  | "fill" | "stroke" => some false
  | "strokeWidth" | "x" | "y" | "width" | "height" | "x1" | "y1" | "x2" | "y2" => some true
  | _ => none

end StyleKey

/-- Style properties, each set or not. -/
structure Style (α : Type) where
  fill : Option String := none
  stroke : Option String := none
  strokeWidth : Option α := none
  x : Option α := none
  y : Option α := none
  width : Option α := none
  height : Option α := none
  x1 : Option α := none
  y1 : Option α := none
  x2 : Option α := none
  y2 : Option α := none
  deriving BEq, DecidableEq, Repr

namespace Style

variable {α : Type}

def empty : Style α := {}

instance : Inhabited (Style α) := ⟨empty⟩

def isEmpty (s : Style α) : Bool :=
  s.fill.isNone && s.stroke.isNone && s.strokeWidth.isNone && s.x.isNone && s.y.isNone &&
    s.width.isNone && s.height.isNone && s.x1.isNone && s.y1.isNone && s.x2.isNone && s.y2.isNone

/-- The number under a key. -/
def number (s : Style α) : NumberKey → Option α
  | .x => s.x
  | .y => s.y
  | .width => s.width
  | .height => s.height
  | .x1 => s.x1
  | .y1 => s.y1
  | .x2 => s.x2
  | .y2 => s.y2
  | .strokeWidth => s.strokeWidth

/-- The text under a key. -/
def text (s : Style α) : TextKey → Option String
  | .fill => s.fill
  | .stroke => s.stroke

def setNumber (s : Style α) (v : α) : NumberKey → Style α
  | .x => { s with x := some v }
  | .y => { s with y := some v }
  | .width => { s with width := some v }
  | .height => { s with height := some v }
  | .x1 => { s with x1 := some v }
  | .y1 => { s with y1 := some v }
  | .x2 => { s with x2 := some v }
  | .y2 => { s with y2 := some v }
  | .strokeWidth => { s with strokeWidth := some v }

def setText (s : Style α) (v : String) : TextKey → Style α
  | .fill => { s with fill := some v }
  | .stroke => { s with stroke := some v }

/-- Sets the number under a key given by name, if that key takes numbers. -/
def setNumber? (s : Style α) (key : String) (v : α) : Option (Style α) :=
  match StyleKey.ofName? key with
  | some (.number k) => some (s.setNumber v k)
  | _ => none

/-- Sets the text under a key given by name, if that key takes texts. -/
def setText? (s : Style α) (key : String) (v : String) : Option (Style α) :=
  match StyleKey.ofName? key with
  | some (.text k) => some (s.setText v k)
  | _ => none

/-- The properties of `later` laid over those of `s`. -/
def merge (s later : Style α) : Style α where
  fill := later.fill <|> s.fill
  stroke := later.stroke <|> s.stroke
  strokeWidth := later.strokeWidth <|> s.strokeWidth
  x := later.x <|> s.x
  y := later.y <|> s.y
  width := later.width <|> s.width
  height := later.height <|> s.height
  x1 := later.x1 <|> s.x1
  y1 := later.y1 <|> s.y1
  x2 := later.x2 <|> s.x2
  y2 := later.y2 <|> s.y2

@[simp] theorem merge_empty (s : Style α) : s.merge empty = s := rfl

/-- After merging, a number is the later one where that is set. -/
@[simp] theorem number_merge (s later : Style α) (k : NumberKey) :
    (s.merge later).number k = (later.number k <|> s.number k) := by
  cases k <;> rfl

/-- After merging, a text is the later one where that is set. -/
@[simp] theorem text_merge (s later : Style α) (k : TextKey) :
    (s.merge later).text k = (later.text k <|> s.text k) := by
  cases k <;> rfl

/-- Both coordinates of the top left corner, when both are set. -/
def position (s : Style α) : Option (α × α) := do
  let x ← s.x
  let y ← s.y
  return (x, y)

/-- Brings a whole number into the range of 64 bits. -/
def clampWord (n : Int) : Int := max (-9223372036854775808) (min 9223372036854775807 n)

/-- How a number is written: as the nearest whole number of 64 bits, since the
language has no other literals. -/
def numberText [Scalar α] (v : α) : String := toString (clampWord (Scalar.nearest v))

/-- The text written for the value under a key. -/
def valueText [Scalar α] (s : Style α) : StyleKey → Option String
  | .number k => (s.number k).map numberText
  | .text k => s.text k

/-- The names of the properties that are set, with the texts of their values, in
the order in which they are written. -/
def entries [Scalar α] (s : Style α) : List (String × String) :=
  StyleKey.names.filterMap (fun (name, key) => (s.valueText key).map (name, ·))

end Style

end Diagram
