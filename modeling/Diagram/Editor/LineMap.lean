import Diagram.Text.Blank
import Diagram.Text.Span

/-!
# Places in an editor

An editor counts lines and the units of the UTF-16 encoding within them, both from
zero.  Its lines end at more characters than those of the language: at a line feed,
a carriage return or both together, a vertical tab, a form feed, and the three
separators of the Unicode standard.

A place that does not exist is moved to the nearest that does: past the last line
to the last line, past the end of a line to its end, and into a pair of units to
its start.
-/

namespace Diagram.Editor

/-- A line and a unit within it, both counted from zero. -/
structure Place where
  line : Nat
  unit : Nat
  deriving DecidableEq, Repr

/-- Two places; the second is behind the last character. -/
structure Range where
  start : Place
  stop : Place
  deriving DecidableEq, Repr

/-- The number of UTF-16 units of a character. -/
def unitSize (c : Char) : Nat := if c.toNat < 0x10000 then 1 else 2

/-- The number of UTF-16 units of a text. -/
def units (text : List Char) : Nat := total unitSize text

/-- The number of leading characters that fit into a number of units. -/
def charsWithin : Nat → List Char → Nat
  | _, [] => 0
  | n, c :: cs => if unitSize c ≤ n then charsWithin (n - unitSize c) cs + 1 else 0

/-- The lines of a text, each with the break that ends it. -/
def breakLines : List Char → List (List Char)
  | [] => [[]]
  | '\r' :: '\n' :: cs => ['\r', '\n'] :: breakLines cs
  | c :: cs =>
    if isLineBreak c then [c] :: breakLines cs
    else
      match breakLines cs with
      | [] => [[c]]
      | l :: ls => (c :: l) :: ls

/-- The breaks keep the text. -/
@[simp] theorem flatten_breakLines (text : List Char) : (breakLines text).flatten = text := by
  fun_induction breakLines text with
  | case1 => rfl
  | case2 cs ih => simp [ih]
  | case3 c cs _ _ ih => simp [ih]
  | case4 c cs _ _ h ih => rw [h] at ih; simpa using ih
  | case5 c cs _ _ l ls h ih => rw [h] at ih; simpa using ih

/-- The lines of a text. -/
structure LineMap where
  lines : List (List Char)
  deriving Repr

namespace LineMap

def ofText (text : String) : LineMap := ⟨breakLines text.toList⟩

def text (m : LineMap) : List Char := m.lines.flatten

def lastLine (m : LineMap) : Nat := m.lines.length - 1

/-- A line that exists. -/
def clampLine (m : LineMap) (line : Nat) : Nat := min line m.lastLine

/-- The number of characters before a line. -/
def lineStart (m : LineMap) (line : Nat) : Nat := (m.lines.take line).flatten.length

/-- A line without the line feed and the carriage return at its end. -/
def content (m : LineMap) (line : Nat) : List Char :=
  ((m.lines.getD line []).reverse.dropWhile (fun c => c = '\n' || c = '\r')).reverse

/-- The text of a line up to a place. -/
def linePrefix (m : LineMap) (p : Place) : List Char :=
  let line := m.content (m.clampLine p.line)
  line.take (charsWithin p.unit line)

/-- The number of characters before a place. -/
def charOffset (m : LineMap) (p : Place) : Nat :=
  m.lineStart (m.clampLine p.line) + (m.linePrefix p).length

/-- The number of bytes before a place. -/
def byteOffset (m : LineMap) (p : Place) : Nat := byteSize (m.text.take (m.charOffset p))

/-- The place of a line and a column. -/
def place (m : LineMap) (p : Position) : Place :=
  let line := m.clampLine (p.line - 1)
  ⟨line, units ((m.content line).take (p.column - 1))⟩

/-- The range between the places of two characters, both within it. -/
def between (m : LineMap) (first last : Position) : Range :=
  ⟨m.place first, m.place ⟨last.line, last.column + 1⟩⟩

def range (m : LineMap) (s : Span) : Range := m.between s.first s.last

def fullRange (m : LineMap) : Range := ⟨⟨0, 0⟩, ⟨m.lastLine, units (m.content m.lastLine)⟩⟩

end LineMap

end Diagram.Editor
