import Diagram.Document.Basic
import Diagram.Text.Blank

/-!
# The text of a document

One statement per line, the statements of a group indented by two spaces and
enclosed in braces.  Statements of one kind are kept together; where the kind
changes, an empty line stands between.

What cannot be written is left out: a property whose value is no literal of the
language, and a free arrow without properties.  A quote in a label becomes an
apostrophe.
-/

namespace Diagram

variable {α : Type} [Scalar α]

/-- Whether a word names a group, an arrow or a shape, and so cannot be a value. -/
def isKeyword (word : String) : Bool :=
  word == "group" || word == "arrow" || (NodeShape.ofKeyword? word).isSome

/-- Whether a text is one literal: a number, a colour of three to six digits, or a
word that is no keyword. -/
def isLiteral (text : String) : Bool :=
  if isKeyword text then false
  else
    match text.toList with
    | [] => false
    | '#' :: ds => 3 ≤ ds.length && ds.length ≤ 6 && ds.all isHexDigit
    | c :: cs =>
      let digits := if c = '-' then cs else c :: cs
      (!digits.isEmpty && digits.all Char.isDigit) || (isNameStart c && cs.all isNameChar)

/-- The properties that can be written, with the texts of their values. -/
def Style.literals (s : Style α) : List (String × String) :=
  s.entries.filter (fun e => isLiteral e.2)

/-- The properties of a style, separated by commas. -/
def Style.render (s : Style α) : String :=
  ", ".intercalate (s.literals.map (fun e => e.1 ++ ": " ++ e.2))

/-- The properties of a style in parentheses, and nothing when there are none. -/
def Style.renderList (s : Style α) : String :=
  let text := s.render
  if text.isEmpty then "" else "(" ++ text ++ ")"

/-- A label as it can be written. -/
def labelText (label : String) : String :=
  String.ofList (label.toList.map (fun c => if c = '"' then '\'' else c))

/-- A label behind a colon. -/
def renderLabel : Option String → String
  | some label => ": \"" ++ labelText label ++ "\""
  | none => ""

/-- A node: name, shape with properties, label.  Properties need a shape to stand
behind. -/
def Node.render (n : Node α) : String :=
  let properties := n.style.render
  let shape :=
    match n.shape with
    | some s => some s
    -- without a shape a node is drawn as a rectangle, so this adds nothing
    | none => if properties.isEmpty then none else some .rect
  let spec :=
    match shape with
    | some s =>
      "(" ++ s.keyword ++ (if properties.isEmpty then "" else ", " ++ properties) ++ ")"
    | none => ""
  n.id ++ spec ++ renderLabel n.label

/-- An edge: its ends around the operator, properties, label. -/
def Edge.render (e : Edge α) : String :=
  e.source ++ " " ++ e.arrow.symbol ++ " " ++ e.target ++ e.style.renderList ++
    renderLabel e.label

def indentation (depth : Nat) : String := String.ofList (List.replicate (2 * depth) ' ')

/-- Whether an empty line stands before a statement of the given kind. -/
def needsGap (previous : Option String) (kind : String) : Bool := previous.any (fun p => p != kind)

mutual

/-- The lines of a statement. -/
def Statement.render (depth : Nat) : Statement α → String
  | .node n => indentation depth ++ n.render ++ "\n"
  | .edge e => indentation depth ++ e.render ++ "\n"
  | .group id style children =>
    indentation depth ++ "group " ++ id ++ style.renderList ++ " \x7b\n" ++
      renderAll (depth + 1) none children ++ indentation depth ++ "\x7d\n"
  | .layout name => indentation depth ++ "@layout: " ++ name ++ "\n"
  | .freeArrow style =>
    let properties := style.renderList
    if properties.isEmpty then "" else indentation depth ++ "arrow" ++ properties ++ "\n"

/-- The lines of some statements, behind a statement of the given kind. -/
def Statement.renderAll (depth : Nat) (previous : Option String) : List (Statement α) → String
  | [] => ""
  | s :: ss =>
    (if needsGap previous s.kindName then "\n" else "") ++ Statement.render depth s ++
      renderAll depth (some s.kindName) ss

end

def Document.render (d : Document α) : String := Statement.renderAll 0 none d.statements

end Diagram
