import Diagram.Document.Basic
import Diagram.Json.Basic

/-!
# Documents as JSON

A statement is a record with its kind under `type`.  What is not set is not written;
an empty style is not written either, except for a free arrow, which always has one.
-/

namespace Diagram

/-! ## Styles -/

def Style.toJson (s : Style Float) : Json :=
  .object
    (Record.fieldIfSet "fill" .string s.fill ++ Record.fieldIfSet "stroke" .string s.stroke ++
      Record.fieldIfSet "strokeWidth" .number s.strokeWidth ++ Record.fieldIfSet "x" .number s.x ++
      Record.fieldIfSet "y" .number s.y ++ Record.fieldIfSet "width" .number s.width ++
      Record.fieldIfSet "height" .number s.height ++ Record.fieldIfSet "x1" .number s.x1 ++
      Record.fieldIfSet "y1" .number s.y1 ++ Record.fieldIfSet "x2" .number s.x2 ++
      Record.fieldIfSet "y2" .number s.y2)

def Style.ofJson? (j : Json) : Option (Style Float) := do
  let r ← Record.ofJson?
    ["fill", "stroke", "strokeWidth", "x", "y", "width", "height", "x1", "y1", "x2", "y2"] 0 j
  let fill ← r.optional "fill" Json.string?
  let stroke ← r.optional "stroke" Json.string?
  let strokeWidth ← r.optional "strokeWidth" Json.number?
  let x ← r.optional "x" Json.number?
  let y ← r.optional "y" Json.number?
  let width ← r.optional "width" Json.number?
  let height ← r.optional "height" Json.number?
  let x1 ← r.optional "x1" Json.number?
  let y1 ← r.optional "y1" Json.number?
  let x2 ← r.optional "x2" Json.number?
  let y2 ← r.optional "y2" Json.number?
  return { fill, stroke, strokeWidth, x, y, width, height, x1, y1, x2, y2 }

/-- A style that is not empty. -/
def styleField (s : Style Float) : Record :=
  if s.isEmpty then [] else [("style", s.toJson)]

/-! ## Statements -/

def Node.toRecord (n : Node Float) : Record :=
  [("id", .string n.id)] ++ Record.fieldIfSet "label" .string n.label ++
    Record.fieldIfSet "shape" (fun s : NodeShape => .string s.keyword) n.shape ++ styleField n.style

def Node.ofJson? (access : Json.Access) (j : Json) : Option (Node Float) := do
  let r ← Record.ofJson? ["id", "label", "shape", "style"] 1 j
  let id ← r.required "id" Json.string?
  let label ← r.optional "label" Json.string?
  let shape ← r.optional "shape" (fun v => (v.variant? access).bind NodeShape.ofName?)
  let style ← r.defaulted "style" {} Style.ofJson?
  return { id, label, shape, style }

def Edge.toRecord (e : Edge Float) : Record :=
  [("from", .string e.source), ("to", .string e.target), ("arrowType", .string e.arrow.name)] ++
    Record.fieldIfSet "label" .string e.label ++ styleField e.style

def Edge.ofJson? (access : Json.Access) (j : Json) : Option (Edge Float) := do
  let r ← Record.ofJson? ["from", "to", "arrowType", "label", "style"] 3 j
  let source ← r.required "from" Json.string?
  let target ← r.required "to" Json.string?
  let arrow ← r.required "arrowType" (fun v => (v.variant? access).bind Arrow.ofName?)
  let label ← r.optional "label" Json.string?
  let style ← r.defaulted "style" {} Style.ofJson?
  return { source, target, arrow, label, style }

namespace Statement

mutual

def toJson : Statement Float → Json
  | node n => .object (("type", .string "node") :: n.toRecord)
  | edge e => .object (("type", .string "edge") :: e.toRecord)
  | group id style children =>
    .object ([("type", .string "group"), ("id", .string id)] ++ styleField style ++
      [("children", .array (allToJson children))])
  | layout name => .object [("type", .string "layout"), ("algorithm", .string name)]
  | freeArrow style => .object [("type", .string "freeArrow"), ("style", style.toJson)]

def allToJson : List (Statement Float) → List Json
  | [] => []
  | s :: ss => toJson s :: allToJson ss

end

def kinds : List String := ["node", "edge", "group", "layout", "freeArrow"]

/-- A statement, read; groups nest at most `fuel` deep.  All that is in a statement was
held to find its kind. -/
def ofJsonWithin : Nat → Json.Access → Json → Option (Statement Float)
  | 0, _, _ => none
  | fuel + 1, access, j => do
    let (kind, j) ← Record.tagged? access "type" kinds j
    match kind with
    | "node" => return node (← Node.ofJson? .held j)
    | "edge" => return edge (← Edge.ofJson? .held j)
    | "group" =>
      let r ← Record.ofJson? ["id", "style", "children"] 3 j
      let id ← r.required "id" Json.string?
      let style ← r.defaulted "style" {} Style.ofJson?
      let children ← r.required "children" (Json.list? (ofJsonWithin fuel .held))
      return group id style children
    | "layout" =>
      let r ← Record.ofJson? ["algorithm"] 1 j
      return layout (← r.required "algorithm" Json.string?)
    | "freeArrow" =>
      let r ← Record.ofJson? ["style"] 1 j
      return freeArrow (← r.required "style" Style.ofJson?)
    | _ => none

def ofJson? (j : Json) : Option (Statement Float) := ofJsonWithin j.depth .direct j

end Statement

/-! ## Messages and documents -/

def Region.toJson (r : Region) : Json :=
  .object [("startLine", .int r.first.line), ("startColumn", .int r.first.column),
    ("endLine", .int r.last.line), ("endColumn", .int r.last.column)]

def Region.ofJson? (j : Json) : Option Region := do
  let r ← Record.ofJson? ["startLine", "startColumn", "endLine", "endColumn"] 4 j
  let startLine ← r.required "startLine" Json.count?
  let startColumn ← r.required "startColumn" Json.count?
  let endLine ← r.required "endLine" Json.count?
  let endColumn ← r.required "endColumn" Json.count?
  return ⟨⟨startLine, startColumn⟩, ⟨endLine, endColumn⟩⟩

def ParseError.toJson (e : ParseError) : Json :=
  .object ([("message", .string e.message)] ++
    Record.fieldIfSet "location" Region.toJson e.location)

def ParseError.ofJson? (j : Json) : Option ParseError := do
  let r ← Record.ofJson? ["message", "location"] 1 j
  let message ← r.required "message" Json.string?
  let location ← r.optional "location" Region.ofJson?
  return ⟨message, location⟩

def Document.toJson (d : Document Float) : Json :=
  .object [("statements", .array (Statement.allToJson d.statements)),
    ("errors", .array (d.errors.map ParseError.toJson))]

def Document.ofJson? (j : Json) : Option (Document Float) := do
  let r ← Record.ofJson? ["statements", "errors"] 2 j
  let statements ← r.required "statements" (Json.list? Statement.ofJson?)
  let errors ← r.required "errors" (Json.list? ParseError.ofJson?)
  return ⟨statements, errors⟩

end Diagram
