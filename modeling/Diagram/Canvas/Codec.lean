import Diagram.Canvas.Shape
import Diagram.Json.Basic
import Diagram.Number.Binary

/-!
# Canvas shapes as JSON

A shape is one record that holds its figure's fields as well as its own, with the
figure's kind under `type`.  Every field is written except labels and connections
that are not set; reading supplies what is left out.
-/

namespace Diagram

/-! ## Identities -/

/-- The digits of a shape's identity, in groups of eight, four, four, four and
twelve. -/
def ShapeId.text (id : ShapeId) : String :=
  let ds := (List.range 32).map (fun i => Json.hexDigit (id.value.toNat >>> (4 * (31 - i))))
  let part (start count : Nat) : String := String.ofList ((ds.drop start).take count)
  "-".intercalate [part 0 8, part 8 4, part 12 4, part 16 4, part 20 12]

/-- The identity that thirty-two digits write. -/
def ShapeId.ofDigits? (ds : List Char) : Option ShapeId :=
  if ds.length = 32 then
    (ds.mapM Json.hexValue?).map
      (fun vs => ⟨BitVec.ofNat 128 (vs.foldl (fun n v => 16 * n + v) 0)⟩)
  else none

/-- The digits between hyphens in the four places where they belong. -/
def hyphenated? (s : List Char) : Option (List Char) :=
  if s.length = 36 ∧ [8, 13, 18, 23].all (fun i => s[i]? = some '-') then
    some (s.take 8 ++ (s.drop 9).take 4 ++ (s.drop 14).take 4 ++ (s.drop 19).take 4 ++ s.drop 24)
  else none

/-- The name of the scheme that identities belong to. -/
def identityScheme : List Char := "urn:uuid:".toList

/-- An identity, read: its digits alone, in hyphenated groups, or these in braces or
behind the name of the scheme in letters of any case. -/
def ShapeId.ofText? (text : String) : Option ShapeId :=
  let s := text.toList
  if s.length = 32 then ofDigits? s
  else if s.length = 38 ∧ s.head? = some '\x7b' ∧ s.getLast? = some '\x7d' then
    (hyphenated? (s.drop 1).dropLast).bind ofDigits?
  else if (s.take identityScheme.length).map Char.toLower = identityScheme then
    (hyphenated? (s.drop identityScheme.length)).bind ofDigits?
  else (hyphenated? s).bind ofDigits?

/-- An identity in JSON, read. -/
def ShapeId.ofJson? (j : Json) : Option ShapeId := j.string?.bind ShapeId.ofText?

/-! ## Parts -/

def Point.toJson (p : Point Float) : Json := .object [("x", .number p.x), ("y", .number p.y)]

/-- A point, read; it may be written as an array of its coordinates. -/
def Point.ofJson? (j : Json) : Option (Point Float) := do
  let r ← Record.ofJson? ["x", "y"] 2 j
  let x ← r.required "x" Json.number?
  let y ← r.required "y" Json.number?
  return ⟨x, y⟩

def pointsToJson (ps : List (Point Float)) : Json := .array (ps.map Point.toJson)

def Paint.toJson (p : Paint Float) : Json :=
  .object [("stroke", .string p.stroke), ("fill", .string p.fill),
    ("strokeWidth", .number p.strokeWidth), ("opacity", .number p.opacity),
    ("dashed", .bool p.dashed)]

def Paint.ofJson? (j : Json) : Option (Paint Float) := do
  let r ← Record.ofJson? ["stroke", "fill", "strokeWidth", "opacity", "dashed"] 0 j
  let base : Paint Float := .default
  let stroke ← r.defaulted "stroke" base.stroke Json.string?
  let fill ← r.defaulted "fill" base.fill Json.string?
  let strokeWidth ← r.defaulted "strokeWidth" base.strokeWidth Json.number?
  let opacity ← r.defaulted "opacity" base.opacity Json.number?
  let dashed ← r.defaulted "dashed" base.dashed Json.bool?
  return { stroke, fill, strokeWidth, opacity, dashed }

/-! ## Figures -/

/-- The connections of a connector, with identities written by `idText`. -/
def connectionFields (idText : ShapeId → String) (start stop : Option ShapeId) : Record :=
  Record.fieldIfSet "startConnection" (fun i => .string (idText i)) start ++
    Record.fieldIfSet "endConnection" (fun i => .string (idText i)) stop

/-- A label that is set. -/
def labelField (l : Option String) : Record := Record.fieldIfSet "label" .string l

/-- A figure as a record, with identities written by `idText`. -/
def Figure.toRecord (idText : ShapeId → String) : Figure Float → Record
  | .rectangle w h r l =>
    [("type", .string "rectangle"), ("width", .number w), ("height", .number h),
      ("cornerRadius", .number r)] ++ labelField l
  | .ellipse w h l =>
    [("type", .string "ellipse"), ("width", .number w), ("height", .number h)] ++ labelField l
  | .line ps a b l =>
    [("type", .string "line"), ("points", pointsToJson ps)] ++ connectionFields idText a b ++
      labelField l
  | .arrow ps s e a b l =>
    [("type", .string "arrow"), ("points", pointsToJson ps), ("startArrow", .bool s),
      ("endArrow", .bool e)] ++ connectionFields idText a b ++ labelField l
  | .freehand ps => [("type", .string "freehand"), ("points", pointsToJson ps)]
  | .text t size => [("type", .string "text"), ("text", .string t), ("fontSize", .number size)]

def figureKinds : List String :=
  ["rectangle", "ellipse", "line", "arrow", "freehand", "text"]

/-- A figure, read. -/
def Figure.ofJson? (access : Json.Access) (j : Json) : Option (Figure Float) := do
  let (kind, j) ← Record.tagged? access "type" figureKinds j
  match kind with
  | "rectangle" =>
    let r ← Record.ofJson? ["width", "height", "cornerRadius", "label"] 2 j
    let width ← r.required "width" Json.number?
    let height ← r.required "height" Json.number?
    let radius ← r.defaulted "cornerRadius" 0 Json.number?
    let label ← r.optional "label" Json.string?
    return .rectangle width height radius label
  | "ellipse" =>
    let r ← Record.ofJson? ["width", "height", "label"] 2 j
    let width ← r.required "width" Json.number?
    let height ← r.required "height" Json.number?
    let label ← r.optional "label" Json.string?
    return .ellipse width height label
  | "line" =>
    let r ← Record.ofJson? ["points", "startConnection", "endConnection", "label"] 1 j
    let points ← r.required "points" (Json.list? Point.ofJson?)
    let start ← r.optional "startConnection" ShapeId.ofJson?
    let stop ← r.optional "endConnection" ShapeId.ofJson?
    let label ← r.optional "label" Json.string?
    return .line points start stop label
  | "arrow" =>
    let r ← Record.ofJson?
      ["points", "startArrow", "endArrow", "startConnection", "endConnection", "label"] 1 j
    let points ← r.required "points" (Json.list? Point.ofJson?)
    let startArrow ← r.defaulted "startArrow" false Json.bool?
    let endArrow ← r.defaulted "endArrow" true Json.bool?
    let start ← r.optional "startConnection" ShapeId.ofJson?
    let stop ← r.optional "endConnection" ShapeId.ofJson?
    let label ← r.optional "label" Json.string?
    return .arrow points startArrow endArrow start stop label
  | "freehand" =>
    let r ← Record.ofJson? ["points"] 1 j
    return .freehand (← r.required "points" (Json.list? Point.ofJson?))
  | "text" =>
    let r ← Record.ofJson? ["text", "fontSize"] 1 j
    let text ← r.required "text" Json.string?
    let fontSize ← r.defaulted "fontSize" 16 Json.number?
    return .text text fontSize
  | _ => none

/-! ## Shapes -/

/-- What a shape is apart from its identity, as a record. -/
def Shape.toRecord (idText : ShapeId → String) (s : Shape Float) : Record :=
  [("x", .number s.x), ("y", .number s.y), ("rotation", .number s.rotation),
    ("style", s.paint.toJson)] ++ s.figure.toRecord idText

/-- A shape as JSON, with identities written by `idText`. -/
def Shape.toJsonWith (idText : ShapeId → String) (s : Shape Float) : Json :=
  .object (("id", .string (idText s.id)) :: s.toRecord idText)

def Shape.toJson (s : Shape Float) : Json := s.toJsonWith ShapeId.text

/-- A shape, read.  What is not its own is held to find its figure in it. -/
def Shape.ofJson? (j : Json) : Option (Shape Float) :=
  match j with
  | .object r => do
    let id ← Record.required r "id" ShapeId.ofJson?
    let x ← Record.required r "x" Json.number?
    let y ← Record.required r "y" Json.number?
    let rotation ← Record.defaulted r "rotation" 0 Json.number?
    let paint ← Record.defaulted r "style" .default Paint.ofJson?
    let own := ["id", "x", "y", "rotation", "style"]
    let figure ← Figure.ofJson? .held (.object (r.filter (fun e => !own.contains e.1)))
    return { id, x, y, rotation, paint, figure }
  | _ => none

end Diagram
