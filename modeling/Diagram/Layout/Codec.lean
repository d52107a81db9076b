import Diagram.Canvas.Codec
import Diagram.Layout.Graph

/-!
# Layout graphs and results as JSON

Options, graphs and results as records.  Every option has a default; labels that are
not set are not written.
-/

namespace Diagram

/-! ## Options -/

def Options.toJson (o : Options Float) : Json :=
  .object [("algorithm", .string o.algorithm.name), ("direction", .string o.direction.name),
    ("nodeSpacing", .number o.nodeSpacing), ("edgeSpacing", .number o.edgeSpacing)]

def Options.ofJson? (j : Json) : Option (Options Float) := do
  let r ← Record.ofJson? ["algorithm", "direction", "nodeSpacing", "edgeSpacing"] 0 j
  let base : Options Float := .default
  let named {β : Type} (all : List β) (name : β → String) (v : Json) : Option β :=
    (v.variant? .direct).bind (fun s => all.find? (fun a => name a == s))
  let algorithm ← r.defaulted "algorithm" base.algorithm (named Algorithm.all Algorithm.name)
  let direction ← r.defaulted "direction" base.direction (named Direction.all Direction.name)
  let nodeSpacing ← r.defaulted "nodeSpacing" base.nodeSpacing Json.number?
  let edgeSpacing ← r.defaulted "edgeSpacing" base.edgeSpacing Json.number?
  return { algorithm, direction, nodeSpacing, edgeSpacing }

/-! ## Graphs -/

def SizedNode.toJson (n : SizedNode Float) : Json :=
  .object ([("id", .string n.id), ("width", .number n.width), ("height", .number n.height)] ++
    labelField n.label)

def SizedNode.ofJson? (j : Json) : Option (SizedNode Float) := do
  let r ← Record.ofJson? ["id", "width", "height", "label"] 3 j
  let id ← r.required "id" Json.string?
  let width ← r.required "width" Json.number?
  let height ← r.required "height" Json.number?
  let label ← r.optional "label" Json.string?
  return { id, width, height, label }

def GraphEdge.toJson (e : GraphEdge) : Json :=
  .object ([("id", .string e.id), ("source", .string e.source), ("target", .string e.target)] ++
    labelField e.label)

def GraphEdge.ofJson? (j : Json) : Option GraphEdge := do
  let r ← Record.ofJson? ["id", "source", "target", "label"] 3 j
  let id ← r.required "id" Json.string?
  let source ← r.required "source" Json.string?
  let target ← r.required "target" Json.string?
  let label ← r.optional "label" Json.string?
  return { id, source, target, label }

def LayoutGraph.toJson (g : LayoutGraph Float) : Json :=
  .object [("nodes", .array (g.nodes.map SizedNode.toJson)),
    ("edges", .array (g.edges.map GraphEdge.toJson))]

def LayoutGraph.ofJson? (j : Json) : Option (LayoutGraph Float) := do
  let r ← Record.ofJson? ["nodes", "edges"] 2 j
  let nodes ← r.required "nodes" (Json.list? SizedNode.ofJson?)
  let edges ← r.required "edges" (Json.list? GraphEdge.ofJson?)
  return { nodes, edges }

/-! ## Results -/

def PlacedNode.toJson (n : PlacedNode Float) : Json :=
  .object [("id", .string n.id), ("x", .number n.box.x), ("y", .number n.box.y),
    ("width", .number n.box.width), ("height", .number n.box.height)]

def PlacedNode.ofJson? (j : Json) : Option (PlacedNode Float) := do
  let r ← Record.ofJson? ["id", "x", "y", "width", "height"] 5 j
  let id ← r.required "id" Json.string?
  let x ← r.required "x" Json.number?
  let y ← r.required "y" Json.number?
  let width ← r.required "width" Json.number?
  let height ← r.required "height" Json.number?
  return ⟨id, ⟨x, y, width, height⟩⟩

def Section.toJson (s : Section Float) : Json :=
  .object [("startPoint", s.startPoint.toJson), ("bendPoints", pointsToJson s.bendPoints),
    ("endPoint", s.endPoint.toJson)]

def Section.ofJson? (j : Json) : Option (Section Float) := do
  let r ← Record.ofJson? ["startPoint", "bendPoints", "endPoint"] 3 j
  let startPoint ← r.required "startPoint" Point.ofJson?
  let bendPoints ← r.defaulted "bendPoints" [] (Json.list? Point.ofJson?)
  let endPoint ← r.required "endPoint" Point.ofJson?
  return { startPoint, bendPoints, endPoint }

def RoutedEdge.toJson (e : RoutedEdge Float) : Json :=
  .object [("id", .string e.id), ("sections", .array (e.sections.map Section.toJson))]

def RoutedEdge.ofJson? (j : Json) : Option (RoutedEdge Float) := do
  let r ← Record.ofJson? ["id", "sections"] 1 j
  let id ← r.required "id" Json.string?
  let sections ← r.defaulted "sections" [] (Json.list? Section.ofJson?)
  return { id, sections }

def LayoutResult.toJson (r : LayoutResult Float) : Json :=
  .object [("nodes", .array (r.nodes.map PlacedNode.toJson)),
    ("edges", .array (r.edges.map RoutedEdge.toJson))]

def LayoutResult.ofJson? (j : Json) : Option (LayoutResult Float) := do
  let r ← Record.ofJson? ["nodes", "edges"] 2 j
  let nodes ← r.required "nodes" (Json.list? PlacedNode.ofJson?)
  let edges ← r.required "edges" (Json.list? RoutedEdge.ofJson?)
  return { nodes, edges }

end Diagram
