import Diagram.Geometry
import Diagram.Layout.Options

/-!
# Graphs to be laid out

What is asked of a layout engine, and what it answers: sized nodes and named edges
go in, boxes and polylines come out.
-/

namespace Diagram

variable {α : Type}

/-- A node to be placed. -/
structure SizedNode (α : Type) where
  id : String
  width : α
  height : α
  label : Option String := none
  deriving BEq, DecidableEq, Repr

/-- An edge to be routed. -/
structure GraphEdge where
  id : String
  source : String
  target : String
  label : Option String := none
  deriving BEq, DecidableEq, Repr

/-- A graph to be laid out. -/
structure LayoutGraph (α : Type) where
  nodes : List (SizedNode α)
  edges : List GraphEdge
  deriving BEq, DecidableEq, Repr

/-- A node and its box. -/
structure PlacedNode (α : Type) where
  id : String
  box : Box α
  deriving BEq, DecidableEq, Repr

/-- A stretch of an edge. -/
structure Section (α : Type) where
  startPoint : Point α
  bendPoints : List (Point α)
  endPoint : Point α
  deriving BEq, DecidableEq, Repr

/-- The points of a section, in order. -/
def Section.polyline (s : Section α) : List (Point α) :=
  s.startPoint :: s.bendPoints ++ [s.endPoint]

/-- An edge and its sections. -/
structure RoutedEdge (α : Type) where
  id : String
  sections : List (Section α)
  deriving BEq, DecidableEq, Repr

/-- A graph that has been laid out. -/
structure LayoutResult (α : Type) where
  nodes : List (PlacedNode α)
  edges : List (RoutedEdge α)
  deriving BEq, DecidableEq, Repr

/-- Why a graph cannot be laid out. -/
inductive LayoutError where
  | unknownNode (edge node : String)
  | nonFinite (node : String)
  | engine (message : String)
  deriving DecidableEq, Repr

def LayoutError.message : LayoutError → String
  | unknownNode edge node =>
    "edge \x60" ++ edge ++ "\x60 references unknown node \x60" ++ node ++ "\x60"
  | nonFinite node => "layout produced a non-finite position for node \x60" ++ node ++ "\x60"
  | engine message => "layout engine failed: " ++ message

/-- A way to lay out graphs, in a context where it may have effects. -/
abbrev Engine (m : Type → Type) (α : Type) :=
  LayoutGraph α → Options α → m (Except LayoutError (LayoutResult α))

end Diagram
