import Diagram.Layout.Layered
import Diagram.Layout.Rings
import Diagram.Layout.Route
import Diagram.Layout.Springs

/-!
# Layouts

The engine that comes with the library: the arrangement that the options name, with
its corner at the origin and its edges routed.
-/

namespace Diagram

variable {α : Type} [Metric α]

/-- The arrangement of a graph by the algorithm that the options name. -/
def arrange (t : Topology α) (o : Options α) : Placement α :=
  match o.algorithm with
  | .layered => layered t o
  | .force => springs t o
  | .stress => stress t o
  | .radial => radial t o
  | .box => grid t o

def layOut (g : LayoutGraph α) (o : Options α) : Except LayoutError (LayoutResult α) := do
  let t ← g.topology
  (arrange t o).realize g t

/-- The engine that comes with the library. -/
def builtinEngine : Engine Id α := fun g o => pure (layOut g o)

end Diagram
