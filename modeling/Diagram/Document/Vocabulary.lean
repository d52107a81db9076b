/-!
# Arrows and node shapes

The two closed vocabularies of the language: the six edge operators, and the four
shapes a node can have together with the keywords that name them.
-/

namespace Diagram

/-! ## Arrows -/

/-- An edge operator. -/
inductive Arrow where
  | right
  | left
  | both
  | dotted
  | thick
  | line
  deriving DecidableEq, Repr, Inhabited

namespace Arrow

/-- The operator as it is written. -/
def symbol : Arrow → String
  | right => "->"
  | left => "<-"
  | both => "<->"
  | dotted => "-->"
  | thick => "==>"
  | line => "--"

def name : Arrow → String
  | right => "right"
  | left => "left"
  | both => "both"
  | dotted => "dotted"
  | thick => "thick"
  | line => "line"

/-- All operators, in an order where none precedes a longer one that it begins. -/
def all : List Arrow := [both, dotted, thick, left, right, line]

/-- The operator with a given name. -/
def ofName? (s : String) : Option Arrow := all.find? (fun a => a.name == s)

def hasStartHead : Arrow → Bool
  | left | both => true
  | _ => false

def hasEndHead : Arrow → Bool
  | left | line => false
  | _ => true

end Arrow

/-! ## Shapes -/

/-- The shape of a node. -/
inductive NodeShape where
  | rect
  | circle
  | diamond
  | cylinder
  deriving DecidableEq, Repr, Inhabited

namespace NodeShape

/-- The keyword that is written for a shape. -/
def keyword : NodeShape → String
  | rect => "rect"
  | circle => "circle"
  | diamond => "diamond"
  | cylinder => "cylinder"

/-- Every shape keyword with the shape it names; a shape's own keyword is the
first of its keywords. -/
def keywords : List (String × NodeShape) :=
  [("rect", rect), ("box", rect), ("rectangle", rect), ("circle", circle), ("oval", circle),
    ("ellipse", circle), ("diamond", diamond), ("cylinder", cylinder), ("database", cylinder),
    ("db", cylinder)]

/-- The shape a keyword names. -/
def ofKeyword? (s : String) : Option NodeShape := keywords.lookup s

/-- The shape with a given name: its own keyword only. -/
def ofName? (s : String) : Option NodeShape :=
  [rect, circle, diamond, cylinder].find? (fun k => k.keyword == s)

/-- Width and height of a node that declares no size. -/
def defaultSize : NodeShape → Nat × Nat
  | rect => (120, 60)
  | circle => (80, 80)
  | diamond => (100, 100)
  | cylinder => (80, 100)

/-- A shape's own keyword names it. -/
@[simp] theorem ofKeyword?_keyword (s : NodeShape) : ofKeyword? s.keyword = some s := by
  cases s <;> decide

end NodeShape

end Diagram
