import Diagram.Number.Scalar

/-!
# Layout options

The algorithm, the direction in which layers follow each other, and two distances.
Names are read without regard to the case of ASCII letters.
-/

namespace Diagram

/-- The ways in which nodes can be arranged. -/
inductive Algorithm where
  | layered
  | force
  | stress
  | radial
  | box
  deriving DecidableEq, Repr, Inhabited

/-- The direction in which layers follow each other. -/
inductive Direction where
  | down
  | right
  | up
  | left
  deriving DecidableEq, Repr, Inhabited

/-- Options with a name that is not known. -/
inductive UnknownOption where
  | algorithm (value : String)
  | direction (value : String)
  deriving DecidableEq, Repr

/-- Whether two texts agree up to the case of ASCII letters. -/
def sameName (a b : String) : Bool := a.toList.map Char.toLower == b.toList.map Char.toLower

namespace Algorithm

def all : List Algorithm := [layered, force, stress, radial, box]

def name : Algorithm → String
  | layered => "layered"
  | force => "force"
  | stress => "stress"
  | radial => "radial"
  | box => "box"

/-- What an algorithm does. -/
def description : Algorithm → String
  | layered => "Hierarchical layers following edge direction"
  | force => "Spring embedder; connected nodes pull together"
  | stress => "Distances approximate graph hop counts"
  | radial => "Rings around the first root node"
  | box => "Row-major grid packing"

def ofName? (s : String) : Option Algorithm := all.find? (fun a => sameName a.name s)

/-- The algorithm with a given name, or what is wrong with the name. -/
def ofName (s : String) : Except UnknownOption Algorithm :=
  match ofName? s with
  | some a => .ok a
  | none => .error (.algorithm s)

end Algorithm

namespace Direction

def all : List Direction := [down, right, up, left]

def name : Direction → String
  | down => "DOWN"
  | right => "RIGHT"
  | up => "UP"
  | left => "LEFT"

def isHorizontal : Direction → Bool
  | right | left => true
  | _ => false

def ofName? (s : String) : Option Direction := all.find? (fun d => sameName d.name s)

/-- The direction with a given name, or what is wrong with the name. -/
def ofName (s : String) : Except UnknownOption Direction :=
  match ofName? s with
  | some d => .ok d
  | none => .error (.direction s)

end Direction

def UnknownOption.message : UnknownOption → String
  | algorithm v =>
    "unknown layout algorithm \x60" ++ v ++ "\x60 (expected one of: " ++
      ", ".intercalate (Algorithm.all.map Algorithm.name) ++ ")"
  | direction v =>
    "unknown direction \x60" ++ v ++ "\x60 (expected one of: " ++
      ", ".intercalate (Direction.all.map Direction.name) ++ ")"

/-- The options of a layout. -/
structure Options (α : Type) where
  algorithm : Algorithm
  direction : Direction
  nodeSpacing : α
  edgeSpacing : α
  deriving DecidableEq, Repr

/-- The options that hold when nothing else is said. -/
def Options.default {α : Type} [Scalar α] : Options α :=
  ⟨.layered, .down, Scalar.ofNat 50, Scalar.ofNat 20⟩

end Diagram
