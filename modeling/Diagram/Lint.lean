import Diagram.Layout.Options
import Diagram.Document.Style
import Diagram.Syntax.Parser

/-!
# Findings

A text that can be read may still hold something its writer did not mean: an
unknown property or layout, a value of the wrong kind, an edge from a node to
itself, a node with two shapes.  The rules look at the syntax tree, so every finding
has a span; they look at whatever could be read of a text with errors.
-/

namespace Diagram.Lint

open Syntax

/-- How much a finding matters. -/
inductive Severity where
  | warning
  | info
  deriving DecidableEq, Repr

/-- What is found. -/
inductive Finding where
  | unknownLayout (name : String)
  | selfLoop (id : String)
  | conflictingShape (id : String) (first shape : NodeShape)
  | unknownProperty (key : String)
  | invalidValue (key : String) (numeric : Bool) (kind : String)
  deriving DecidableEq, Repr

namespace Finding

/-- The name of the rule. -/
def rule : Finding → String
  | unknownLayout _ => "unknown-layout"
  | selfLoop _ => "self-loop"
  | conflictingShape .. => "conflicting-shape"
  | unknownProperty _ => "unknown-style-prop"
  | invalidValue .. => "invalid-style-value"

/-- How much the finding matters. -/
def severity : Finding → Severity
  | selfLoop _ => .info
  | _ => .warning

/-- A text in backticks. -/
def code (s : String) : String := "\x60" ++ s ++ "\x60"

/-- What is said about the finding. -/
def message : Finding → String
  | unknownLayout name =>
    "Unknown layout " ++ code name ++ "; the default is used. Known: " ++
      ", ".intercalate (Algorithm.all.map Algorithm.name) ++ "."
  | selfLoop id => "Edge from " ++ code id ++ " to itself."
  | conflictingShape id first shape =>
    code id ++ " was declared as " ++ code first.keyword ++ "; this " ++ code shape.keyword ++
      " overrides it."
  | unknownProperty key => "Unknown style property " ++ code key ++ "; it is ignored."
  | invalidValue key numeric kind =>
    code key ++ " takes " ++ (if numeric then "a number" else "a color or name") ++ ", not a " ++
      kind ++ "; it is ignored."

end Finding

/-- A finding and where it was made. -/
structure Diagnosis where
  finding : Finding
  span : Span
  deriving DecidableEq, Repr

/-- The finding about one property, if there is one. -/
def property? (p : Property) : Option Diagnosis :=
  match StyleKey.isNumeric? p.key.value with
  | none => some ⟨.unknownProperty p.key.value, p.key.span⟩
  | some numeric =>
    let fits :=
      match p.value.value with
      | .number _ => numeric
      | .color _ | .name _ => !numeric
    if fits then none
    else some ⟨.invalidValue p.key.value numeric p.value.value.kindName, p.value.span⟩

def properties (ps : List Property) : List Diagnosis := ps.filterMap property?

def propertyList (ps : Option PropertyList) : List Diagnosis :=
  match ps with
  | some ps => properties ps.items
  | none => []

/-- The first shape that was given to each node. -/
abbrev Shapes := List (String × NodeShape)

/-- The findings about one node reference. -/
def nodeRef (shapes : Shapes) (n : NodeRef) : List Diagnosis × Shapes :=
  match n.shape with
  | none => ([], shapes)
  | some spec =>
    let found := properties spec.properties
    match shapes.lookup n.id with
    | none => (found, shapes ++ [(n.id, spec.shape)])
    | some first =>
      if first = spec.shape then (found, shapes)
      else (found ++ [⟨.conflictingShape n.id first spec.shape, spec.keyword.span⟩], shapes)

def nodeRefs (shapes : Shapes) : List NodeRef → List Diagnosis × Shapes
  | [] => ([], shapes)
  | n :: ns =>
    let (first, shapes) := nodeRef shapes n
    let (more, shapes) := nodeRefs shapes ns
    (first ++ more, shapes)

/-- The findings about the links of a chain, which starts at a node. -/
def links (source : NodeRef) : List Link → List Diagnosis
  | [] => []
  | l :: ls =>
    (if l.target.id = source.id then
      [⟨.selfLoop source.id, source.name.span.merge l.target.name.span⟩]
    else []) ++ propertyList l.anchor ++ links l.target ls

/-- The findings about a statement, those inside a group apart. -/
def statement (shapes : Shapes) : Syntax.Statement → List Diagnosis × Shapes
  | .group _ _ style _ _ => (propertyList style, shapes)
  | .layout _ name =>
    (if (Algorithm.ofName? name.value).isNone then [⟨.unknownLayout name.value, name.span⟩] else [],
      shapes)
  | .freeArrow _ ps => (properties ps.items, shapes)
  | .chain c =>
    let (found, shapes) := nodeRefs shapes c.refs
    (found ++ links c.head c.links, shapes)

/-- The findings about some statements, in the order in which they are made. -/
def statements (shapes : Shapes) : List Syntax.Statement → List Diagnosis
  | [] => []
  | s :: ss =>
    let (first, shapes) := statement shapes s
    first ++ statements shapes ss

/-- The findings about a tree, in source order. -/
def ofTree (tree : List Syntax.Statement) : List Diagnosis :=
  (statements [] (Syntax.Statement.flattenAll tree)).mergeSort
    (fun a b => a.span.start ≤ b.span.start)

def ofText (text : String) : List Diagnosis := ofTree (parse text).1

end Diagram.Lint
