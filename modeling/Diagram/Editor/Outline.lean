import Diagram.Editor.LineMap
import Diagram.Syntax.Parser

/-!
# Outlines

The symbols that an editor lists for a text.  A node is listed where it is first
mentioned, an edge wherever it is drawn, and a group with what is inside it.
Whatever could be read of a text with errors is listed.
-/

namespace Diagram.Editor

open Syntax (NodeRef Link Chain)

/-- What a symbol stands for. -/
inductive SymbolKind where
  | group
  | layout
  | node
  | arrow
  deriving DecidableEq, Repr

/-- An entry of an outline. -/
structure SymbolInfo where
  name : String
  kind : SymbolKind
  detail : Option String
  range : Range
  /-- The part of the range that is selected when the entry is chosen. -/
  selection : Range
  deriving DecidableEq, Repr

/-- An entry of an outline and, for a group, the entries inside it. -/
inductive OutlineItem where
  | leaf (info : SymbolInfo)
  | group (info : SymbolInfo) (children : List OutlineItem)
  deriving Repr

def OutlineItem.info : OutlineItem → SymbolInfo
  | leaf i => i
  | group i _ => i

/-- The entries of the nodes that are mentioned here first, and the names that have
been mentioned. -/
def nodeSymbols (m : LineMap) (seen : List String) : List NodeRef → List OutlineItem × List String
  | [] => ([], seen)
  | n :: ns =>
    if seen.contains n.id then nodeSymbols m seen ns
    else
      let range := m.range n.name.span
      let detail := n.shape.map (fun s => s.shape.keyword)
      let (more, seen) := nodeSymbols m (seen ++ [n.id]) ns
      (.leaf ⟨n.id, .node, detail, range, range⟩ :: more, seen)

/-- The entries of the links of a chain, which starts at a node. -/
def linkSymbols (m : LineMap) (source : NodeRef) : List Link → List OutlineItem
  | [] => []
  | l :: ls =>
    let name := source.id ++ " " ++ l.arrow.value.symbol ++ " " ++ l.target.id
    let span := source.name.span.merge l.target.name.span
    .leaf ⟨name, .arrow, l.label.map Syntax.Located.value, m.range span, m.range l.arrow.span⟩ ::
      linkSymbols m l.target ls

mutual

/-- The entries of a statement, and the names that have been mentioned. -/
def statementSymbols (m : LineMap) (seen : List String) :
    Syntax.Statement → List OutlineItem × List String
  | .group keyword id _ body close =>
    let (children, seen) := outlineItems m seen body
    let info : SymbolInfo :=
      ⟨"group " ++ id.value, .group, none, m.range (keyword.merge close), m.range id.span⟩
    ([.group info children], seen)
  | .layout keyword name =>
    ([.leaf ⟨"@layout", .layout, some name.value, m.range (keyword.merge name.span),
      m.range name.span⟩], seen)
  | .freeArrow keyword ps =>
    let range := m.range (keyword.merge ps.close)
    ([.leaf ⟨"arrow", .arrow, none, range, range⟩], seen)
  | .chain c =>
    let (nodes, seen) := nodeSymbols m seen c.refs
    (nodes ++ linkSymbols m c.head c.links, seen)

/-- The entries of some statements, and the names that have been mentioned. -/
def outlineItems (m : LineMap) (seen : List String) :
    List Syntax.Statement → List OutlineItem × List String
  | [] => ([], seen)
  | s :: ss =>
    let (first, seen) := statementSymbols m seen s
    let (more, seen) := outlineItems m seen ss
    (first ++ more, seen)

end

def outline (text : String) : List OutlineItem :=
  (outlineItems (LineMap.ofText text) [] (Syntax.parse text).1).1

end Diagram.Editor
