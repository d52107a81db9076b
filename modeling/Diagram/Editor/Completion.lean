import Diagram.Document.Style
import Diagram.Editor.LineMap
import Diagram.Layout.Options
import Diagram.Syntax.Parser
import Diagram.Text.Alphanumeric

/-!
# Completions

What an editor offers at a place depends on the text of the line before it: on the
parenthesis that is still open, on the comma and the colon behind that, and on a
layout directive at the start of the line.
-/

namespace Diagram.Editor

/-- What a line is waiting for. -/
inductive Context where
  /-- A statement, or the target of an edge. -/
  | statement
  /-- The name of a layout algorithm. -/
  | algorithm
  /-- A shape keyword, right behind an opening parenthesis. -/
  | shapeKeyword
  /-- The key of a property. -/
  | styleKey
  /-- The value of the property with the given key. -/
  | styleValue (key : String)
  deriving DecidableEq, Repr

/-- Whether a line is a layout directive, at least up to its colon. -/
def isLayoutLine (line : List Char) : Bool :=
  let line := line.dropWhile isBlank
  let directive := "@layout".toList
  directive.isPrefixOf line &&
    ((line.drop directive.length).dropWhile isBlank).head? = some ':'

/-- The text before the innermost open parenthesis of a line, and the text behind
it. -/
def openParen? (line : List Char) : Option (List Char × List Char) :=
  let inside := (line.reverse.takeWhile (fun c => c ≠ '(' && c ≠ ')')).reverse
  let before := line.take (line.length - inside.length)
  if before.getLast? = some '(' then some (before.dropLast, inside) else none

/-- Whether a text ends with the keyword of a free arrow. -/
def endsWithArrow (text : List Char) : Bool :=
  let reversed := text.reverse.dropWhile isBlank
  let keyword := "arrow".toList.reverse
  keyword.isPrefixOf reversed &&
    !(reversed.drop keyword.length).head?.any (fun c => isAlphanumeric c || c = '_')

/-- What a line is waiting for. -/
def classify (line : List Char) : Context :=
  if isLayoutLine line then .algorithm
  else
    match openParen? line with
    | none => .statement
    | some (owner, inside) =>
      let segment := (inside.reverse.takeWhile (· ≠ ',')).reverse
      if segment.contains ':' then
        .styleValue (String.ofList (trimBlank (segment.takeWhile (· ≠ ':'))))
      else if inside.contains ',' || endsWithArrow owner then .styleKey
      else .shapeKeyword

/-! ## What is offered -/

/-- What kind of thing is offered. -/
inductive ItemKind where
  | keyword
  | node
  | member
  | property
  | color
  deriving DecidableEq, Repr

/-- One thing that is offered. -/
structure Item where
  label : String
  kind : ItemKind
  detail : String
  /-- What is inserted, if not the label. -/
  insert : Option String := none
  /-- Whether the inserted text has places to fill in. -/
  isSnippet : Bool := false
  deriving DecidableEq, Repr

/-- What can start a statement. -/
def keywordItems : List Item :=
  let item (label detail snippet : String) : Item := ⟨label, .keyword, detail, some snippet, true⟩
  [item "group" "Named container for statements" "group $\x7b1:name\x7d \x7b\n  $0\n\x7d",
    item "arrow" "Free arrow at fixed coordinates"
      "arrow(x1: $\x7b1:0\x7d, y1: $\x7b2:0\x7d, x2: $\x7b3:100\x7d, y2: $\x7b4:0\x7d)",
    item "@layout" "Layout algorithm for the document"
      "@layout: $\x7b1|layered,force,stress,radial,box|\x7d"]

/-- A sorted list with one more member, which stands there once. -/
def insertSorted (x : String) : List String → List String
  | [] => [x]
  | y :: ys => if x < y then x :: y :: ys else if x = y then y :: ys else y :: insertSorted x ys

/-- The names of all nodes that a tree mentions, in order and each once. -/
def mentionedNodes (tree : List Syntax.Statement) : List String :=
  ((Syntax.nodeRefs tree).map Syntax.NodeRef.id).foldr insertSorted []

def nodeItems (text : String) : List Item :=
  (mentionedNodes (Syntax.parse text).1).map (fun id => ⟨id, .node, "node", none, false⟩)

def shapeItems : List Item :=
  NodeShape.keywords.map (fun (keyword, shape) =>
    let (w, h) := shape.defaultSize
    let detail :=
      if shape.keyword = keyword then
        keyword ++ " (" ++ toString w ++ "×" ++ toString h ++ ")"
      else "alias of " ++ shape.keyword
    ⟨keyword, .member, detail, none, false⟩)

/-- What a property does. -/
def StyleKey.detail : StyleKey → String
  | .number .x | .number .y => "Top-left position; set on every node to skip automatic layout"
  | .number .width | .number .height => "Size in canvas units"
  | .number .x1 | .number .y1 => "Start point override"
  | .number .x2 | .number .y2 => "End point override"
  | .number .strokeWidth => "Stroke width"
  | .text .fill => "Fill color"
  | .text .stroke => "Stroke color"

def keyItems : List Item :=
  Diagram.StyleKey.names.map (fun (name, key) =>
    ⟨name, .property, StyleKey.detail key, some (name ++ ": "), false⟩)

def algorithmItems : List Item :=
  Algorithm.all.map (fun a => ⟨a.name, .member, a.description, none, false⟩)

/-- The colours that are offered. -/
def palette : List (String × String) :=
  [("#6C5CE7", "Purple"), ("#3B82F6", "Blue"), ("#22C55E", "Green"), ("#F59E0B", "Amber"),
    ("#FF6B6B", "Red-ish"), ("#333333", "Dark gray"), ("#FFFFFF", "White"), ("red", "Named: red"),
    ("blue", "Named: blue"), ("green", "Named: green"), ("black", "Named: black"),
    ("white", "Named: white"), ("transparent", "No paint")]

/-- The values of a property: colours, where it takes them. -/
def valueItems (key : String) : List Item :=
  match Diagram.StyleKey.ofName? key with
  | some (.text _) => palette.map (fun (value, name) => ⟨value, .color, name, none, false⟩)
  | _ => []

/-- What is offered at a place of a text. -/
def completions (text : String) (p : Place) : List Item :=
  match classify ((LineMap.ofText text).linePrefix p) with
  | .algorithm => algorithmItems
  | .shapeKeyword => shapeItems
  | .styleKey => keyItems
  | .styleValue key => valueItems key
  | .statement => keywordItems ++ nodeItems text

end Diagram.Editor
