import Diagram.Drawing.Compile
import Diagram.Editor.Completion
import Diagram.Layout.Arrange
import Diagram.Number.Decimal

/-!
# What is under the cursor

For the name of a node an editor shows what the document knows about it, how many
edges it has, and where it is drawn.  For a word of the language it shows what the
word means.
-/

namespace Diagram.Editor

/-- A character of a word: of a name, of a dotted name or of a directive. -/
def isWordChar (c : Char) : Bool := isAlphanumeric c || c = '_' || c = '.' || c = '@'

/-- The word around a place between two characters, and nothing where there is
none. -/
def wordAt (text : List Char) (offset : Nat) : String :=
  let before := ((text.take offset).reverse.takeWhile isWordChar).reverse
  let behind := (text.drop offset).takeWhile isWordChar
  String.ofList (before ++ behind)

/-- Width and height as they are shown. -/
def sizeText (w h : String) : String := w ++ "×" ++ h

def codeText (s : String) : String := "\x60" ++ s ++ "\x60"

def boldText (s : String) : String := "**" ++ s ++ "**"

/-- Paragraphs, with empty lines between them. -/
def paragraphs (ps : List String) : String := "\n\n".intercalate ps

/-- Where a document draws its `i`th node. -/
def drawnAt? (d : Document Float) (o : Options Float) (i : Nat) : Option (Float × Float) :=
  match d.compile builtinEngine (fun _ => default) o with
  | .ok shapes => shapes[i]?.map (fun s => (s.x, s.y))
  | .error _ => none

def describeNode (d : Document Float) (o : Options Float) (i : Nat) (n : Node Float) : String :=
  let (w, h) := n.size
  let title := boldText n.shapeOrDefault.keyword ++ " " ++ codeText n.id ++ " — " ++
    sizeText (Decimal.plain w) (Decimal.plain h)
  let label := n.label.map (fun l => "Label: \"" ++ l ++ "\"")
  let entries := n.style.entries
  let style :=
    if entries.isEmpty then none
    else some ("Style: " ++ " ".intercalate (entries.map (fun e => codeText (e.1 ++ ": " ++ e.2))))
  let outgoing := (d.edges.filter (fun e => e.source == n.id)).length
  let incoming := (d.edges.filter (fun e => e.target == n.id)).length
  let edges := "Edges: " ++ toString outgoing ++ " out, " ++ toString incoming ++ " in"
  let position := (drawnAt? d o i).map (fun (x, y) =>
    "Position: (" ++ Decimal.fixed 0 x ++ ", " ++ Decimal.fixed 0 y ++ ")")
  paragraphs ([title] ++ label.toList ++ style.toList ++ [edges] ++ position.toList)

/-- What is shown for the name of a node. -/
def hoverNode? (d : Document Float) (o : Options Float) (word : String) : Option String :=
  match d.nodes.zipIdx.find? (fun n => n.1.id == word) with
  | some (n, i) => some (describeNode d o i n)
  | none => none

/-- How a shape is drawn. -/
def drawnAs : NodeShape → String
  | .rect => "a rectangle with rounded corners"
  | .circle => "an ellipse"
  | .diamond => "a square-cornered rectangle"
  | .cylinder => "a rectangle with large rounded corners"

def hoverShape (s : NodeShape) : String :=
  let (w, h) := s.defaultSize
  paragraphs
    [boldText s.keyword ++ " — node shape, default size " ++ sizeText (toString w) (toString h) ++
      ".", "Drawn as " ++ drawnAs s ++ "."]

def hoverAlgorithm (a : Algorithm) : String :=
  paragraphs [boldText a.name ++ " — layout algorithm.", a.description]

/-- What is shown for a keyword. -/
def hoverKeyword? (word : String) : Option String :=
  match word with
  | "group" =>
    some (paragraphs ["**group** — Named container for statements.",
      "Format: " ++ codeText "group name(style) \x7b ... \x7d"])
  | "arrow" =>
    some (paragraphs ["**arrow** — Free arrow at fixed coordinates.",
      "Format: " ++ codeText "arrow(x1: 0, y1: 0, x2: 100, y2: 0)"])
  | "@layout" =>
    some (paragraphs ["**@layout** — Layout algorithm for automatic positioning.",
      "Values: " ++ ", ".intercalate (Algorithm.all.map (fun a => codeText a.name))])
  | _ => none

/-- What is shown for a word of the language. -/
def hoverWord? (word : String) : Option String :=
  (NodeShape.ofKeyword? word).map hoverShape
    <|> (Algorithm.ofName? word).map hoverAlgorithm
    <|> (Diagram.StyleKey.ofName? word).map
      (fun k => boldText (word ++ ":") ++ " — " ++ StyleKey.detail k)
    <|> hoverKeyword? word

/-- What is shown at a place of a text, given the document that was last read from
it. -/
def hover? (text : String) (p : Place) (d : Option (Document Float)) (o : Options Float) :
    Option String :=
  let word := wordAt text.toList ((LineMap.ofText text).charOffset p)
  if word.isEmpty then none
  else d.bind (fun d => hoverNode? d o word) <|> hoverWord? word

end Diagram.Editor
