import Diagram.Editor.Notice
import Diagram.Editor.Session
import Diagram.Layout.Codec

/-!
# Editor messages as JSON

The notices, symbols, completions and edits of a session in the form of the Language
Server Protocol, where kinds and severities are numbers.
-/

namespace Diagram.Editor

def countJson (n : Nat) : Json := .int n

def Place.toJson (p : Place) : Json :=
  .object [("line", countJson p.line), ("character", countJson p.unit)]

def Range.toJson (r : Range) : Json := .object [("start", r.start.toJson), ("end", r.stop.toJson)]

/-- The number of a severity. -/
def Level.number : Level → Nat
  | .error => 1
  | .warning => 2
  | .information => 3

/-- The name under which notices are published. -/
def noticeSource : String := "sketch"

def Notice.toJson (n : Notice) : Json :=
  .object ([("range", n.range.toJson), ("severity", countJson n.level.number)] ++
    Record.fieldIfSet "code" .string n.rule ++
    [("source", .string noticeSource), ("message", .string n.message)])

def noticesToJson (ns : List Notice) : Json := .array (ns.map Notice.toJson)

/-- The number of a kind of symbols. -/
def SymbolKind.number : SymbolKind → Nat
  | .group => 3
  | .layout => 7
  | .node => 19
  | .arrow => 25

/-- The fields of an outline entry. -/
def SymbolInfo.toRecord (i : SymbolInfo) : Record :=
  [("name", .string i.name)] ++ Record.fieldIfSet "detail" .string i.detail ++
    [("kind", countJson i.kind.number), ("range", i.range.toJson),
      ("selectionRange", i.selection.toJson)]

mutual

def OutlineItem.toJson : OutlineItem → Json
  | .leaf i => .object i.toRecord
  | .group i children => .object (i.toRecord ++ [("children", .array (outlineToJson children))])

def outlineToJson : List OutlineItem → List Json
  | [] => []
  | s :: ss => OutlineItem.toJson s :: outlineToJson ss

end

/-- The number of a kind of completions. -/
def ItemKind.number : ItemKind → Nat
  | .keyword => 14
  | .node => 6
  | .member => 20
  | .property => 10
  | .color => 16

def Item.toJson (i : Item) : Json :=
  .object ([("label", .string i.label), ("kind", countJson i.kind.number),
      ("detail", .string i.detail)] ++
    Record.fieldIfSet "insertText" .string i.insert ++
    (if i.isSnippet then [("insertTextFormat", countJson 2)] else []))

def hoverToJson (text : String) : Json :=
  .object [("contents", .object [("kind", .string "markdown"), ("value", .string text)])]

def TextEdit.toJson (e : TextEdit) : Json :=
  .object [("range", e.range.toJson), ("newText", .string e.newText)]

/-- The name and the version of the server. -/
def serverName : String := "sketch-lsp"

def serverVersion : String := "0.1.0"

/-- What the server can do. -/
def capabilities : Json :=
  .object [
    ("capabilities", .object [
      ("textDocumentSync", countJson 1),
      ("hoverProvider", .bool true),
      ("completionProvider", .object [
        ("triggerCharacters", .array ([":", "(", ",", "@"].map .string))]),
      ("documentSymbolProvider", .bool true),
      ("documentFormattingProvider", .bool true)]),
    ("serverInfo", .object [
      ("name", .string serverName), ("version", .string serverVersion)])]

/-- A session with the options that an editor gives at its start; options that
cannot be read are passed over. -/
def Session.start (options : Option Json) : Session :=
  { options := (options.bind Options.ofJson?).getD .default }

end Diagram.Editor
