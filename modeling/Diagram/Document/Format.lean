import Diagram.Document.Merge
import Diagram.Document.Render

/-!
# Formatting

A text without errors is replaced by the text of its document.  The comment lines
before the first statement are kept as a header; other comments are not part of a
document and do not survive.
-/

namespace Diagram

/-- The lines of a text, cut at each line feed. -/
def linesOf : List Char → List (List Char)
  | [] => [[]]
  | c :: cs =>
    if c = '\n' then [] :: linesOf cs
    else
      match linesOf cs with
      | [] => [[c]]
      | l :: ls => (c :: l) :: ls

/-- The comment lines at the start of a text, without the white space around them.
Blank lines between them are dropped. -/
def headerLines (text : String) : List (List Char) :=
  -- filtered first, so an empty line does not end the header
  (((linesOf text.toList).map trimBlank).filter (fun l => !l.isEmpty)).takeWhile
    (fun l => l.head? = some '#')

/-- The header of a text. -/
def header (text : String) : String :=
  String.ofList ((headerLines text).flatMap (fun l => l ++ ['\n']))

variable (α : Type) [Scalar α]

/-- The canonical text of a text, or the messages about it. -/
def format (text : String) : Except (List ParseError) String :=
  let document : Document α := Document.ofText text
  if document.isOk then
    let top := header text
    let body := document.render
    .ok (top ++ (if top.isEmpty || body.isEmpty then "" else "\n") ++ body)
  else .error document.errors

end Diagram
