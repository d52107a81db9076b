import Diagram.Canvas.Codec
import Diagram.CommandLine.Request
import Diagram.Document.Format
import Diagram.Drawing.Compile
import Diagram.Drawing.Infer
import Diagram.Editor.Codec
import Diagram.Json.Reader
import Diagram.Json.Writer
import Diagram.Layout.Arrange
import Diagram.Lint

/-!
# What a command prints

A command is a function from the contents of its input to what it writes to the two
outputs and its exit code.  A command that fails says why in one line behind the name
of the program; the errors of a text stand above that line, one in a line.
-/

namespace Diagram.CommandLine

/-! ## Inputs -/

/-- Why an input could not be read. -/
inductive ReadFailure where
  /-- The system refused, with a reason and its number. -/
  | refused (reason : String) (number : Nat)
  /-- The bytes are not the encoding of a text. -/
  | notText
  deriving DecidableEq, Repr

def ReadFailure.message : ReadFailure → String
  | refused reason number => reason ++ " (os error " ++ toString number ++ ")"
  | notText => "stream did not contain valid UTF-8"

/-- The reasons for which a system commonly refuses to read, by their numbers. -/
def refusalReasons : List (Nat × String) :=
  [(1, "Operation not permitted"), (2, "No such file or directory"), (5, "Input/output error"),
    (6, "No such device or address"), (9, "Bad file descriptor"),
    (11, "Resource temporarily unavailable"), (12, "Cannot allocate memory"),
    (13, "Permission denied"), (16, "Device or resource busy"), (19, "No such device"),
    (20, "Not a directory"), (21, "Is a directory"), (22, "Invalid argument"),
    (23, "Too many open files in system"), (24, "Too many open files"), (26, "Text file busy"),
    (27, "File too large"), (36, "File name too long"),
    (40, "Too many levels of symbolic links")]

/-- A refusal by its number; `reason` is what the system says if the number is not a
common one. -/
def ReadFailure.ofNumber (number : Nat) (reason : String) : ReadFailure :=
  .refused ((refusalReasons.lookup number).getD reason) number

/-- What was found where the input should be. -/
abbrev Contents := Except ReadFailure ByteArray

/-- The text of an input. -/
def Contents.text (c : Contents) : Except ReadFailure String :=
  match c with
  | .error e => .error e
  | .ok bytes =>
    match String.fromUTF8? bytes with
    | some text => .ok text
    | none => .error .notText

def inputName (file : Option String) : String := file.getD "<stdin>"

/-! ## Outcomes -/

/-- Why a command fails. -/
inductive Failure where
  | unread (input : String) (cause : ReadFailure)
  | errors (input : String) (count : Nat)
  | compile (cause : CompileError)
  | notShapes

def Failure.message : Failure → String
  | unread input cause => "failed to read " ++ input ++ ": " ++ cause.message
  | errors input count => input ++ ": " ++ toString count ++ " syntax error(s)"
  | compile cause => cause.message
  | notShapes => "invalid shape JSON: not an array of shapes"

/-- What a command leaves behind. -/
structure Outcome where
  exitCode : UInt8
  output : String
  errorOutput : String
  deriving DecidableEq, Repr

namespace Outcome

def success (output : String) : Outcome := ⟨0, output, ""⟩

/-- A command fails, having written something to the two outputs before. -/
def failure (output report : String) (f : Failure) : Outcome :=
  ⟨1, output, report ++ Editor.serverName ++ ": " ++ f.message ++ "\n"⟩

end Outcome

/-! ## Reports -/

/-- A line about a position of an input. -/
def lineAt (input : String) (p : Position) (text : String) : String :=
  input ++ ":" ++ p.text ++ ": " ++ text ++ "\n"

/-- The lines about the errors of a text.  An error without a place is shown at the
start. -/
def errorReport (input : String) (errors : List ParseError) : String :=
  String.join (errors.map (fun e =>
    lineAt input ((e.location.map Region.first).getD .first) ("error: " ++ e.message)))

/-- The word for a severity. -/
def severityName : Lint.Severity → String
  | .warning => "warning"
  | .info => "info"

/-- The lines about the findings in a text. -/
def findingReport (input text : String) : String :=
  String.join ((Lint.ofText text).map (fun l =>
    lineAt input l.span.first
      (severityName l.finding.severity ++ "[" ++ l.finding.rule ++ "]: " ++ l.finding.message)))

/-! ## Commands -/

/-- The errors and the findings of a text. -/
def check (input text : String) : Outcome :=
  let errors := (Document.ofText text : Document Float).errors
  let report := errorReport input errors ++ findingReport input text
  if errors.isEmpty then .success report
  else .failure report "" (.errors input errors.length)

/-- The failure of a text that has errors. -/
def refuse (input : String) (errors : List ParseError) : Outcome :=
  .failure "" (errorReport input errors) (.errors input errors.length)

/-- The canonical text of a text. -/
def reformat (input text : String) : Outcome :=
  match format Float text with
  | .ok canonical => .success canonical
  | .error errors => refuse input errors

/-- The shapes that a text describes, as an indented JSON array. -/
def draw (ids : Nat → ShapeId) (options : Options Float) (input text : String) : Outcome :=
  let d : Document Float := Document.ofText text
  if d.isOk then
    match d.compile builtinEngine ids options with
    | .ok shapes =>
      .success (Json.pretty Json.exactNumber 0 (.array (shapes.map Shape.toJson)) ++ "\n")
    | .error e => .failure "" "" (.compile e)
  else refuse input d.errors

/-- A text that describes the shapes of a JSON array. -/
def infer (positions : Bool) (text : String) : Outcome :=
  match (Json.parse? text).bind (Json.list? Shape.ofJson?) with
  | some shapes => .success (decompile positions shapes)
  | none => .failure "" "" .notShapes

/-- What a command does with a text.  The shapes that it draws are named by `ids`. -/
def Command.apply (ids : Nat → ShapeId) (input text : String) : Command → Outcome
  | check => CommandLine.check input text
  | format => reformat input text
  | compile options => draw ids options input text
  | decompile positions => infer positions text

/-- The outcome of a command on a file, or on the standard input when there is none. -/
def Command.outcome (ids : Nat → ShapeId) (file : Option String) (contents : Contents)
    (c : Command) : Outcome :=
  match contents.text with
  | .ok text => c.apply ids (inputName file) text
  | .error cause => .failure "" "" (.unread (inputName file) cause)

/-- The name and the version of the program. -/
def versionOutcome : Outcome :=
  .success (Editor.serverName ++ " " ++ Editor.serverVersion ++ "\n")

end Diagram.CommandLine
