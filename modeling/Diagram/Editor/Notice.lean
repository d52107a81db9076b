import Diagram.Editor.LineMap
import Diagram.Lint

/-!
# Notices

What an editor marks in a text: every message of the parser as an error, and every
finding as a warning or a remark, with the name of its rule.
-/

namespace Diagram.Editor

/-- How much a notice matters. -/
inductive Level where
  | error
  | warning
  | information
  deriving DecidableEq, Repr

/-- A mark on a stretch of text. -/
structure Notice where
  range : Range
  level : Level
  message : String
  /-- The name of the rule that was broken. -/
  rule : Option String := none
  deriving DecidableEq, Repr

/-- The notice about a message of the parser. -/
def Notice.ofIssue (m : LineMap) (e : Issue) : Notice where
  range := m.range e.span
  level := .error
  message := e.message

def Notice.ofDiagnosis (m : LineMap) (d : Lint.Diagnosis) : Notice where
  range := m.range d.span
  level :=
    match d.finding.severity with
    | .warning => .warning
    | .info => .information
  message := d.finding.message
  rule := some d.finding.rule

/-- Every notice about a text, messages before findings. -/
def notices (text : String) : List Notice :=
  let m := LineMap.ofText text
  let (tree, issues) := Syntax.parse text
  issues.map (Notice.ofIssue m) ++ (Lint.ofTree tree).map (Notice.ofDiagnosis m)

end Diagram.Editor
