import Diagram.Document.Format
import Diagram.Editor.Hover
import Diagram.Editor.Outline

/-!
# Editing sessions

A session keeps, for every text that is open, its current contents and the document
of the last contents that had no errors.  Everything an editor asks about a text is
computed from these two.
-/

namespace Diagram.Editor

/-- A text that is open. -/
structure OpenText where
  text : String
  /-- The document of the last contents without errors. -/
  lastGood : Option (Document Float)

/-- The texts that are open, by their names, and the options of the drawings. -/
structure Session where
  options : Options Float := .default
  texts : List (String × OpenText) := []

/-- The replacement of a range. -/
structure TextEdit where
  range : Range
  newText : String
  deriving DecidableEq, Repr

/-- What an editor tells about a text. -/
inductive Notification where
  | opened (uri text : String)
  /-- The whole contents change, perhaps several times at once. -/
  | changed (uri : String) (texts : List String)
  | closed (uri : String)
  deriving DecidableEq, Repr

/-- What is kept of a text after its contents have changed. -/
def OpenText.update (previous : Option OpenText) (text : String) : OpenText :=
  let d : Document Float := Document.ofText text
  ⟨text, if d.isOk then some d else previous.bind OpenText.lastGood⟩

namespace Session

def find? (s : Session) (uri : String) : Option OpenText := s.texts.lookup uri

def change (s : Session) (uri text : String) : Session :=
  let others := s.texts.filter (fun t => t.1 != uri)
  { s with texts := (uri, OpenText.update (s.find? uri) text) :: others }

/-- The contents of a text change several times; only the last counts. -/
def changeAll (s : Session) (uri : String) (texts : List String) : Session :=
  match texts.getLast? with
  | some text => s.change uri text
  | none => s

def close (s : Session) (uri : String) : Session :=
  { s with texts := s.texts.filter (fun t => t.1 != uri) }

/-- The session after a notification. -/
def receive (s : Session) : Notification → Session
  | .opened uri text => s.change uri text
  | .changed uri texts => s.changeAll uri texts
  | .closed uri => s.close uri

/-- The session after some notifications, in order. -/
def receiveAll (s : Session) (ns : List Notification) : Session := ns.foldl receive s

/-- What is offered at a place; nothing in a text that is not open. -/
def completions (s : Session) (uri : String) (p : Place) : List Item :=
  match s.find? uri with
  | some t => Editor.completions t.text p
  | none => []

/-- What is shown at a place. -/
def hover? (s : Session) (uri : String) (p : Place) : Option String :=
  (s.find? uri).bind (fun t => Editor.hover? t.text p t.lastGood s.options)

/-- The outline of a text; empty for a text that is not open. -/
def outline (s : Session) (uri : String) : List OutlineItem :=
  match s.find? uri with
  | some t => Editor.outline t.text
  | none => []

/-- The edits that format a text: none when it is formatted, else one over all of
it.  A text with errors, or one that is not open, is not formatted. -/
def formatEdits? (s : Session) (uri : String) : Option (List TextEdit) :=
  match s.find? uri with
  | none => none
  | some t =>
    match format Float t.text with
    | .error _ => none
    | .ok formatted =>
      if formatted = t.text then some []
      else some [⟨(LineMap.ofText t.text).fullRange, formatted⟩]

end Session

end Diagram.Editor
