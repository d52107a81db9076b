import Diagram.Layout.Options
import Diagram.Number.Binary
import Diagram.Number.Numeral

/-!
# Reading a command line

The first argument names a command, the others are its file and its settings.  A
setting that the arguments leave out is taken from the environment, and one that is
in neither has its default.  Every word has to be understood: whatever is unknown,
comes twice or has a value that cannot be read makes the whole line a misuse.
-/

namespace Diagram.CommandLine

/-- What is to be done with a text. -/
inductive Command where
  /-- Lists the errors and the findings. -/
  | check
  /-- Prints the canonical text. -/
  | format
  /-- Prints the shapes that the text describes. -/
  | compile (options : Options Float)
  /-- Prints a text that describes the shapes given. -/
  | decompile (positions : Bool)
  deriving DecidableEq, Repr

/-- What a command line asks for. -/
inductive Request where
  /-- The name and the version of the program. -/
  | version
  /-- A command on a file, or on the standard input when no file is named. -/
  | run (command : Command) (file : Option String)
  deriving DecidableEq, Repr

/-- What can be wrong with a command line. -/
inductive Misuse where
  | noCommand
  | unknownCommand (word : String)
  | unexpectedWord (word : String)
  | missingValue (flag : String)
  | unexpectedValue (flag : String)
  | repeated (flag : String)
  | unreadable (flag value : String)
  deriving DecidableEq, Repr

def Misuse.message : Misuse → String
  | noCommand => "no command is given"
  | unknownCommand word => "there is no command \x60" ++ word ++ "\x60"
  | unexpectedWord word => "unexpected argument \x60" ++ word ++ "\x60"
  | missingValue flag => "\x60" ++ flag ++ "\x60 needs a value"
  | unexpectedValue flag => "\x60" ++ flag ++ "\x60 takes no value"
  | repeated flag => "\x60" ++ flag ++ "\x60 is given twice"
  | unreadable flag value => "\x60" ++ value ++ "\x60 is no value for \x60" ++ flag ++ "\x60"

/-! ## Settings -/

/-- What can be set for a command. -/
inductive Setting where
  | algorithm
  | direction
  | nodeSpacing
  | edgeSpacing
  | positions
  deriving DecidableEq, Repr

namespace Setting

def all : List Setting := [algorithm, direction, nodeSpacing, edgeSpacing, positions]

def ofDrawing : List Setting := [algorithm, direction, nodeSpacing, edgeSpacing]

/-- The word that announces a setting. -/
def flag : Setting → String
  | algorithm => "--algorithm"
  | direction => "--direction"
  | nodeSpacing => "--node-spacing"
  | edgeSpacing => "--edge-spacing"
  | positions => "--positions"

/-- The variable of the environment that stands in for a setting. -/
def variableName : Setting → String
  | algorithm => "SKETCH_ALGORITHM"
  | direction => "SKETCH_DIRECTION"
  | nodeSpacing => "SKETCH_NODE_SPACING"
  | edgeSpacing => "SKETCH_EDGE_SPACING"
  | positions => "SKETCH_POSITIONS"

/-- Whether a setting is switched on by its flag alone. -/
def isSwitch (s : Setting) : Bool := s = positions

end Setting

/-! ## The words of a command -/

/-- The file and the settings that are among the arguments of a command. -/
structure Arguments where
  file : Option String := none
  values : List (Setting × String) := []
  deriving DecidableEq, Repr

namespace Arguments

/-- Takes a word as the file.  A file has a name, and there is one at most. -/
def withFile (a : Arguments) (word : String) : Except Misuse Arguments :=
  if word = "" ∨ a.file.isSome then .error (.unexpectedWord word)
  else .ok { a with file := some word }

/-- Takes a value for a setting, which has none yet. -/
def withValue (a : Arguments) (s : Setting) (value : String) : Except Misuse Arguments :=
  if (a.values.lookup s).isSome then .error (.repeated s.flag)
  else .ok { a with values := (s, value) :: a.values }

/-- Whether a word announces something, and is neither a file nor a value.  A hyphen
alone announces nothing. -/
def isFlag (word : String) : Bool :=
  match word.toList with
  | '-' :: _ :: _ => true
  | _ => false

/-- A flag and the value attached to it with an equals sign. -/
def splitFlag (word : String) : String × Option String :=
  let s := word.toList
  match s.dropWhile (· ≠ '=') with
  | _ :: value => (String.ofList (s.takeWhile (· ≠ '=')), some (String.ofList value))
  | [] => (word, none)

/-- Reads the arguments of a command that has the settings `allowed`.  Behind two
hyphens every word is a file. -/
def read (allowed : List Setting) (a : Arguments) : List String → Except Misuse Arguments
  | [] => .ok a
  | word :: rest =>
    if word = "--" then rest.foldlM withFile a
    else if isFlag word then
      let (flag, attached) := splitFlag word
      match allowed.find? (fun s => s.flag = flag) with
      | none => .error (.unexpectedWord word)
      | some s =>
        if s.isSwitch then
          match attached with
          | some _ => .error (.unexpectedValue flag)
          | none => do read allowed (← a.withValue s "true") rest
        else
          match attached, rest with
          | some value, rest => do read allowed (← a.withValue s value) rest
          | none, value :: rest =>
            if isFlag value then .error (.missingValue flag)
            else do read allowed (← a.withValue s value) rest
          | none, [] => .error (.missingValue flag)
    else do read allowed (← a.withFile word) rest

/-- The value of a setting: of its flag, or else of its variable. -/
def value? (a : Arguments) (environment : List (String × String)) (s : Setting) :
    Option String :=
  (a.values.lookup s).or (environment.lookup s.variableName)

end Arguments

/-! ## The values of settings -/

/-- The value of a setting in the form that `read?` reads, or its default. -/
def Setting.valueOr {β : Type} (s : Setting) (default : β) (read? : String → Option β)
    (text : Option String) : Except Misuse β :=
  match text with
  | none => .ok default
  | some text =>
    match read? text with
    | some value => .ok value
    | none => .error (.unreadable s.flag text)

/-- A switch is on or off. -/
def switch? (text : String) : Option Bool :=
  if text = "true" then some true
  else if text = "false" then some false
  else none

/-- The options of a drawing. -/
def readOptions (text : Setting → Option String) : Except Misuse (Options Float) := do
  let d : Options Float := .default
  let algorithm ← Setting.algorithm.valueOr d.algorithm Algorithm.ofName? (text .algorithm)
  let direction ← Setting.direction.valueOr d.direction Direction.ofName? (text .direction)
  let nodeSpacing ← Setting.nodeSpacing.valueOr d.nodeSpacing Decimal.read? (text .nodeSpacing)
  let edgeSpacing ← Setting.edgeSpacing.valueOr d.edgeSpacing Decimal.read? (text .edgeSpacing)
  return { algorithm, direction, nodeSpacing, edgeSpacing }

/-! ## Requests -/

/-- The settings of the command with a given name. -/
def settingsOf? : String → Option (List Setting)
  | "check" | "format" => some []
  | "compile" => some Setting.ofDrawing
  | "decompile" => some [.positions]
  | _ => none

/-- The command with a given name and given settings. -/
def Command.ofName (name : String) (text : Setting → Option String) : Except Misuse Command :=
  match name with
  | "check" => .ok .check
  | "format" => .ok .format
  | "compile" => (readOptions text).map .compile
  | "decompile" => (Setting.positions.valueOr false switch? (text .positions)).map .decompile
  | _ => .error (.unknownCommand name)

/-- Whether a word asks for the version.  The short form may have letters behind it,
which are not looked at. -/
def asksForVersion (word : String) : Bool :=
  word = "--version" ||
    match word.toList with
    | '-' :: 'V' :: _ => true
    | _ => false

/-- The request that a command line states, in an environment of variables and their
values.  A version that is asked for first is all that is asked for. -/
def Request.read (environment : List (String × String)) :
    List String → Except Misuse Request
  | [] => .error .noCommand
  | name :: rest =>
    if asksForVersion name then .ok .version
    else
      match settingsOf? name with
      | none => .error (.unknownCommand name)
      | some allowed => do
        let a ← Arguments.read allowed {} rest
        return .run (← Command.ofName name (a.value? environment)) a.file

end Diagram.CommandLine
