import Diagram.Json.Basic
import Diagram.Number.Decimal

/-!
# Writing JSON

A value is written on one line, or spread over lines with an indentation of two
spaces.  Strings are quoted with the escapes that JSON asks for and no others.  What is
unreadable has no text of its own and is written as null.

This is how answers go out.  What they say is settled with the value that is written.
-/

namespace Diagram.Json

/-- A character inside a string. -/
def escapeChar (c : Char) : List Char :=
  if c = '"' then ['\\', '"']
  else if c = '\\' then ['\\', '\\']
  else if c = '\n' then ['\\', 'n']
  else if c = '\r' then ['\\', 'r']
  else if c = '\t' then ['\\', 't']
  else if c.toNat = 8 then ['\\', 'b']
  else if c.toNat = 12 then ['\\', 'f']
  else if c.toNat < 32 then ['\\', 'u', '0', '0', hexDigit (c.toNat / 16), hexDigit c.toNat]
  else [c]

def quote (s : String) : String :=
  String.ofList ('"' :: s.toList.flatMap escapeChar ++ ['"'])

/-- A number that keeps every digit it needs, and null for what is no number. -/
def exactNumber (x : Float) : String := (Decimal.scientific x).getD "null"

mutual

/-- A value on one line, its numbers written by `number`. -/
def compact (number : Float → String) : Json → String
  | null => "null"
  | bool b => if b then "true" else "false"
  | int n => toString n
  | float x => number x
  | string s => quote s
  | array items => "[" ++ compactItems number items ++ "]"
  | object entries => "\x7b" ++ compactEntries number entries ++ "\x7d"
  | unreadable => "null"

/-- Items separated by commas. -/
def compactItems (number : Float → String) : List Json → String
  | [] => ""
  | [v] => compact number v
  | v :: vs => compact number v ++ "," ++ compactItems number vs

/-- Entries separated by commas. -/
def compactEntries (number : Float → String) : List (String × Json) → String
  | [] => ""
  | [(k, v)] => quote k ++ ":" ++ compact number v
  | (k, v) :: es => quote k ++ ":" ++ compact number v ++ "," ++ compactEntries number es

end

/-- A new line, indented by `depth` steps. -/
def newLine (depth : Nat) : String := String.ofList ('\n' :: List.replicate (2 * depth) ' ')

mutual

/-- A value spread over lines, `depth` steps deep. -/
def pretty (number : Float → String) (depth : Nat) : Json → String
  | null => "null"
  | bool b => if b then "true" else "false"
  | int n => toString n
  | float x => number x
  | string s => quote s
  | array [] => "[]"
  | array items => "[" ++ prettyItems number (depth + 1) items ++ newLine depth ++ "]"
  | object [] => "\x7b\x7d"
  | object entries =>
    "\x7b" ++ prettyEntries number (depth + 1) entries ++ newLine depth ++ "\x7d"
  | unreadable => "null"

/-- Items, each on its line. -/
def prettyItems (number : Float → String) (depth : Nat) : List Json → String
  | [] => ""
  | [v] => newLine depth ++ pretty number depth v
  | v :: vs => newLine depth ++ pretty number depth v ++ "," ++ prettyItems number depth vs

/-- Entries, each on its line. -/
def prettyEntries (number : Float → String) (depth : Nat) : List (String × Json) → String
  | [] => ""
  | [(k, v)] => newLine depth ++ quote k ++ ": " ++ pretty number depth v
  | (k, v) :: es =>
    newLine depth ++ quote k ++ ": " ++ pretty number depth v ++ "," ++
      prettyEntries number depth es

end

end Diagram.Json
