import Diagram.Json.Number

/-!
# Reading JSON

A text is read as exactly one value with white space around it.  The form of the text
is checked everywhere.  A number beyond the range of floating-point numbers, half a
surrogate pair and nesting beyond a fixed depth make the value they belong to
unreadable, which matters only to those who ask for that value.

This is how requests come in.  What a value says is read by the modules of what it says, and
does not depend on the text that it came in.
-/

namespace Diagram.Json

/-- Drops the white space of JSON. -/
def skipSpace (s : List Char) : List Char :=
  s.dropWhile (fun c => c = ' ' || c = '\n' || c = '\t' || c = '\r')

/-- Four hexadecimal digits. -/
def hex4? : List Char → Option (Nat × List Char)
  | a :: b :: c :: d :: rest => do
    let a ← hexValue? a
    let b ← hexValue? b
    let c ← hexValue? c
    let d ← hexValue? d
    some (((a * 16 + b) * 16 + c) * 16 + d, rest)
  | _ => none

/-- The second half of a surrogate pair, with its escape. -/
def lowSurrogate? : List Char → Option (Nat × List Char)
  | '\\' :: 'u' :: rest =>
    match hex4? rest with
    | some (n, rest) => if 0xDC00 ≤ n ∧ n < 0xE000 then some (n, rest) else none
    | none => none
  | _ => none

/-- A character written by its code units, after the first `\u`; no character for half
a surrogate pair. -/
def unicodeEscape? (s : List Char) : Option (Option Char × List Char) := do
  let (n, rest) ← hex4? s
  if n < 0xD800 ∨ 0xE000 ≤ n then some (some (Char.ofNat n), rest)
  else
    match if n < 0xDC00 then lowSurrogate? rest else none with
    | some (low, rest) =>
      some (some (Char.ofNat (0x10000 + (n - 0xD800) * 0x400 + (low - 0xDC00))), rest)
    | none => some (none, rest)

/-- The character a one-letter escape stands for. -/
def shortEscape? : Char → Option Char
  | '"' => some '"'
  | '\\' => some '\\'
  | '/' => some '/'
  | 'b' => some '\x08'
  | 'f' => some '\x0c'
  | 'n' => some '\n'
  | 'r' => some '\r'
  | 't' => some '\t'
  | _ => none

/-- The rest of a string, behind its first quote.  The characters that were read are in
`acc`, the last one first, or nowhere if one of them was half a surrogate pair. -/
def stringBody? : Nat → Option (List Char) → List Char → Option (Option String × List Char)
  | 0, _, _ => none
  | _, _, [] => none
  | fuel + 1, acc, c :: rest =>
    if c = '"' then some (acc.map (fun cs => String.ofList cs.reverse), rest)
    else if c = '\\' then
      match rest with
      | 'u' :: rest =>
        match unicodeEscape? rest with
        | some (some c, rest) => stringBody? fuel (acc.map (c :: ·)) rest
        -- the rest is still read, for its form
        | some (none, rest) => stringBody? fuel none rest
        | none => none
      | e :: rest =>
        match shortEscape? e with
        | some c => stringBody? fuel (acc.map (c :: ·)) rest
        | none => none
      | [] => none
    else if c.toNat < 32 then none
    else stringBody? fuel (acc.map (c :: ·)) rest

/-- An array or an object, which is readable only where one more level of nesting is
allowed and, for an object, only with all of its names. -/
def nested (depth : Nat) (v : Option Json) : Json :=
  match v with
  | some v => if depth ≤ 1 then unreadable else v
  | none => unreadable

mutual

/-- One value, with `depth` more levels of nesting allowed. -/
def value? : Nat → Nat → List Char → Option (Json × List Char)
  | 0, _, _ => none
  | fuel + 1, depth, s =>
    match skipSpace s with
    | '"' :: rest =>
      (stringBody? (rest.length + 1) (some []) rest).map
        (fun r => (r.1.elim unreadable string, r.2))
    | '[' :: rest =>
      match skipSpace rest with
      | ']' :: rest => some (nested depth (some (array [])), rest)
      | rest => (items? fuel (depth - 1) rest).map (fun r => (nested depth (some (array r.1)), r.2))
    | '\x7b' :: rest =>
      match skipSpace rest with
      | '\x7d' :: rest => some (nested depth (some (object [])), rest)
      | rest => (entries? fuel (depth - 1) rest).map (fun r => (nested depth (r.1.map object), r.2))
    | 't' :: 'r' :: 'u' :: 'e' :: rest => some (bool true, rest)
    | 'f' :: 'a' :: 'l' :: 's' :: 'e' :: rest => some (bool false, rest)
    | 'n' :: 'u' :: 'l' :: 'l' :: rest => some (null, rest)
    | rest => (NumberText.split? rest).map (fun r => (r.1.value, r.2))

/-- The items of an array and its bracket. -/
def items? : Nat → Nat → List Char → Option (List Json × List Char)
  | 0, _, _ => none
  | fuel + 1, depth, s =>
    match value? fuel depth s with
    | some (v, rest) =>
      match skipSpace rest with
      | ']' :: rest => some ([v], rest)
      | ',' :: rest => (items? fuel depth rest).map (fun r => (v :: r.1, r.2))
      | _ => none
    | none => none

/-- The entries of an object and its brace; no entries if a name is unreadable. -/
def entries? : Nat → Nat → List Char → Option (Option (List (String × Json)) × List Char)
  | 0, _, _ => none
  | fuel + 1, depth, s =>
    match skipSpace s with
    | '"' :: rest =>
      match stringBody? (rest.length + 1) (some []) rest with
      | some (key, rest) =>
        match skipSpace rest with
        | ':' :: rest =>
          match value? fuel depth rest with
          | some (v, rest) =>
            let entry := key.map (fun k => (k, v))
            match skipSpace rest with
            | '\x7d' :: rest => some (entry.map (fun e => [e]), rest)
            | ',' :: rest =>
              (entries? fuel depth rest).map
                (fun r => (entry.bind (fun e => r.1.map (e :: ·)), r.2))
            | _ => none
          | none => none
        | _ => none
      | none => none
    | _ => none

end

/-- The number of levels to which arrays and objects nest, and one more. -/
def nestingLimit : Nat := 128

/-- The value that a whole text writes. -/
def parse? (text : String) : Option Json :=
  let s := text.toList
  match value? (2 * s.length + 2) nestingLimit s with
  | some (v, rest) => if (skipSpace rest).isEmpty then some v else none
  | none => none

end Diagram.Json
