/-!
# Addresses of texts

An editor calls its texts by addresses of the scheme `file`.  An address can be
spelled in several ways, and texts are told apart by one form of it: steps that lead
nowhere or back are taken out of the path, and characters that have no place in an
address are escaped byte by byte.  Letters in front of a colon have no meaning here.
-/

namespace Diagram.Editor.Address

/-! ## Escapes -/

/-- The escape of a byte. -/
def percentByte (b : UInt8) : List Char :=
  let digit (n : Nat) : Char := ((Nat.toDigits 16 n).headD '0').toUpper
  ['%', digit (b.toNat / 16), digit (b.toNat % 16)]

/-- A text with the escapes of the bytes of all characters that satisfy `escaped`. -/
def percentEncode (escaped : Char → Bool) (s : List Char) : List Char :=
  s.flatMap (fun c =>
    if escaped c then c.toString.toUTF8.toList.flatMap percentByte else [c])

/-- Whether a character cannot be written at all. -/
def isUnwritable (c : Char) : Bool := c.toNat < 0x20 || 0x7E < c.toNat

/-- What is escaped behind a hash. -/
def escapedInFragment (c : Char) : Bool := isUnwritable c || " \"<>\x60".toList.contains c

/-- What is escaped in a path. -/
def escapedInPath (c : Char) : Bool := escapedInFragment c || "#?\x7b\x7d".toList.contains c

/-- What is escaped behind a question mark. -/
def escapedInQuery (c : Char) : Bool := isUnwritable c || " \"#<>'".toList.contains c

/-! ## Paths -/

/-- The steps of a path, between slashes of either kind. -/
def steps : List Char → List (List Char)
  | [] => [[]]
  | c :: rest =>
    if c = '/' ∨ c = '\\' then [] :: steps rest
    else
      match steps rest with
      | s :: ss => (c :: s) :: ss
      | [] => [[c]]

/-- How many dots a step is made of, some of them perhaps escaped. -/
def dots? : List Char → Option Nat
  | [] => some 0
  | '.' :: rest => (dots? rest).map (· + 1)
  | '%' :: '2' :: e :: rest => if e = 'e' ∨ e = 'E' then (dots? rest).map (· + 1) else none
  | _ => none

/-- The steps of a path behind those of `done`, the last of them first.  One dot leads
nowhere and two lead back; at the end of a path, they lead to a directory. -/
def resolve (done : List (List Char)) : List (List Char) → List (List Char)
  | [] => done.reverse
  | s :: ss =>
    let back (path : List (List Char)) := if ss.isEmpty then [] :: path else path
    match dots? s with
    | some 1 => resolve (back done) ss
    | some 2 => resolve (back done.tail) ss
    | _ => resolve (s :: done) ss

/-! ## Addresses -/

/-- Spaces and control characters are dropped at the end of an address, and breaks of
lines and tabs everywhere. -/
def clean (s : List Char) : List Char :=
  (s.reverse.dropWhile (fun c => c.toNat ≤ 0x20)).reverse.filter
    (fun c => c ≠ '\t' ∧ c ≠ '\n' ∧ c ≠ '\r')

/-- The address of a file by its path from the root, behind which a question mark and a
hash may begin parts of their own. -/
def ofPath (text : String) : String :=
  let s := clean text.toList
  let path := s.takeWhile (fun c => c ≠ '?' ∧ c ≠ '#')
  let rest := s.drop path.length
  let query := rest.takeWhile (· ≠ '#')
  let fragment := rest.drop query.length
  let names := resolve [] ((steps path).map (percentEncode escapedInPath))
  let names := names.dropWhile List.isEmpty
  let marked (escaped : Char → Bool) : List Char → List Char
    | mark :: s => mark :: percentEncode escaped s
    | [] => []
  "file:///" ++ String.ofList
    (['/'].intercalate names ++ marked escapedInQuery query ++ marked escapedInFragment fragment)

end Diagram.Editor.Address
