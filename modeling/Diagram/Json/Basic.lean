/-!
# JSON values

The values that documents, canvas shapes and layout graphs are exchanged as, and
the reading of records out of them.

A record is an object whose fields are looked up by name.  A name that is asked for
and occurs twice makes the record unreadable, a name that is not asked for is passed
over.  A record may also be written as an array of its fields in their fixed order.

A record may come in several kinds, with a tag that says which.  Since the tag can
stand anywhere, such a record is held as a whole until its tag is found, and names
inside of what is held may be written in more ways than elsewhere.
-/

namespace Diagram

/-- A JSON value. -/
inductive Json where
  | null
  | bool (b : Bool)
  | int (n : Int)
  | float (x : Float)
  | string (s : String)
  | array (items : List Json)
  | object (entries : List (String × Json))
  /-- Text in the form of a value that stands for none: a number beyond the range, a
  string with half of a character, an object with such a name in it, or what is nested
  too deep.  It is passed over where no one asks for it. -/
  | unreadable
  deriving Inhabited

/-- How a value is come by. -/
inductive Json.Access where
  /-- It is read where it stands. -/
  | direct
  /-- It is inside of a record that was held until its tag was found. -/
  | held
  deriving DecidableEq, Repr

namespace Json

def string? : Json → Option String
  | string s => some s
  | _ => none

/-- The name of an alternative that holds nothing: a string, or an object with that
name alone and null under it.  What is held may also have an empty object there. -/
def variant? (access : Access) : Json → Option String
  | string s => some s
  | object [(s, null)] => some s
  | object [(s, object [])] => if access = .held then some s else none
  | _ => none

/-- A tag, which is one of the given names.  What is held may also have the place of
the name among them, counted from zero. -/
def tag? (access : Access) (names : List String) : Json → Option String
  | string s => if names.contains s then some s else none
  | int n => if access = .held ∧ 0 ≤ n then names[n.toNat]? else none
  | _ => none

def bool? : Json → Option Bool
  | bool b => some b
  | _ => none

/-- A floating-point number.  One that is infinite or no number at all cannot be told, and
null stands for it. -/
def number (x : Float) : Json := if x.isFinite then float x else null

/-- A number of either kind. -/
def number? : Json → Option Float
  | int n => some (Float.ofInt n)
  | float x => some x
  | _ => none

/-- A natural number below `2 ^ 32`. -/
def count? : Json → Option Nat
  | int n => if 0 ≤ n ∧ n < 4294967296 then some n.toNat else none
  | _ => none

/-- The items of an array, each of them read. -/
def list? {β : Type} (read : Json → Option β) : Json → Option (List β)
  | array items => items.mapM read
  | _ => none

mutual

/-- How deep arrays and objects nest. -/
def depth : Json → Nat
  | array items => depthOfItems items + 1
  | object entries => depthOfEntries entries + 1
  | _ => 0

/-- How deep the items of an array nest. -/
def depthOfItems : List Json → Nat
  | [] => 0
  | v :: vs => max (depth v) (depthOfItems vs)

/-- How deep the entries of an object nest. -/
def depthOfEntries : List (String × Json) → Nat
  | [] => 0
  | (_, v) :: es => max (depth v) (depthOfEntries es)

end

mutual

/-- Whether no part of a value is unreadable. -/
def isReadable : Json → Bool
  | unreadable => false
  | array items => areItemsReadable items
  | object entries => areEntriesReadable entries
  | _ => true

/-- Whether no item of an array has an unreadable part. -/
def areItemsReadable : List Json → Bool
  | [] => true
  | v :: vs => isReadable v && areItemsReadable vs

/-- Whether no entry of an object has an unreadable part. -/
def areEntriesReadable : List (String × Json) → Bool
  | [] => true
  | (_, v) :: es => isReadable v && areEntriesReadable es

end

/-- The last hexadecimal digit of a number. -/
def hexDigit (n : Nat) : Char := (Nat.toDigits 16 (n % 16)).headD '0'

def hexValue? (c : Char) : Option Nat :=
  if c.isDigit then some (c.toNat - '0'.toNat)
  else if 'a' ≤ c ∧ c ≤ 'f' then some (c.toNat - 'a'.toNat + 10)
  else if 'A' ≤ c ∧ c ≤ 'F' then some (c.toNat - 'A'.toNat + 10)
  else none

/-- The value of the first field of a given name. -/
def field? (name : String) : Json → Option Json
  | object entries => entries.lookup name
  | _ => none

end Json

/-! ## Records -/

/-- The named values of a record. -/
abbrev Record := List (String × Json)

namespace Record

/-- The fields of a record with the given field names, of which the first `least`
cannot be left out when the record is written as an array. -/
def ofJson? (names : List String) (least : Nat) : Json → Option Record
  | .object entries => some entries
  | .array items =>
    if least ≤ items.length ∧ items.length ≤ names.length then some (names.zip items) else none
  | _ => none

/-- The field `name`: absent or present; unreadable when it stands there twice. -/
def find (r : Record) (name : String) : Option (Option Json) :=
  match r.filter (fun e => e.1 == name) with
  | [] => some none
  | [e] => some (some e.2)
  | _ => none

/-- A field that has to be there. -/
def required {β : Type} (r : Record) (name : String) (read : Json → Option β) : Option β :=
  match r.find name with
  | some (some v) => read v
  | _ => none

/-- A field that may be absent or null. -/
def optional {β : Type} (r : Record) (name : String) (read : Json → Option β) :
    Option (Option β) :=
  match r.find name with
  | some none => some none
  | some (some .null) => some none
  | some (some v) => (read v).map some
  | none => none

/-- A field that takes a default value when it is absent. -/
def defaulted {β : Type} (r : Record) (name : String) (value : β) (read : Json → Option β) :
    Option β :=
  match r.find name with
  | some none => some value
  | some (some v) => read v
  | none => none

/-- The kind of a record, which is the value of its field `tag` and one of the given
names, and what is left of the record.  Written as an array, a record has its tag in
front.  To be held, it must be readable in all its parts. -/
def tagged? (access : Json.Access) (tag : String) (names : List String) (j : Json) :
    Option (String × Json) :=
  if j.isReadable then
    match j with
    | .object entries =>
      (Record.required entries tag (Json.tag? access names)).map
        (fun t => (t, .object (entries.filter (fun e => e.1 != tag))))
    | .array (t :: items) => (t.tag? access names).map (fun t => (t, .array items))
    | _ => none
  else none

/-- A field that is written only when it is set. -/
def fieldIfSet {β : Type} (name : String) (write : β → Json) (v : Option β) : Record :=
  match v with
  | some v => [(name, write v)]
  | none => []

end Record

end Diagram
