/-!
# Places in a text

A place is counted twice: as an offset in bytes of the UTF-8 encoding, and as a
line and a column, both from one, where a line ends at each line feed and a column
is a character.  A span names a stretch of text by its two offsets and by the
places of its first and its last character.

Such a place is reached by reading on from another one, without a bound on its numbers, or
is looked up in a table of where the lines start, in numbers of 32 bits.
-/

namespace Diagram

/-- A line and a column, both counted from one. -/
structure Position where
  line : Nat
  column : Nat
  deriving DecidableEq, Repr

namespace Position

/-- The first place of a text. -/
def first : Position := ⟨1, 1⟩

/-- The place behind the character `c`. -/
def next (p : Position) (c : Char) : Position :=
  if c = '\n' then ⟨p.line + 1, 1⟩ else ⟨p.line, p.column + 1⟩

/-- Line and column, separated by a colon. -/
def text (p : Position) : String := toString p.line ++ ":" ++ toString p.column

end Position

/-- A stretch of text: the byte offsets of its ends, and the places of its first
and its last character. -/
structure Span where
  start : Nat
  stop : Nat
  first : Position
  last : Position
  deriving DecidableEq, Repr

/-- The smallest span that covers both. -/
def Span.merge (a b : Span) : Span :=
  let (early, late) := if a.start ≤ b.start then (a, b) else (b, a)
  { start := early.start
    stop := max early.stop late.stop
    first := early.first
    last := if early.stop ≤ late.stop then late.last else early.last }

/-- The sum of a measure over the characters of a text. -/
def total (measure : Char → Nat) (text : List Char) : Nat :=
  text.foldr (fun c n => measure c + n) 0

def byteSize (text : List Char) : Nat := total Char.utf8Size text

/-! ## Reading on -/

/-- The place reached after reading some text. -/
structure Cursor where
  offset : Nat
  position : Position
  deriving DecidableEq, Repr

namespace Cursor

def start : Cursor := ⟨0, .first⟩

/-- Reads one character. -/
def next (cur : Cursor) (c : Char) : Cursor :=
  ⟨cur.offset + c.utf8Size, cur.position.next c⟩

/-- Reads a text. -/
def skip (cur : Cursor) (text : List Char) : Cursor := text.foldl next cur

/-- The span of `text`, read from here. -/
def cover (cur : Cursor) (text : List Char) : Span where
  start := cur.offset
  stop := (cur.skip text).offset
  first := cur.position
  last := (cur.skip text.dropLast).position

@[simp] theorem skip_nil (cur : Cursor) : cur.skip [] = cur := rfl

@[simp] theorem skip_cons (cur : Cursor) (c : Char) (cs : List Char) :
    cur.skip (c :: cs) = (cur.next c).skip cs := rfl

@[simp] theorem skip_append (cur : Cursor) (a b : List Char) :
    cur.skip (a ++ b) = (cur.skip a).skip b := List.foldl_append

/-- Reading a text moves the offset by its size in bytes. -/
theorem offset_skip (cur : Cursor) (text : List Char) :
    (cur.skip text).offset = cur.offset + byteSize text := by
  induction text generalizing cur with
  | nil => rfl
  | cons c cs ih => simp [ih, next, byteSize, total, Nat.add_assoc]

end Cursor

/-! ## Arbitrary offsets -/

/-- The place reached when `offset` more bytes are read from `p`.  Past the end it
is the end; inside a character it is the first column of the line. -/
def positionFrom (p : Position) : List Char → Nat → Position
  | [], _ => p
  | c :: cs, offset =>
    if offset = 0 then p
    -- no text ends inside a character, so there is nothing to count
    else if offset < c.utf8Size then { p with column := 1 }
    else positionFrom (p.next c) cs (offset - c.utf8Size)

/-- The place of the character that starts at a byte offset. -/
def positionAt (text : List Char) (offset : Nat) : Position := positionFrom .first text offset

/-- The text behind the first `n` bytes, if a character starts there. -/
def dropBytes : List Char → Nat → Option (List Char)
  | text, 0 => some text
  | [], _ + 1 => none
  | c :: cs, n + 1 => if n + 1 < c.utf8Size then none else dropBytes cs (n + 1 - c.utf8Size)

/-- The first `n` bytes of a text, if a character ends there. -/
def takeBytes : List Char → Nat → Option (List Char)
  | _, 0 => some []
  | [], _ + 1 => none
  | c :: cs, n + 1 =>
    if n + 1 < c.utf8Size then none else (takeBytes cs (n + 1 - c.utf8Size)).map (c :: ·)

/-- The text between two byte offsets, if both lie between characters. -/
def slice? (text : List Char) (start stop : Nat) : Option (List Char) :=
  if start ≤ stop then (dropBytes text start).bind (takeBytes · (stop - start)) else none

/-! ## Places looked up -/

/-- Where the entries of a table stop to satisfy `p`, looked for among `size` entries
from `base` on.  The range loses half of its entries until one is left: those in front
of the middle when the entry there satisfies `p`, and else as many at its end. -/
def partitionPointFrom (p : Nat → Bool) (table : Array Nat) (base size : Nat) : Nat :=
  if 1 < size then
    -- an odd range keeps its middle on both sides
    let half := size / 2
    let base := if p (table.getD (base + half) 0) then base + half else base
    partitionPointFrom p table base (size - half)
  else if p (table.getD base 0) then base + 1 else base
termination_by size
decreasing_by omega

/-- The number of entries in front of a table that satisfy `p`, when no entry behind
them does. -/
def partitionPoint (p : Nat → Bool) (table : Array Nat) : Nat :=
  if table.isEmpty then 0 else partitionPointFrom p table 0 table.size

/-- The offsets behind the line feeds of a text that starts at `offset`. -/
def lineStartsFrom (offset : Nat) : List Char → List Nat
  | [] => []
  | c :: cs =>
    let next := offset + c.utf8Size
    if c = '\n' then next :: lineStartsFrom next cs else lineStartsFrom next cs

/-- A text with a table of the offsets at which its lines start. -/
structure LineIndex where
  text : List Char
  lineStarts : Array Nat
  toList_lineStarts : lineStarts.toList = 0 :: lineStartsFrom 0 text

namespace LineIndex

def ofText (text : List Char) : LineIndex := ⟨text, (0 :: lineStartsFrom 0 text).toArray, rfl⟩

/-- The number, from one, of what has `n` others in front of it.  It has 32 bits. -/
def ordinal (n : Nat) : Nat := (n.toUInt32 + 1).toNat

/-- The place of the character that starts at a byte offset.  The line is the last one
that starts at the offset or before it, and the column counts the characters in between.
Past the end it is the end; inside a character it is the first column of the line. -/
def position (m : LineIndex) (offset : Nat) : Position :=
  let offset := min offset (byteSize m.text)
  let line := partitionPoint (· ≤ offset) m.lineStarts - 1
  let column :=
    match slice? m.text (m.lineStarts.getD line 0) offset with
    | some w => w.length
    | none => 0
  ⟨ordinal line, ordinal column⟩

/-- The span between two byte offsets.  Where they enclose no text, the last
character is taken to be the first. -/
def span (m : LineIndex) (start stop : Nat) : Span :=
  let lastOffset :=
    match (slice? m.text start stop).bind List.getLast? with
    | some c => stop - c.utf8Size
    | none => start
  ⟨start, stop, m.position start, m.position lastOffset⟩

end LineIndex

/-- The span between two byte offsets of a text. -/
def spanAt (text : List Char) (start stop : Nat) : Span := (LineIndex.ofText text).span start stop

/-- The empty span at the end of a text. -/
def endSpan (text : List Char) : Span :=
  let stop := Cursor.start.skip text
  ⟨stop.offset, stop.offset, stop.position, stop.position⟩

/-- The text that a span covers, and nothing when its offsets do not fit. -/
def Span.textIn (s : Span) (text : List Char) : List Char :=
  (slice? text s.start s.stop).getD []

end Diagram
