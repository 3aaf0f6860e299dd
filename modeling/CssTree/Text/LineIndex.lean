import CssTree.Text.Span

namespace CssTree

/-- The number of bytes of a text in UTF-8. -/
def utf8Length : Text → Nat
  | [] => 0
  | c :: cs => c.utf8Size + utf8Length cs

/-- The text behind the first `n` bytes; none if there are fewer or a character is cut. -/
def dropBytes? : (n : Nat) → Text → Option Text
  | 0, t => some t
  | _ + 1, [] => none
  | n + 1, c :: cs => if c.utf8Size ≤ n + 1 then dropBytes? (n + 1 - c.utf8Size) cs else none

/-- The first `n` bytes of a text; none if there are fewer or a character is cut. -/
def takeBytes? : (n : Nat) → Text → Option Text
  | 0, _ => some []
  | _ + 1, [] => none
  | n + 1, c :: cs =>
    if c.utf8Size ≤ n + 1 then (takeBytes? (n + 1 - c.utf8Size) cs).map (c :: ·) else none

/-- The text from one byte up to another; none if they are out of order or outside the text, or if
a character is cut. -/
def sliceBytes? (start stop : Nat) (t : Text) : Option Text :=
  if start ≤ stop then (dropBytes? start t).bind (takeBytes? (stop - start)) else none

def isAscii (t : Text) : Bool := t.all (·.toNat < 128)

/-- The lines of a text, each with the break that ends it; the last one has none. -/
def splitLines : Text → List (Text × Text)
  | [] => [([], [])]
  | '\r' :: '\n' :: cs => ([], ['\r', '\n']) :: splitLines cs
  | c :: cs =>
    if c = '\r' ∨ c = '\n' then ([], [c]) :: splitLines cs
    else match splitLines cs with
      | [] => [([c], [])]
      | (content, ending) :: rest => (c :: content, ending) :: rest

/-- A line of a text and where it begins. -/
structure Line where
  /-- Characters before the line. -/
  index : Nat
  /-- Bytes before the line. -/
  offset : Nat
  /-- The line without its break. -/
  content : Text
  /-- Every character of the line is one byte. -/
  ascii : Bool
deriving Inhabited

/-- The number of bytes of a line before a column other than its first; none behind the end of the
line. -/
def Line.bytesBefore? (l : Line) (column : Nat) : Option Nat :=
  if l.ascii then if column ≤ utf8Length l.content then some column else none
  else
    let walked := column - 1
    l.content[walked]?.map fun c => utf8Length (l.content.take walked) + c.utf8Size

/-- A text with its lines. -/
structure LineIndex where
  text : Text
  lines : Array Line

namespace LineIndex

/-- Lines placed one after another from `index` characters and `offset` bytes on. -/
def place (index offset : Nat) : List (Text × Text) → List Line
  | [] => []
  | (content, ending) :: rest =>
    ⟨index, offset, content, isAscii content⟩ ::
      place (index + content.length + ending.length)
        (offset + utf8Length content + utf8Length ending) rest

def ofText (t : Text) : LineIndex := ⟨t, (place 0 0 (splitLines t)).toArray⟩

def lineCount (ix : LineIndex) : Nat := ix.lines.size

/-- The line that has a column `p.column`, or ends there. -/
def line? (ix : LineIndex) (p : Position) : Option Line :=
  ix.lines[p.line]?.filter fun l => p.column ≤ l.content.length

/-- The number of bytes before a position; none outside the text. -/
def offset? (ix : LineIndex) (p : Position) : Option Nat := do
  let l ← ix.lines[p.line]?
  if p.column = 0 then some l.offset else (l.bytesBefore? p.column).map (l.offset + ·)

/-- The number of characters before a position; none outside the text. -/
def index? (ix : LineIndex) (p : Position) : Option Nat :=
  (ix.line? p).map fun l => l.index + p.column

/-- The text that a span covers; none if an end lies outside or the ends are out of order. -/
def slice? (ix : LineIndex) (r : Span) : Option Text := do
  let start ← ix.offset? r.start
  let stop ← ix.offset? r.stop
  sliceBytes? start stop ix.text

end LineIndex

end CssTree
