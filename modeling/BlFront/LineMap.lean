import BlFront.Span
import BlFront.Text.Utf8

/-!
# Lines and columns

A line map turns byte offsets of one text into lines and columns, both counted from one.
A tab moves the column to the next multiple of the tab size.  A line or a column that does
not fit 32 bits is none.
-/

namespace BlFront

structure Position where
  line : Nat
  column : Nat
  deriving DecidableEq, Repr

namespace Position

instance : ToString Position where
  toString p := s!"{p.line}:{p.column}"

end Position

/-- The offsets at which the lines of a text start, when the text itself starts at `offset`. -/
def lineStartsFrom (offset : Nat) : List Char → List Nat
  | [] => []
  | c :: cs =>
    let next := offset + c.utf8Size
    if c = '\n' then next :: lineStartsFrom next cs else lineStartsFrom next cs

structure LineMap where
  content : List Char
  starts : List Nat
  tabSize : Nat

namespace LineMap

def defaultTabSize : UInt32 := 4

/-- The map of a text.  A tab size of zero counts as one. -/
def ofText (content : List Char) (tabSize : UInt32) : LineMap where
  content := content
  starts := 0 :: lineStartsFrom 0 content
  tabSize := max tabSize.toNat 1

def lineCount (m : LineMap) : Nat := m.starts.length

/-- The line that holds an offset, as it is counted before it has to fit 32 bits; an offset past
the end is on the last line. -/
def lineOf (m : LineMap) (offset : Nat) : Nat :=
  (m.starts.takeWhile (· ≤ offset)).length

def advance (tabSize column : Nat) (c : Char) : Nat :=
  if c = '\t' then column + (tabSize - column % tabSize) else column + 1

def width (m : LineMap) (text : List Char) : Nat := text.foldl (advance m.tabSize) 0

/-- The greatest number that a line or a column can have. -/
def countLimit : Nat := 4294967295

/-- The position of an offset; `none` inside a character, and behind the last line or column. -/
def position? (m : LineMap) (offset : Nat) : Option Position := do
  let line := m.lineOf offset
  let start ← m.starts[line - 1]?
  let before ← Text.slice? start (min offset (Text.byteLength m.content)) m.content
  let column := m.width before + 1
  if line ≤ countLimit ∧ column ≤ countLimit then return ⟨line, column⟩ else none

/-- The text of a line without its line feed and without carriage returns at its end. -/
def lineText? (m : LineMap) (line : Nat) : Option (List Char) := do
  guard (0 < line)
  let start ← m.starts[line - 1]?
  let stop := match m.starts[line]? with
    | some next => next - 1
    | none => Text.byteLength m.content
  let text ← Text.slice? start stop m.content
  return (text.reverse.dropWhile (· = '\r')).reverse

def describe? (m : LineMap) (name : String) (span : Span) : Option String :=
  (m.position? span.start).map fun p => name ++ ":" ++ toString p

end LineMap

end BlFront
