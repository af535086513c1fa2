import BlFront.Span
import BlFront.Text.Utf8

/-!
# Reading position in a text

A cursor holds the part of a text that is still to be read and the byte offset at which
that part starts.
-/

namespace BlFront

structure Cursor where
  source : List Char
  offset : Nat
  rest : List Char
  deriving DecidableEq, Repr

namespace Cursor

def ofText (source : List Char) : Cursor := ⟨source, 0, source⟩

def peek? (c : Cursor) : Option Char := c.rest.head?

def peekSecond? (c : Cursor) : Option Char := c.rest.tail.head?

def isAtEnd (c : Cursor) : Bool := c.rest.isEmpty

/-- The cursor behind a piece of text that the rest starts with. -/
def past (c : Cursor) (text rest : List Char) : Cursor :=
  { c with offset := c.offset + Text.byteLength text, rest := rest }

/-- The cursor behind the next character; at the end it stays. -/
def advance (c : Cursor) : Cursor := match c.rest with
  | [] => c
  | x :: xs => c.past [x] xs

def eat? (c : Cursor) (x : Char) : Option Cursor :=
  if c.peek? = some x then some c.advance else none

def eatWhile (c : Cursor) (p : Char → Bool) : Cursor :=
  c.past (c.rest.takeWhile p) (c.rest.dropWhile p)

def sliceFrom? (c : Cursor) (start : Nat) : Option (List Char) :=
  Text.slice? start c.offset c.source

def spanFrom (c : Cursor) (start : Nat) : Span := ⟨start, c.offset⟩

/-- The span from an offset up to the cursor, if the offset is not behind it. -/
def spanFrom? (c : Cursor) (start : Nat) : Option Span := Span.between? start c.offset

/-- The offset counts the bytes that were read. -/
def WellPlaced (c : Cursor) : Prop :=
  ∃ read, c.source = read ++ c.rest ∧ c.offset = Text.byteLength read

theorem wellPlaced_ofText (source : List Char) : (ofText source).WellPlaced :=
  ⟨[], rfl, rfl⟩

end Cursor

end BlFront
