/-!
# Reading characters

A reader takes what it needs from the front of a text, or fails.  A reader that fails
leaves the text to the next alternative.
-/

namespace BlFront.Toml

abbrev Reader : Type → Type := StateT (List Char) Option

namespace Reader

def peek? : Reader (Option Char) := fun cs => some (cs.head?, cs)

def satisfy (p : Char → Bool) : Reader Char
  | [] => none
  | c :: cs => if p c then some (c, cs) else none

def char (c : Char) : Reader Unit := do
  let _ ← satisfy (· = c)

def word (text : String) : Reader Unit := text.toList.forM char

/-- The longest run of characters with a property; it may be empty. -/
def run (p : Char → Bool) : Reader (List Char) := fun cs => some (cs.span p)

def maybe (p : Reader α) : Reader (Option α) := fun cs =>
  match p cs with
  | some (a, rest) => some (some a, rest)
  | none => some (none, cs)

/-- All that can be read one after the other.  A step that takes nothing is the last one. -/
def manyFrom (p : Reader α) (cs : List Char) : List α × List Char :=
  match p cs with
  | none => ([], cs)
  | some (a, rest) =>
    if rest.length < cs.length then
      let (more, last) := manyFrom p rest
      (a :: more, last)
    else ([a], rest)
termination_by cs.length

def many (p : Reader α) : Reader (List α) := fun cs => some (manyFrom p cs)

/-- One or more, each behind the first one after a separator. -/
def separated (p : Reader α) (separator : Char) : Reader (List α) := do
  let first ← p
  let more ← many do
    char separator
    p
  return first :: more

/-- What a reader makes of a text, if it takes all of it. -/
def whole? (p : Reader α) (cs : List Char) : Option α :=
  match p cs with
  | some (a, []) => some a
  | _ => none

end Reader

/-! ### Blanks, line ends and comments -/

def isWs (c : Char) : Bool := c = ' ' || c = '\t'

def isNonAscii (c : Char) : Bool := decide (0x80 ≤ c.toNat)

/-- A tab or a character that is not a control character. -/
def isPrintable (c : Char) : Bool :=
  c = '\t' || decide (0x20 ≤ c.toNat ∧ c.toNat ≤ 0x7E) || isNonAscii c

open Reader

def ws : Reader Unit := do
  let _ ← run isWs

def newline : Reader Unit := char '\n' <|> word "\r\n"

def comment : Reader Unit := do
  char '#'
  let _ ← run isPrintable

def endOfText : Reader Unit
  | [] => some ((), [])
  | _ => none

/-- The rest of a line that holds nothing more. -/
def lineEnd : Reader Unit := do
  ws
  let _ ← maybe comment
  newline <|> endOfText

def blanks : Reader Unit := do
  let _ ← many (discard (satisfy isWs) <|> newline)

def gap : Reader Unit := do
  let _ ← many (discard (satisfy isWs) <|> newline <|> comment)

end BlFront.Toml
