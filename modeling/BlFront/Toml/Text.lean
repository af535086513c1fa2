import BlFront.Toml.Reader

/-!
# Strings and keys

Four forms of strings: with or without escapes, on one line or on several.  A key is bare
or a string on one line; a dotted key is a path.
-/

namespace BlFront.Toml

open Reader

/-! ### Escapes -/

def hexValue? (c : Char) : Option Nat :=
  if '0' ≤ c ∧ c ≤ '9' then some (c.toNat - '0'.toNat)
  else if 'a' ≤ c ∧ c ≤ 'f' then some (c.toNat - 'a'.toNat + 10)
  else if 'A' ≤ c ∧ c ≤ 'F' then some (c.toNat - 'A'.toNat + 10)
  else none

def codePoint : Nat → Nat → Reader Char
  | 0, n => if n.isValidChar then pure (Char.ofNat n) else failure
  | k + 1, n => do
      let digit ← satisfy fun c => (hexValue? c).isSome
      codePoint k (16 * n + (hexValue? digit).getD 0)

def escaped : Reader Char := do
  match ← satisfy fun _ => true with
  | 'b' => return '\x08'
  | 't' => return '\t'
  | 'n' => return '\n'
  | 'f' => return '\x0c'
  | 'r' => return '\r'
  | '"' => return '"'
  | '\\' => return '\\'
  | 'u' => codePoint 4 0
  | 'U' => codePoint 8 0
  | _ => failure

/-! ### Strings on one line -/

def isBasic (c : Char) : Bool := isPrintable c && c != '"' && c != '\\'

def isLiteral (c : Char) : Bool := isPrintable c && c != '\''

def basicChar : Reader Char :=
  satisfy isBasic <|> do
    char '\\'
    escaped

def basicString : Reader String := do
  char '"'
  let body ← many basicChar
  char '"'
  return String.ofList body

def literalString : Reader String := do
  char '\''
  let body ← run isLiteral
  char '\''
  return String.ofList body

/-! ### Strings on several lines -/

/-- A backslash at the end of a line takes that end and all blanks behind it away. -/
def continuation : Reader (List Char) := do
  char '\\'
  ws
  newline
  blanks
  return []

def lineFeed : Reader (List Char) := do
  newline
  return ['\n']

def single (p : Reader Char) : Reader (List Char) := do
  return [← p]

/-- At most two quotes that do not belong to the end of the string. -/
def looseQuotes (quote : Char) : Reader (List Char) := fun cs =>
  let quotes := cs.takeWhile (· = quote)
  if 0 < quotes.length ∧ quotes.length < 3 then some (quotes, cs.drop quotes.length) else none

/-- Three quotes end the string; up to two before them belong to it. -/
def closingQuotes (quote : Char) : Reader (List Char) := fun cs =>
  let count := min 5 (cs.takeWhile (· = quote)).length
  if 3 ≤ count then some (List.replicate (count - 3) quote, cs.drop count) else none

/-- A string between triple quotes.  A line end right behind the first ones is dropped. -/
def multiline (quote : Char) (content : Reader (List Char)) : Reader String := do
  char quote
  char quote
  char quote
  let _ ← maybe newline
  let body ← many (content <|> looseQuotes quote)
  let last ← closingQuotes quote
  return String.ofList (body.flatten ++ last)

def multilineBasic : Reader String :=
  multiline '"' (continuation <|> single basicChar <|> lineFeed)

def multilineLiteral : Reader String :=
  multiline '\'' (single (satisfy isLiteral) <|> lineFeed)

def string : Reader String :=
  multilineBasic <|> basicString <|> multilineLiteral <|> literalString

/-! ### Keys -/

def isBare (c : Char) : Bool := c.isAlphanum || c = '-' || c = '_'

def bareKey : Reader String := do
  let first ← satisfy isBare
  let more ← run isBare
  return String.ofList (first :: more)

def simpleKey : Reader String := basicString <|> literalString <|> bareKey

/-- The keys on the way to an entry, and its own. -/
structure KeyPath where
  parents : List String
  key : String
  deriving DecidableEq, Repr

/-- A path has fewer keys than this. -/
def maxDepth : Nat := 80

def keyPath : Reader KeyPath := do
  let keys ← separated (do ws; let key ← simpleKey; ws; return key) '.'
  match keys.getLast? with
  | some key => if keys.length < maxDepth then return ⟨keys.dropLast, key⟩ else failure
  | none => failure

end BlFront.Toml
