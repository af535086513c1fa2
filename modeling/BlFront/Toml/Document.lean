import BlFront.Toml.Number
import BlFront.Toml.Table

/-!
# Documents

A document is read line by line, a value spanning lines where its form allows it.  Its
blocks are then put together to one table.
-/

namespace BlFront.Toml

open Reader

/-! ### Values -/

def array (element : Reader Item) : Reader (List Item) := do
  char '['
  let elements ← maybe do
    let elements ← separated (do gap; let item ← element; gap; return item) ','
    let _ ← maybe (char ',')
    return elements
  gap
  char ']'
  return elements.getD []

def inlinePair (element : Reader Item) : Reader (KeyPath × Item) := do
  let path ← keyPath
  char '='
  ws
  let item ← element
  ws
  return (path, item)

def inlineTable (element : Reader Item) : Reader Table := do
  char '\x7b'
  let pairs ← maybe (separated (inlinePair element) ',')
  ws
  char '\x7d'
  match Table.empty.assignAll (pairs.getD []) with
  | some table => return table
  | none => failure

def scalar : Reader Item :=
  (do return .string (← string)) <|>
  (do word "true"; return .boolean true) <|>
  (do word "false"; return .boolean false) <|>
  (do moment; return .moment) <|>
  (do let _ ← float; return .float) <|>
  (do return .integer (← integer))

/-- A value with at most so many brackets around one another. -/
def valueWithin : Nat → Reader Item
  | 0 => scalar
  | depth + 1 =>
    (do return .array (← array (valueWithin depth))) <|>
    (do return .inline (← inlineTable (valueWithin depth))) <|>
    scalar

def value : Reader Item := valueWithin (maxDepth - 1)

/-! ### Lines -/

inductive Line where
  | blank
  | pair (path : KeyPath) (item : Item)
  | header (path : KeyPath)
  | seriesHeader (path : KeyPath)

def header : Reader Line := do
  char '['
  let path ← keyPath
  char ']'
  lineEnd
  return .header path

def seriesHeader : Reader Line := do
  word "[["
  let path ← keyPath
  word "]]"
  lineEnd
  return .seriesHeader path

def pair : Reader Line := do
  let path ← keyPath
  char '='
  ws
  let item ← value
  lineEnd
  return .pair path item

def line : Reader Line := do
  ws
  (do lineEnd; return .blank) <|> seriesHeader <|> header <|> pair

/-! ### Blocks -/

/-- A header, and the entries below it. -/
structure Block where
  path : KeyPath
  isSeries : Bool
  pairs : List (KeyPath × Item)

/-- The entries before the first header, and the blocks from there on. -/
def blocks : List Line → List (KeyPath × Item) × List Block
  | [] => ([], [])
  | l :: lines =>
    let (pairs, rest) := blocks lines
    match l with
    | .blank => (pairs, rest)
    | .pair path item => ((path, item) :: pairs, rest)
    | .header path => ([], ⟨path, false, pairs⟩ :: rest)
    | .seriesHeader path => ([], ⟨path, true, pairs⟩ :: rest)

def Table.addBlock (t : Table) (b : Block) : Option Table :=
  if b.isSeries then t.extend b.path b.pairs else t.define b.path b.pairs

/-- The table that some lines describe; `none` if an entry or a header comes twice. -/
def Table.ofLines? (lines : List Line) : Option Table := do
  let (pairs, rest) := blocks lines
  rest.foldlM addBlock (← empty.assignAll pairs)

/-- The table of a whole text, which may start with a byte order mark. -/
def Table.ofText? (text : List Char) : Option Table := do
  let body := match text with
    | '\uFEFF' :: rest => rest
    | _ => text
  ofLines? (← whole? (many line) body)

end BlFront.Toml
