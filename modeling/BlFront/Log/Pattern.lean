import BlFront.Text.Alphanumeric
import BlFront.Text.Blank

/-!
# Patterns

Which texts are patterns that a field value can be held against.  Only the form of a pattern
counts here.  The text of a field ends at the first closing brace, so no form that needs one
(a counted repetition, a code point in braces, a named property) can be completed.
-/

namespace BlFront.Log.Pattern

/-! ### Modes -/

/-- How the text is read.  Flags change it up to the end of the group they stand in. -/
structure Mode where
  /-- Letters stand for both cases. -/
  anyCase : Bool
  /-- Patterns speak of characters, not of bytes. -/
  wide : Bool
  /-- Blanks and comments mean nothing. -/
  spaced : Bool

namespace Mode

def initial : Mode := ⟨false, true, false⟩

/-- The letters of all flags, and the sign that takes those behind it away. -/
def flagLetters : List Char := ['i', 'm', 's', 'U', 'u', 'R', 'x', '-']

def isFlags (letters : List Char) : Bool :=
  letters.all flagLetters.contains && letters.eraseDups.length = letters.length
    && letters.getLast? != some '-'

def withFlags (mode : Mode) (letters : List Char) : Mode :=
  let added := letters.takeWhile (· != '-')
  let taken := letters.dropWhile (· != '-')
  let after (flag : Char) (before : Bool) : Bool :=
    (before || added.contains flag) && !taken.contains flag
  ⟨after 'i' mode.anyCase, after 'u' mode.wide, after 'x' mode.spaced⟩

end Mode

/-- The text without blanks and comments at its front.  A comment ends with its line. -/
def dropSpace (inComment : Bool) : List Char → List Char
  | [] => []
  | c :: cs =>
    if inComment then dropSpace (c != '\n') cs
    else if Text.isBlank c then dropSpace false cs
    else if c = '#' then dropSpace true cs
    else c :: cs

def Mode.skip (mode : Mode) (cs : List Char) : List Char :=
  if mode.spaced then dropSpace false cs else cs

/-- The first character that is no blank.  A sign that opens a comment is passed over once, and
the comment itself is not. -/
def Mode.glance? (mode : Mode) (cs : List Char) : Option Char :=
  if mode.spaced then
    match cs.dropWhile Text.isBlank with
    | '#' :: rest => (rest.dropWhile Text.isBlank).head?
    | rest => rest.head?
  else cs.head?

/-! ### Atoms -/

inductive Atom where
  /-- A character, and whether it was written as the number of a byte. -/
  | literal (c : Char) (asByte : Bool)
  /-- A shorthand for digits, blanks or word characters, or for all others. -/
  | shorthand (negated : Bool)
  | anything
  /-- A place in the text, and whether it depends on what a word is. -/
  | place (word : Bool)

namespace Atom

/-- Tables of characters are not at hand, so a wide pattern knows neither cases nor words; a
pattern of bytes must not split characters. -/
def isAllowed (mode : Mode) : Atom → Bool
  | .literal c asByte => if mode.wide then !mode.anyCase else !asByte || decide (c.toNat < 0x80)
  | .shorthand negated => !mode.wide && !negated
  | .anything => mode.wide
  | .place word => !(word && mode.wide)

def isMember (mode : Mode) : Atom → Bool
  | .literal c _ => if mode.wide then !mode.anyCase else decide (c.toNat < 0x80)
  | .shorthand negated => !mode.wide && !negated
  | _ => false

def isRange (mode : Mode) : Atom → Atom → Bool
  | .literal c b, .literal d b' =>
    isMember mode (.literal c b) && isMember mode (.literal d b') && decide (c.toNat ≤ d.toNat)
  | _, _ => false

end Atom

def hexValue? (c : Char) : Option Nat :=
  if c.isDigit then some (c.toNat - '0'.toNat)
  else if 'a' ≤ c ∧ c ≤ 'f' then some (c.toNat - 'a'.toNat + 10)
  else if 'A' ≤ c ∧ c ≤ 'F' then some (c.toNat - 'A'.toNat + 10)
  else none

def readHex (mode : Mode) : Nat → Nat → List Char → Option (Nat × List Char)
  | 0, value, cs => some (value, cs)
  | digits + 1, value, cs => match mode.skip cs with
      | [] => none
      | c :: rest => do readHex mode digits (16 * value + (← hexValue? c)) rest

def readNumbered (mode : Mode) (digits : Nat) (asByte : Bool) (cs : List Char) :
    Option (Atom × List Char) := do
  let (value, rest) ← readHex mode digits 0 cs
  if value.isValidChar then return (.literal (Char.ofNat value) asByte, rest) else none

/-- The letters that stand for control characters behind a backslash. -/
def controls : List (Char × Char) :=
  [('a', '\x07'), ('f', '\x0c'), ('t', '\t'), ('n', '\n'), ('r', '\r'), ('v', '\x0b')]

/-- Reads what stands behind a backslash.  A sign stands for itself, a letter or a digit only
where it has a meaning. -/
def readEscape (mode : Mode) : List Char → Option (Atom × List Char)
  | [] => none
  | c :: cs =>
    if c = 'x' then readNumbered mode 2 true cs
    else if c = 'u' then readNumbered mode 4 false cs
    else if c = 'U' then readNumbered mode 8 false cs
    else if ['d', 's', 'w'].contains c then some (.shorthand false, cs)
    else if ['D', 'S', 'W'].contains c then some (.shorthand true, cs)
    else if ['A', 'z'].contains c then some (.place false, cs)
    else if ['b', 'B', '<', '>'].contains c then some (.place true, cs)
    else if c.isAlphanum then (controls.lookup c).map fun d => (.literal d false, cs)
    else if c.toNat < 0x80 then some (.literal c false, cs)
    else none

def readAtom (mode : Mode) : List Char → Option (Atom × List Char)
  | [] => none
  | c :: cs =>
    if c = '\\' then readEscape mode cs
    else if c = '.' then some (.anything, cs)
    else if c = '^' ∨ c = '$' then some (.place false, cs)
    else some (.literal c false, cs)

/-! ### Depths -/

def deepest (depths : List Nat) : Nat := depths.foldl Nat.max 0

/-- The depth of parts in a row: a part alone is not nested. -/
def rowDepth : List Nat → Nat
  | [] => 0
  | [depth] => depth
  | depths => 1 + deepest depths

def depthLimit : Nat := 250

/-! ### Sets -/

structure OpenSet where
  /-- The depth of what stands left of the last operator. -/
  left : Option Nat
  /-- The depths of the members since then. -/
  members : List Nat
  /-- Up to here dashes are members. -/
  fresh : Bool

namespace OpenSet

def empty : OpenSet := ⟨none, [], true⟩

def depth (s : OpenSet) : Nat :=
  match s.left with
  | none => rowDepth s.members
  | some left => 1 + Nat.max left (rowDepth s.members)

def add (s : OpenSet) (depth : Nat) : OpenSet :=
  { s with members := depth :: s.members, fresh := false }

def addDash (s : OpenSet) : OpenSet := { s with members := 0 :: s.members }

/-- The set so far becomes the left side of an operator. -/
def operate (s : OpenSet) : OpenSet := ⟨some s.depth, [], false⟩

end OpenSet

def classNames : List String :=
  ["alnum", "alpha", "ascii", "blank", "cntrl", "digit", "graph", "lower", "print", "punct",
   "space", "upper", "word", "xdigit"]

/-- Reads a class behind its opening bracket, and tells whether it is negated. -/
def readClass? (cs : List Char) : Option (Bool × List Char) :=
  match cs with
  | ':' :: cs =>
    let negated := cs.head? == some '^'
    let cs := if negated then cs.drop 1 else cs
    match cs.dropWhile (· != ':') with
    | ':' :: ']' :: rest =>
      if classNames.contains (String.ofList (cs.takeWhile (· != ':'))) then some (negated, rest)
      else none
    | _ => none
  | _ => none

/-- A class is a member of a set of characters if no cases are asked for, and of a set of bytes
if it is not negated. -/
def isClassAllowed (mode : Mode) (negated : Bool) : Bool :=
  if mode.wide then !mode.anyCase else !negated

/-- Reads the sign that negates a set, which a set of bytes cannot have. -/
def openSet? (mode : Mode) (cs : List Char) : Option (List Char) :=
  match mode.skip cs with
  | '^' :: rest => if mode.wide then some rest else none
  | rest => some rest

def readMemberAtom (mode : Mode) : List Char → Option (Atom × List Char)
  | [] => none
  | c :: cs => if c = '\\' then readEscape mode cs else some (.literal c false, cs)

/-- Reads a member or a range of members.  A dash before a closing bracket or another dash
does not make a range. -/
def readMember (mode : Mode) (cs : List Char) : Option (List Char) := do
  let (first, rest) ← readMemberAtom mode cs
  let rest := mode.skip rest
  let range := match rest with
    | '-' :: after => !([some ']', some '-'].contains (mode.glance? after))
    | _ => false
  if range then
    let (last, rest) ← readMemberAtom mode (mode.skip (rest.drop 1))
    if first.isRange mode last then return rest else none
  else if first.isMember mode then return rest
  else none

/-- Reads on in the innermost of some open sets, up to the end of the outermost, and gives the
depth of that. -/
def readSet (mode : Mode) : Nat → OpenSet → List OpenSet → List Char → Option (Nat × List Char)
  | 0, _, _, _ => none
  | fuel + 1, s, outer, cs => match mode.skip cs with
      | [] => none
      | c :: rest =>
        if s.fresh && (c = '-' || (c = ']' && s.members.isEmpty)) then
          if Atom.isMember mode (.literal c false) then
            readSet mode fuel (if c = '-' then s.addDash else s.add 0) outer rest
          else none
        else if c = '[' then
          match readClass? rest with
          | some (negated, rest) =>
            if isClassAllowed mode negated then readSet mode fuel (s.add 0) outer rest else none
          | none => do readSet mode fuel .empty (s :: outer) (← openSet? mode rest)
        else if c = ']' then
          match outer with
          | [] => some (1 + s.depth, rest)
          | up :: outer => readSet mode fuel (up.add (1 + s.depth)) outer rest
        else if ['&', '-', '~'].contains c && rest.head? == some c then
          readSet mode fuel s.operate outer (rest.drop 1)
        else do readSet mode fuel (s.add 0) outer (← readMember mode (c :: rest))

/-! ### Groups -/

/-- A part of a sequence: a change of mode, or something of a depth. -/
inductive Part where
  | flags
  | node (depth : Nat)

def Part.depth : Part → Nat
  | .flags => 0
  | .node depth => depth

/-- A group, or the pattern as a whole, that is still open. -/
structure Level where
  branches : List Nat
  /-- The parts of the last alternative, the latest first. -/
  parts : List Part

namespace Level

def empty : Level := ⟨[], []⟩

def push (l : Level) (part : Part) : Level := { l with parts := part :: l.parts }

def branchDepth (l : Level) : Nat := rowDepth (l.parts.map Part.depth)

/-- Alternatives are one level of their own. -/
def depth (l : Level) : Nat :=
  if l.branches.isEmpty then l.branchDepth else 1 + deepest (l.branchDepth :: l.branches)

def nextBranch (l : Level) : Level := ⟨l.branchDepth :: l.branches, []⟩

/-- Repeats the last part, which must not be a change of mode. -/
def repeat? (l : Level) : Option Level :=
  match l.parts with
  | .node depth :: parts => some { l with parts := .node (1 + depth) :: parts }
  | _ => none

end Level

structure State where
  mode : Mode
  level : Level
  /-- The modes and levels around the open groups, the innermost first. -/
  outer : List (Mode × Level)
  names : List String

namespace State

def initial : State := ⟨.initial, .empty, [], []⟩

def push (s : State) (part : Part) : State := { s with level := s.level.push part }

def openGroup (s : State) (mode : Mode) : State :=
  { s with mode := mode, level := .empty, outer := (s.mode, s.level) :: s.outer }

def closeGroup? (s : State) : Option State :=
  match s.outer with
  | [] => none
  | (mode, level) :: outer =>
    some { s with mode := mode, level := level.push (.node (1 + s.level.depth)), outer := outer }

/-- A name begins with a letter or a low line; dots, brackets and numbers may follow. -/
def isGroupName : List Char → Bool
  | [] => false
  | c :: cs => (c = '_' || Text.isAlphabetic c)
      && cs.all fun c => ['_', '.', '[', ']'].contains c || Text.isAlphanumeric c

/-- Opens a group with a name, which no other group has. -/
def openNamed (s : State) (cs : List Char) : Option (State × List Char) :=
  let name := String.ofList (cs.takeWhile (· != '>'))
  match cs.dropWhile (· != '>') with
  | [] => none
  | _ :: rest =>
    if isGroupName name.toList && !s.names.contains name then
      some ({ s with names := name :: s.names }.openGroup s.mode, rest)
    else none

/-- Flags change the mode of the rest of a group, or open a group of their own. -/
def openFlagged (s : State) (cs : List Char) : Option (State × List Char) :=
  let letters := cs.takeWhile fun c => c != ':' && c != ')'
  if Mode.isFlags letters then
    let mode := s.mode.withFlags letters
    match cs.dropWhile fun c => c != ':' && c != ')' with
    | ':' :: rest => some (s.openGroup mode, rest)
    | ')' :: rest => if letters.isEmpty then none else some ({ s with mode }.push .flags, rest)
    | _ => none
  else none

def readGroup (s : State) (cs : List Char) : Option (State × List Char) :=
  match s.mode.skip cs with
  | '?' :: 'P' :: '<' :: rest => s.openNamed rest
  | '?' :: '<' :: rest => s.openNamed rest
  | '?' :: rest => s.openFlagged rest
  | rest => some (s.openGroup s.mode, rest)

/-- Reads one part, behind blanks that mean nothing. -/
def step (s : State) (c : Char) (rest : List Char) : Option (State × List Char) :=
  if c = '(' then s.readGroup rest
  else if c = ')' then s.closeGroup?.map (·, rest)
  else if c = '|' then some ({ s with level := s.level.nextBranch }, rest)
  else if c = '[' then do
    let (depth, rest) ← readSet s.mode (rest.length + 1) .empty [] (← openSet? s.mode rest)
    return (s.push (.node depth), rest)
  else if ['?', '*', '+'].contains c then do
    let level ← s.level.repeat?
    return ({ s with level }, if rest.head? == some '?' then rest.drop 1 else rest)
  else if c = '\x7b' then none
  else do
    let (atom, rest) ← readAtom s.mode (c :: rest)
    if atom.isAllowed s.mode then return (s.push (.node 0), rest) else none

def steps : Nat → State → List Char → Option State
  | 0, _, _ => none
  | fuel + 1, s, cs => match s.mode.skip cs with
      | [] => some s
      | c :: rest => do
          let (s, rest) ← s.step c rest
          steps fuel s rest

end State

/-- Whether a text is a pattern: every group is closed, and nothing is nested too deep. -/
def isPattern (text : List Char) : Bool :=
  match State.initial.steps (text.length + 1) text with
  | some s => s.outer.isEmpty && decide (s.level.depth ≤ depthLimit)
  | none => false

end BlFront.Log.Pattern
