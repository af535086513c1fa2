import BlFront.Log.Event
import BlFront.Log.Pattern
import BlFront.Text.Utf8

/-!
# Log directives

A directive sets the level up to which some events are shown.  It may name the target of the
events, a span around them, and fields that they have.
-/

namespace BlFront.Log

inductive Fault where
  | meaningless
  /-- A name would begin or end inside a character. -/
  | splitCharacter
  deriving DecidableEq, Repr

/-! ### Fields -/

/-- A field that an event must have, and the value that is asked for. -/
structure Field where
  name : String
  value : Option String
  deriving DecidableEq, Repr

namespace Field

/-- A text that is empty, or an exponent with its mark. -/
def isExponent : List Char → Bool
  | [] => true
  | c :: cs =>
    let digits := match cs with
      | '+' :: rest => rest
      | '-' :: rest => rest
      | _ => cs
    (c = 'e' || c = 'E') && !digits.isEmpty && digits.all Char.isDigit

def isDecimal (cs : List Char) : Bool :=
  let exponent := match cs.dropWhile Char.isDigit with
    | '.' :: rest => rest.dropWhile Char.isDigit
    | rest => rest
  (cs.takeWhile fun c => c.isDigit || c = '.').any Char.isDigit && isExponent exponent

/-- The names of what is a number without digits. -/
def numberNames : List String := ["inf", "infinity", "nan"]

def isNumber (cs : List Char) : Bool :=
  let cs := match cs with
    | '+' :: rest => rest
    | '-' :: rest => rest
    | _ => cs
  numberNames.contains (String.ofList (cs.map Char.toLower)) || isDecimal cs

/-- Reads a field.  Its value, which ends at a second equality sign, is a number or a pattern. -/
def parse (text : List Char) : Except Fault Field :=
  let name := String.ofList (text.takeWhile (· != '='))
  match text.dropWhile (· != '=') with
  | [] => if text.isEmpty then .error .meaningless else .ok ⟨name, none⟩
  | _ :: rest =>
    let value := rest.takeWhile (· != '=')
    if isNumber value || Pattern.isPattern value then .ok ⟨name, some (String.ofList value)⟩
    else .error .meaningless

end Field

/-! ### Directives -/

structure Directive where
  /-- What the target of an event starts with; without it every target will do. -/
  target : Option String
  /-- The name of an open span that has to be around the event. -/
  span : Option String
  fields : List Field
  threshold : Threshold
  deriving DecidableEq, Repr

namespace Directive

def blank : Directive := ⟨none, none, [], Level.trace.rank⟩

/-- The part of a directive that is being read, with the offset at which it starts. -/
inductive Part where
  | start
  | levelOrTarget (start : Nat)
  | span (start : Nat)
  | field (start : Nat)
  | fieldsClosed
  | spanClosed
  | level (start : Nat)

def isStart (c : Char) : Bool := c = '-' || c = ':' || c = '_' || Text.isAlphanumeric c

def slice (text : List Char) (start stop : Nat) : Except Fault (List Char) :=
  match Text.slice? start stop text with
  | some cs => .ok cs
  | none => .error .splitCharacter

def sliceFrom (text : List Char) (start : Nat) : Except Fault (List Char) :=
  match Text.dropBytes? start text with
  | some cs => .ok cs
  | none => .error .splitCharacter

/-- Reads one more character, which stands at an offset of the text. -/
def step (text : List Char) (state : Part × Directive) (offset : Nat) (c : Char) :
    Except Fault (Part × Directive) := do
  let (part, d) := state
  match part with
  | .start =>
    if c = '[' then return (.span (offset + 1), d)
    else if isStart c then return (.levelOrTarget offset, d)
    else throw .meaningless
  | .levelOrTarget start =>
    if c = '=' then
      let target ← slice text start offset
      return (.level (offset + 1), { d with target := some (String.ofList target) })
    else if c = '[' then
      let target ← slice text start offset
      return (.span (offset + 1), { d with target := some (String.ofList target) })
    else return (part, d)
  | .span start =>
    if c = ']' then
      let name ← slice text start offset
      return (.spanClosed, { d with span := some (String.ofList name) })
    else if c = '\x7b' then
      let name ← slice text start offset
      return (.field (offset + 1),
        { d with span := if name.isEmpty then none else some (String.ofList name) })
    else return (part, d)
  | .field start =>
    if c = '\x7d' then
      let field ← Field.parse (← slice text start offset)
      return (.fieldsClosed, { d with fields := d.fields ++ [field] })
    else return (part, d)
  | .fieldsClosed => if c = ']' then return (.spanClosed, d) else throw .meaningless
  | .spanClosed => if c = '=' then return (.level (offset + 1), d) else throw .meaningless
  | .level _ => return (part, d)

def steps (text : List Char) (state : Part × Directive) (offset : Nat) :
    List Char → Except Fault (Part × Directive)
  | [] => .ok state
  | c :: cs => do
      let state ← step text state offset c
      steps text state (offset + c.utf8Size) cs

/-- A part that stands at the end of a directive. -/
def finish (text : List Char) : Part × Directive → Except Fault Directive
  | (.levelOrTarget start, d) => do
      let rest ← sliceFrom text start
      match threshold? rest with
      | some threshold => return { d with threshold }
      | none => return { d with target := some (String.ofList rest) }
  | (.level start, d) => do
      let rest ← sliceFrom text start
      if rest.isEmpty then return d
      match threshold? rest with
      | some threshold => return { d with threshold }
      | none => throw .meaningless
  | (.spanClosed, d) => .ok d
  | _ => .error .meaningless

/-- Reads a directive.  Its form is that of the text without blanks around it; its names are
cut from the text with them. -/
def parse (text : List Char) : Except Fault Directive := do
  finish text (← steps text (.start, blank) 0 (Text.trim text))

/-- Whether the event alone tells if the directive applies. -/
def isStatic (d : Directive) : Bool := d.span.isNone && d.fields.all (·.value.isNone)

def matchesEvent (d : Directive) (e : Event) : Bool :=
  (d.target.all (·.isPrefixOf e.target)) && d.fields.all fun f => e.fieldNames.contains f.name

/-! ### Order -/

/-- A text as a word of numbers; the zero at its end puts it before all longer ones. -/
def sortWord (text : String) : List Nat := text.toList.map (·.toNat + 1) ++ [0]

/-- What directives are ordered by: the length of the target, the number of fields, then the
target and the names of the fields in alphabetical order. -/
def sortKey (d : Directive) : List Nat :=
  (d.target.map (·.utf8ByteSize + 1)).getD 0 :: d.fields.length
    :: (d.target.toList ++ d.fields.map (·.name)).flatMap sortWord

def isBefore : List Nat → List Nat → Bool
  | _, [] => false
  | [], _ :: _ => true
  | a :: as, b :: bs => decide (a < b) || (a == b && isBefore as bs)

/-- Of two directives the one that comes later in their order; of two that agree the second. -/
def moreSpecific (a b : Directive) : Directive := if isBefore b.sortKey a.sortKey then a else b

end Directive

end BlFront.Log
