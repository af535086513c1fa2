/-!
# Log events

A run reports what it does as events, each with a level, a target that tells where it comes
from, and named fields.  A threshold is the rank of the last level that is shown.
-/

namespace BlFront.Log

/-! ### Levels -/

inductive Level where
  | error
  | warn
  | info
  | debug
  | trace
  deriving DecidableEq, Repr

namespace Level

def all : List Level := [.error, .warn, .info, .debug, .trace]

def name : Level → String
  | .error => "ERROR"
  | .warn => "WARN"
  | .info => "INFO"
  | .debug => "DEBUG"
  | .trace => "TRACE"

/-- How much a level shows: all levels of a lower or the same rank. -/
def rank : Level → Nat
  | .error => 1
  | .warn => 2
  | .info => 3
  | .debug => 4
  | .trace => 5

end Level

/-- A rank up to which events are shown; zero shows none. -/
abbrev Threshold : Type := Nat

def thresholdOfNumber? (text : List Char) : Option Threshold :=
  let digits := match text with
    | '+' :: rest => rest
    | _ => text
  if digits.isEmpty || !digits.all Char.isDigit then none
  else
    let n := digits.foldl (fun n c => 10 * n + (c.toNat - '0'.toNat)) 0
    if n ≤ Level.trace.rank then some n else none

def thresholdOfName? (text : List Char) : Option Threshold :=
  let name := String.ofList (text.map Char.toUpper)
  if name == "" then some Level.error.rank
  else if name == "OFF" then some 0
  else (Level.all.find? (·.name == name)).map (·.rank)

def threshold? (text : List Char) : Option Threshold :=
  thresholdOfNumber? text <|> thresholdOfName? text

/-! ### Events -/

structure Event where
  level : Level
  target : String
  message : String
  fields : List (String × String)

namespace Event

/-- The message is a field like the others. -/
def fieldNames (e : Event) : List String := "message" :: e.fields.map (·.1)

def text (e : Event) : String :=
  e.level.name ++ " " ++ e.target ++ ": " ++ e.message
    ++ String.join (e.fields.map fun (name, value) => " " ++ name ++ "=" ++ value)

end Event

end BlFront.Log
