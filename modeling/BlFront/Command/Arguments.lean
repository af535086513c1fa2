/-!
# Arguments

The words behind the name of the command.  They are read from left to right, and the first
one that is wrong, or that asks for help or for the version, decides.
-/

namespace BlFront.Command

inductive Flag where
  | check
  | quiet
  | emitTokens
  | emitAst
  | emitTypes
  | json
  deriving DecidableEq, Repr

inductive Request where
  | help
  | version
  | run (flags : List Flag) (input : String)
  deriving DecidableEq, Repr

inductive UsageError where
  | unknownFlag (word : String)
  | repeatedFlag (flag : Flag)
  | unneededValue (word : String)
  | extraInput (word : String)
  | emptyInput
  | missingInput
  deriving DecidableEq, Repr

namespace Flag

def name : Flag → String
  | .check => "check"
  | .quiet => "quiet"
  | .emitTokens => "emit-tokens"
  | .emitAst => "emit-ast"
  | .emitTypes => "emit-types"
  | .json => "json"

def all : List Flag := [.check, .quiet, .emitTokens, .emitAst, .emitTypes, .json]

end Flag

namespace UsageError

def message : UsageError → String
  | .unknownFlag word => "unexpected argument '" ++ word ++ "' found"
  | .repeatedFlag flag => "the argument '--" ++ flag.name ++ "' cannot be used multiple times"
  | .unneededValue word => "unexpected value in '" ++ word ++ "'"
  | .extraInput word => "unexpected argument '" ++ word ++ "' found"
  | .emptyInput => "a value is required for '<INPUT>' but none was supplied"
  | .missingInput => "the following required arguments were not provided: <INPUT>"

end UsageError

inductive Switch where
  | flag (flag : Flag)
  | help
  | version

namespace Switch

def ofWord? (word : String) : Option Switch :=
  if word == "help" then some .help
  else if word == "version" then some .version
  else (Flag.all.find? (·.name == word)).map .flag

def ofLetter? : Char → Option Switch
  | 'q' => some (.flag .quiet)
  | 'h' => some .help
  | 'V' => some .version
  | _ => none

end Switch

structure Seen where
  flags : List Flag
  input : Option String

inductive Progress where
  | more (seen : Seen)
  | done (request : Request)

namespace Seen

def turn (s : Seen) : Switch → Except UsageError Progress
  | .help => .ok (.done .help)
  | .version => .ok (.done .version)
  | .flag f =>
    if f ∈ s.flags then .error (.repeatedFlag f)
    else .ok (.more { s with flags := s.flags ++ [f] })

def give (s : Seen) (word : String) : Except UsageError Seen :=
  if s.input.isSome then .error (.extraInput word)
  else if word == "" then .error .emptyInput
  else .ok { s with input := some word }

/-- A word behind two dashes; none of them takes a value. -/
def long (s : Seen) (word : String) : Except UsageError Progress :=
  let name := String.ofList (word.toList.takeWhile (· != '='))
  match Switch.ofWord? name with
  | none => .error (.unknownFlag ("--" ++ word))
  | some switch =>
    if word.contains '=' then .error (.unneededValue ("--" ++ word)) else s.turn switch

def letters (s : Seen) : List Char → Except UsageError Progress
  | [] => .ok (.more s)
  | c :: cs => do
      match Switch.ofLetter? c with
      | none => .error (.unknownFlag ("-" ++ c.toString))
      | some switch =>
        match ← s.turn switch with
        | .done request => .ok (.done request)
        | .more s => letters s cs

/-- One word.  A dash alone is an input. -/
def word (s : Seen) (text : String) : Except UsageError Progress :=
  match text.toList with
  | '-' :: '-' :: rest => s.long (String.ofList rest)
  | '-' :: c :: rest => s.letters (c :: rest)
  | _ => (s.give text).map .more

def finish (s : Seen) : Except UsageError Request :=
  match s.input with
  | some input => .ok (.run s.flags input)
  | none => .error .missingInput

/-- Reads the words that are left.  Behind two dashes alone there are only inputs. -/
def readAll (s : Seen) : List String → Except UsageError Request
  | [] => s.finish
  | text :: rest =>
    if text == "--" then do
      (← rest.foldlM give s).finish
    else do
      match ← s.word text with
      | .done request => .ok request
      | .more s => readAll s rest

end Seen

def Request.ofWords (words : List String) : Except UsageError Request :=
  Seen.readAll ⟨[], none⟩ words

end BlFront.Command
