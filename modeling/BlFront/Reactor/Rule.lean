import BlFront.Reactor.Error
import BlFront.Symbol.Table
import BlFront.Value

/-!
# Rules

A rule reads the attributes it depends on and writes those it exports.  Its body is a finite
script; besides computing, a body may register further rules, and so on to any depth.
-/

namespace BlFront

/-! ### What a body sees and does -/

structure View where
  rule : String
  deps : List Attribute
  lookup : Attribute → Option Value
  symbols : SymbolTable

def View.get (view : View) (kind : Kind α) (attr : Attribute) : Except ReactorError α :=
  if view.deps.contains attr then
    match (view.lookup attr).bind kind.extract with
    | some a => .ok a
    | none => .error (.unexpectedValue attr kind.name)
  else .error (.undeclaredDependency view.rule attr)

def View.getAll (view : View) (kind : Kind α) : List Attribute → Except ReactorError (List α)
  | [] => .ok []
  | attr :: attrs => do
      let a ← view.get kind attr
      return a :: (← view.getAll kind attrs)

/-- What a rule writes to an export: a value, or an error that starts there. -/
inductive Output where
  | value (value : Value)
  | error (error : SemanticError)

def Output.ofResult : Except SemanticError Value → Output
  | .ok v => .value v
  | .error e => .error e

/-- What one run did: how many rules it executed, and how many it dropped because a dependency
never got a value. -/
structure RunStats where
  executed : Nat
  discarded : Nat
  deriving DecidableEq, Repr

inductive Note where
  | entry (label subject : String) (inputs : List Value)
  | found (symbol : Option SymbolId)
  | ran (stats : RunStats)
  | refused (error : ReactorError)

/-- What can happen to rules and errors in the life of a reactor. -/
inductive Occurrence where
  | ran (rule : String) (exports : Nat)
  /-- A pending rule lost a dependency. -/
  | poisoned (rule : String) (attr : Attribute)
  /-- A rule came with a dependency that had failed before. -/
  | refused (rule : String) (attr : Attribute)
  /-- All that an error affects had failed before. -/
  | dropped (error : SemanticError)
  | settled (stats : RunStats) (rootErrors : Nat)

inductive Effect where
  | write (attr : Attribute) (output : Output)
  /-- An error that no attribute depends on. -/
  | report (error : SemanticError)
  | note (note : Note)

mutual

inductive Action where
  | compute (f : View → Except ReactorError (List Effect))
  | seed (attr : Attribute) (value : Value)
  | reject (error : SemanticError) (affected : List Attribute)
  | register (rule : Rule)
  | run
  /-- A failure of the step is noted, and the body goes on. -/
  | attempt (action : Action)

structure Rule where
  name : String
  deps : List Attribute
  exports : List Attribute
  body : List Action

end

mutual

/-- The number of rules that a step can bring into being. -/
def Action.size : Action → Nat
  | .register rule => rule.size
  | .attempt action => action.size
  | _ => 0

/-- One for the rule and one for each that its body can bring into being, to any depth. -/
def Rule.size : Rule → Nat
  | ⟨_, _, _, body⟩ => 1 + bodySize body

def bodySize : List Action → Nat
  | [] => 0
  | action :: body => action.size + bodySize body

end

/-! ### Ways to write a rule -/

namespace Rule

def computing (name : String) (deps exports : List Attribute)
    (f : View → Except ReactorError (List Effect)) : Rule :=
  ⟨name, deps, exports, [.compute f]⟩

def flatMap (name : String) (kind : Kind α) (sources : List Attribute) (target : Attribute)
    (f : List α → SymbolTable → Except SemanticError Value) : Rule :=
  computing name sources [target] fun view => do
    let inputs ← view.getAll kind sources
    return [.write target (.ofResult (f inputs view.symbols))]

def map (name : String) (kind : Kind α) (source target : Attribute)
    (f : α → SymbolTable → Except SemanticError Value) : Rule :=
  computing name [source] [target] fun view => do
    let input ← view.get kind source
    return [.write target (.ofResult (f input view.symbols))]

def copy (name : String) (source target : Attribute) : Rule :=
  map name .value source target fun value _ => .ok value

/-- A body that runs once an attribute has a value; what it does first may depend on that. -/
def on (name : String) (kind : Kind α) (attr : Attribute) (first : α → List Effect)
    (body : List Action) : Rule :=
  ⟨name, [attr], [], .compute (fun view => (view.get kind attr).map first) :: body⟩

/-- The same rule with notes on what its computations were given. -/
def noting (rule : Rule) (notes : View → List Note) : Rule :=
  let noted : Action → Action
    | .compute f => .compute fun view => (f view).map ((notes view).map .note ++ ·)
    | action => action
  { rule with body := rule.body.map noted }

end Rule

end BlFront
