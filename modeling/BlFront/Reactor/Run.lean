import BlFront.Reactor.Basic

/-!
# Running rules

A run executes the rules that are ready, and those that become so, until none is left; rules
that still wait can never run and are dropped.  A body may start a run inside the run.
-/

namespace BlFront

namespace Reactor

/-- A reactor while a body runs, with what the body has written so far. -/
structure Execution where
  reactor : Reactor
  outputs : List (Attribute × Output)

/-- The result of a part of a body.  What it did to the reactor stays done if it failed. -/
abbrev Step := Except ReactorError Unit × Execution

def noteIn (x : Execution) (note : Note) : Execution :=
  { x with reactor := { x.reactor with journal := x.reactor.journal ++ [note] } }

def view (r : Reactor) (symbols : SymbolTable) (rule : Rule) : View :=
  ⟨rule.name, rule.deps, r.get?, symbols⟩

def applyEffects (rule : Rule) : List Effect → Execution → Step
  | [], x => (.ok (), x)
  | .write attr output :: effects, x =>
    if rule.exports.contains attr then
      applyEffects rule effects { x with outputs := x.outputs ++ [(attr, output)] }
    else (.error (.undeclaredExport rule.name attr), x)
  | .report error :: effects, x =>
    applyEffects rule effects { x with reactor := x.reactor.reject error [] }
  | .note note :: effects, x => applyEffects rule effects (noteIn x note)

/-- Performs one step of a body, given the way to run a reactor inside it. -/
def perform (run : Reactor → Except ReactorError RunStats × Reactor) (symbols : SymbolTable)
    (rule : Rule) : Action → Execution → Step
  | .compute f, x => match f (x.reactor.view symbols rule) with
      | .ok effects => applyEffects rule effects x
      | .error e => (.error e, x)
  | .seed attr value, x => match x.reactor.seed attr value with
      | .ok r => (.ok (), { x with reactor := r })
      | .error e => (.error e, x)
  | .reject error affected, x => (.ok (), { x with reactor := x.reactor.reject error affected })
  | .register inner, x => (.ok (), { x with reactor := x.reactor.register inner })
  | .run, x => match run x.reactor with
      | (.ok stats, r) => (.ok (), noteIn { x with reactor := r } (.ran stats))
      | (.error e, r) => (.error e, { x with reactor := r })
  | .attempt action, x => match perform run symbols rule action x with
      | (.ok (), x) => (.ok (), x)
      | (.error e, x) => (.ok (), noteIn x (.refused e))

def performAll (run : Reactor → Except ReactorError RunStats × Reactor) (symbols : SymbolTable)
    (rule : Rule) : List Action → Execution → Step
  | [], x => (.ok (), x)
  | action :: body, x => match perform run symbols rule action x with
      | (.ok (), x) => performAll run symbols rule body x
      | (.error e, x) => (.error e, x)

/-- Stores what a body has written, up to the first attribute that has a value already. -/
def commit : List (Attribute × Output) → Reactor → Except ReactorError Unit × Reactor
  | [], r => (.ok (), r)
  | (attr, .value value) :: outputs, r => match r.resolve attr value with
      | .ok r => commit outputs r
      | .error e => (.error e, r)
  | (attr, .error error) :: outputs, r => commit outputs (r.reject error [attr])

/-- Runs the body of a rule and stores what it wrote, which must be all its exports. -/
def execute (run : Reactor → Except ReactorError RunStats × Reactor) (symbols : SymbolTable)
    (rule : Rule) (r : Reactor) : Except ReactorError Unit × Reactor :=
  match performAll run symbols rule rule.body ⟨r, []⟩ with
  | (.error e, x) => (.error e, x.reactor)
  | (.ok (), x) =>
    let missing := rule.exports.filter fun attr => !x.outputs.any (·.1 == attr)
    if missing.isEmpty then commit x.outputs x.reactor
    else (.error (.missingExports rule.name missing), x.reactor)

def runBy (drain : Reactor → Except ReactorError Nat × Reactor) (r : Reactor) :
    Except ReactorError RunStats × Reactor :=
  match drain { r with running := true } with
  | (.ok executed, r) =>
    let stats : RunStats := ⟨executed, r.pending⟩
    (.ok stats, { r with running := false, rules := [], waiters := [] }.record
      (.settled stats r.rootErrors.length))
  | (.error e, r) => (.error e, { r with running := false })

/-- Executes ready rules until none is left, and counts them.  A rule that was dropped after
it became ready is passed over. -/
def drain (symbols : SymbolTable) : Nat → Reactor → Except ReactorError Nat × Reactor
  | 0, r => (.ok 0, r)
  | fuel + 1, r => match r.queue with
      | [] => (.ok 0, r)
      | id :: queue => match r.rule? id with
          | none => drain symbols fuel { r with queue := queue }
          | some p =>
            let r := { r with queue := queue, rules := r.rules.set id none }.record
              (.ran p.rule.name p.rule.exports.length)
            match execute (runBy (drain symbols fuel)) symbols p.rule r with
            | (.error e, r) => (.error e, r)
            | (.ok (), r) => match drain symbols fuel r with
                | (.ok executed, r) => (.ok (executed + 1), r)
                | (.error e, r) => (.error e, r)

/-- How often a rule can still become ready: those in the queue, and those that are pending
or that their bodies can bring into being. -/
def fuel (r : Reactor) : Nat := r.queue.length + r.pendingRules.foldl (fun n p => n + p.rule.size) 0

def run (r : Reactor) (symbols : SymbolTable) : Except ReactorError RunStats × Reactor :=
  runBy (drain symbols r.fuel) r

end Reactor

end BlFront
