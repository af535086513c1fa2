import BlFront.Reactor.Store

/-!
# The reactor

A store of attributes that are written once, and the rules that wait for them.  A rule is
ready when all its dependencies have values.  If a dependency fails, the rule is dropped and
its exports fail with an error derived from the cause, so that one mistake is reported once.
-/

namespace BlFront

abbrev RuleId := Nat

/-- An error and, if it was derived from another, that other. -/
structure ErrorRecord where
  error : SemanticError
  cause : Option ErrorId
  deriving DecidableEq, Repr

/-- A rule that has not run, and the number of its dependencies without a slot. -/
structure Pending where
  rule : Rule
  waiting : Nat

structure Reactor where
  /-- The attributes that have a value or an error, in order of resolution. -/
  store : Store
  errors : List ErrorRecord
  /-- The rules by identity; one that ran or was dropped leaves a gap. -/
  rules : List (Option Pending)
  /-- Which rules wait for which attributes, in order of registration. -/
  waiters : List (Attribute × RuleId)
  /-- The rules that are ready, in the order in which they will run. -/
  queue : List RuleId
  running : Bool
  journal : List Note
  /-- All that happened so far, the latest first. -/
  history : List Occurrence

namespace Reactor

def empty : Reactor := ⟨.empty, [], [], [], [], false, [], []⟩

def record (r : Reactor) (occurrence : Occurrence) : Reactor :=
  { r with history := occurrence :: r.history }

/-! ### Queries -/

def slot? (r : Reactor) (attr : Attribute) : Option Slot := r.store.get? attr

def isResolved (r : Reactor) (attr : Attribute) : Bool := (r.slot? attr).isSome

def get? (r : Reactor) (attr : Attribute) : Option Value :=
  match r.slot? attr with
  | some (.value value) => some value
  | _ => none

def getAs? (r : Reactor) (kind : Kind α) (attr : Attribute) : Option α :=
  (r.get? attr).bind kind.extract

def errorOf? (r : Reactor) (attr : Attribute) : Option ErrorId :=
  match r.slot? attr with
  | some (.error id) => some id
  | _ => none

def values (r : Reactor) : List (Attribute × Value) :=
  r.store.entries.filterMap fun (attr, slot) => match slot with
    | .value value => some (attr, value)
    | .error _ => none

/-- The errors that no other error caused, in order of report. -/
def rootErrors (r : Reactor) : List SemanticError :=
  (r.errors.filter (·.cause.isNone)).map (·.error)

/-- Follows the causes of an error, at most as many as the fuel. -/
def rootFrom? (r : Reactor) : Nat → ErrorId → Option SemanticError
  | 0, _ => none
  | fuel + 1, id => match r.errors[id]? with
      | none => none
      | some record => match record.cause with
          | some cause => rootFrom? r fuel cause
          | none => some record.error

/-- The error at the root of an error.  A cause is older than what it causes. -/
def rootCause? (r : Reactor) (id : ErrorId) : Option SemanticError := r.rootFrom? (id + 1) id

def pendingRules (r : Reactor) : List Pending := r.rules.filterMap id

def pending (r : Reactor) : Nat := r.pendingRules.length

def rule? (r : Reactor) (id : RuleId) : Option Pending := (r.rules[id]?).join

def summary (r : Reactor) : String :=
  "Reactor \x7b attributes: " ++ toString r.store.size ++ ", errors: "
    ++ toString r.errors.length ++ ", pending: " ++ toString r.pending ++ ", running: "
    ++ toString r.running ++ " \x7d"

/-! ### Values -/

def waitersOf (r : Reactor) (attr : Attribute) : List RuleId :=
  (r.waiters.filter (·.1 == attr)).map Prod.snd

/-- Gives a slot to an attribute that has none; nothing waits for it any more. -/
def fill (r : Reactor) (attr : Attribute) (slot : Slot) : Reactor :=
  { r with
    store := r.store.push attr slot
    waiters := r.waiters.filter (·.1 != attr) }

/-- Counts down what a rule waits for; a rule that waits for nothing is ready. -/
def wake (r : Reactor) (id : RuleId) : Reactor :=
  match r.rule? id with
  | none => r
  | some p =>
    let waiting := p.waiting - 1
    { r with
      rules := r.rules.set id (some { p with waiting })
      queue := if waiting = 0 then r.queue ++ [id] else r.queue }

/-- Gives a value to an attribute.  One that failed stays failed, one that has a value must
not get another. -/
def resolve (r : Reactor) (attr : Attribute) (value : Value) : Except ReactorError Reactor :=
  match r.slot? attr with
  | some (.error _) => .ok r
  | some (.value _) => .error (.redefined attr)
  | none => .ok ((r.waitersOf attr).foldl wake (r.fill attr (.value value)))

def seed (r : Reactor) (attr : Attribute) (value : Value) : Except ReactorError Reactor :=
  if r.running then .error .alreadyRunning
  else if r.isResolved attr then .error (.redefined attr)
  else r.resolve attr value

/-! ### Errors -/

def pushError (r : Reactor) (error : SemanticError) (cause : Option ErrorId) :
    ErrorId × Reactor :=
  (r.errors.length, { r with errors := r.errors ++ [⟨error, cause⟩] })

def derive (r : Reactor) (attr : Attribute) (cause : ErrorId) : ErrorId × Reactor :=
  let span := ((r.errors[cause]?).map (·.error.span)).getD .dummy
  r.pushError ⟨span, "missing dependency " ++ toString attr⟩ (some cause)

abbrev Failure := Attribute × ErrorId

/-- Drops a rule that lost a dependency, and adds its exports to what is to fail. -/
def poison (attr : Attribute) (cause : ErrorId) (state : Reactor × List Failure) (id : RuleId) :
    Reactor × List Failure :=
  let (r, work) := state
  match r.rule? id with
  | none => (r, work)
  | some p =>
    let r := { r with rules := r.rules.set id none }.record (.poisoned p.rule.name attr)
    if p.rule.exports.isEmpty then (r, work)
    else
      let (derived, r) := r.derive attr cause
      (r, work ++ p.rule.exports.map (·, derived))

/-- Fails attributes and all that depends on them, first come first served. -/
def failAll : Nat → Reactor → List Failure → Reactor
  | _, r, [] => r
  | 0, r, _ => r
  | fuel + 1, r, (attr, error) :: work =>
    if r.isResolved attr then failAll fuel r work
    else
      let (r, work) := (r.waitersOf attr).foldl (poison attr error) (r.fill attr (.error error), work)
      failAll fuel r work

/-- The number of exports of all pending rules, which bounds how many can be poisoned. -/
def exportCount (r : Reactor) : Nat :=
  r.pendingRules.foldl (fun n p => n + p.rule.exports.length) 0

/-- Fails an attribute and all that depends on it.  An attribute that has a slot keeps it. -/
def fail (r : Reactor) (attr : Attribute) (error : ErrorId) : Reactor :=
  failAll (1 + r.exportCount) r [(attr, error)]

/-- Records an error and fails the attributes that it affects.  It is dropped if all of them
have failed before. -/
def reject (r : Reactor) (error : SemanticError) (affected : List Attribute) : Reactor :=
  if !affected.isEmpty && affected.all (fun attr => (r.errorOf? attr).isSome) then
    r.record (.dropped error)
  else
    let (id, r) := r.pushError error none
    affected.foldl (fun r attr => r.fail attr id) r

/-! ### Rules -/

def firstFailed? (r : Reactor) (attrs : List Attribute) : Option Failure :=
  attrs.findSome? fun attr => (r.errorOf? attr).map (attr, ·)

def await (r : Reactor) (rule : Rule) : Reactor :=
  let id := r.rules.length
  let unresolved := rule.deps.filter fun dep => !r.isResolved dep
  { r with
    rules := r.rules ++ [some ⟨rule, unresolved.length⟩]
    waiters := r.waiters ++ unresolved.map (·, id)
    queue := if unresolved.isEmpty then r.queue ++ [id] else r.queue }

/-- Registers a rule.  If a dependency has failed already, its exports fail instead. -/
def register (r : Reactor) (rule : Rule) : Reactor :=
  let rule := { rule with deps := rule.deps.eraseDups }
  match r.firstFailed? rule.deps with
  | none => r.await rule
  | some (attr, cause) =>
    let r := r.record (.refused rule.name attr)
    if rule.exports.isEmpty then r
    else
      let (derived, r) := r.derive attr cause
      rule.exports.foldl (fun r attr => r.fail attr derived) r

end Reactor

end BlFront
