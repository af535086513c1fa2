import BlFront.Proofs.Reactor.Passes
import BlFront.Proofs.Symbol.Veil

/-!
# Reactors under a veil

A reactor hands a table to the bodies of rules and keeps the places of errors, and decides nothing by
either.  Under a veil, rules see the table without places, and the errors they give are seen at other
places.  Whatever the rules are, what veiled rules do is what the rules themselves do in the bare
table, veiled.
-/

namespace BlFront

open List

variable (V : Veil)

/-! ### Errors and rules -/

def SemanticError.veiled (e : SemanticError) : SemanticError := { e with span := V.place e.span }

@[simp] theorem SemanticError.veiled_mk (span : Span) (message : String) :
    SemanticError.veiled V ⟨span, message⟩ = ⟨V.place span, message⟩ := rfl

def Output.veiled : Output → Output
  | .value v => .value v
  | .error e => .error (e.veiled V)

def Effect.veiled : Effect → Effect
  | .write attr output => .write attr (output.veiled V)
  | .report e => .report (e.veiled V)
  | .note n => .note n

/-- What a rule can read that sees no places in the table. -/
def View.bare (view : View) : View := { view with symbols := view.symbols.bare }

mutual

/-- A computation is done in the bare table, and its errors are veiled. -/
def Action.veiled : Action → Action
  | .compute f => .compute fun view => (f view.bare).map (List.map (Effect.veiled V))
  | .seed attr value => .seed attr value
  | .reject error affected => .reject (error.veiled V) affected
  | .register rule => .register rule.veiled
  | .run => .run
  | .attempt action => .attempt action.veiled

def Rule.veiled : Rule → Rule
  | ⟨name, deps, exports, body⟩ => ⟨name, deps, exports, veiledBody body⟩

def veiledBody : List Action → List Action
  | [] => []
  | action :: body => action.veiled :: veiledBody body

end

namespace Rule

@[simp] theorem name_veiled (rule : Rule) : (rule.veiled V).name = rule.name := by cases rule; rfl

@[simp] theorem deps_veiled (rule : Rule) : (rule.veiled V).deps = rule.deps := by cases rule; rfl

@[simp] theorem exports_veiled (rule : Rule) : (rule.veiled V).exports = rule.exports := by
  cases rule; rfl

@[simp] theorem body_veiled (rule : Rule) : (rule.veiled V).body = veiledBody V rule.body := by
  cases rule; rfl

end Rule

mutual

theorem Action.size_veiled (action : Action) : (action.veiled V).size = action.size := by
  cases action with
  | register rule => exact rule.size_veiled
  | attempt action => exact action.size_veiled
  | _ => rfl

theorem Rule.size_veiled (rule : Rule) : (rule.veiled V).size = rule.size := by
  cases rule with
  | mk name deps exports body => exact congrArg (1 + ·) (bodySize_veiled body)

theorem bodySize_veiled (body : List Action) : bodySize (veiledBody V body) = bodySize body := by
  cases body with
  | nil => rfl
  | cons action body =>
    rw [veiledBody, bodySize, bodySize, action.size_veiled, bodySize_veiled body]

end

/-! ### Reactors -/

def ErrorRecord.veiled (record : ErrorRecord) : ErrorRecord :=
  { record with error := record.error.veiled V }

def Pending.veiled (p : Pending) : Pending := { p with rule := p.rule.veiled V }

def Occurrence.veiled : Occurrence → Occurrence
  | .dropped error => .dropped (error.veiled V)
  | occurrence => occurrence

namespace Reactor

def veiled (r : Reactor) : Reactor :=
  { r with
    errors := r.errors.map (ErrorRecord.veiled V)
    rules := r.rules.map (Option.map (Pending.veiled V))
    history := r.history.map (Occurrence.veiled V) }

variable (r : Reactor)

@[simp] theorem isResolved_veiled (attr : Attribute) :
    (r.veiled V).isResolved attr = r.isResolved attr := rfl

@[simp] theorem rule?_veiled (id : RuleId) :
    (r.veiled V).rule? id = (r.rule? id).map (Pending.veiled V) := by
  rw [rule?, rule?, veiled, List.getElem?_map]
  cases r.rules[id]? <;> rfl

@[simp] theorem pendingRules_veiled :
    (r.veiled V).pendingRules = r.pendingRules.map (Pending.veiled V) := by
  rw [pendingRules, pendingRules, veiled, filterMap_map, map_filterMap]
  rfl

@[simp] theorem rootErrors_veiled :
    (r.veiled V).rootErrors = r.rootErrors.map (SemanticError.veiled V) := by
  rw [rootErrors, rootErrors, veiled, filter_map, map_map, map_map]
  rfl

@[simp] theorem exportCount_veiled : (r.veiled V).exportCount = r.exportCount := by
  rw [exportCount, exportCount, pendingRules_veiled, foldl_map]
  simp only [Pending.veiled, Rule.exports_veiled]

@[simp] theorem fuel_veiled : (r.veiled V).fuel = r.fuel := by
  rw [fuel, fuel, pendingRules_veiled, foldl_map]
  simp only [Pending.veiled, Rule.size_veiled]
  rfl

/-! ### Values -/

theorem wake_veiled (id : RuleId) : (r.veiled V).wake id = (r.wake id).veiled V := by
  rw [wake, wake, rule?_veiled]
  cases r.rule? id with
  | none => rfl
  | some p => simp [veiled, Pending.veiled]

theorem foldl_wake_veiled (ids : List RuleId) :
    ids.foldl wake (r.veiled V) = (ids.foldl wake r).veiled V :=
  foldl_hom (veiled V) fun r id => r.wake_veiled V id

theorem resolve_veiled (attr : Attribute) (value : Value) :
    (r.veiled V).resolve attr value = (r.resolve attr value).map (veiled V) := by
  have slot : (r.veiled V).slot? attr = r.slot? attr := rfl
  rw [resolve, resolve, slot]
  cases r.slot? attr with
  | none => exact congrArg Except.ok (foldl_wake_veiled V (r.fill attr (.value value)) _)
  | some slot => cases slot <;> rfl

theorem seed_veiled (attr : Attribute) (value : Value) :
    (r.veiled V).seed attr value = (r.seed attr value).map (veiled V) := by
  have running : (r.veiled V).running = r.running := rfl
  rw [seed, seed, running, isResolved_veiled, resolve_veiled]
  split
  · rfl
  · split <;> rfl

/-! ### Errors -/

theorem pushError_veiled (error : SemanticError) (cause : Option ErrorId) :
    (r.veiled V).pushError (error.veiled V) cause =
      ((r.pushError error cause).1, (r.pushError error cause).2.veiled V) := by
  simp [pushError, veiled, ErrorRecord.veiled]

/-- An error takes its place from the one that it is derived from. -/
theorem derive_veiled (attr : Attribute) (cause : ErrorId) :
    (r.veiled V).derive attr cause = ((r.derive attr cause).1, (r.derive attr cause).2.veiled V) := by
  have place : (((r.veiled V).errors[cause]?).map (·.error.span)).getD .dummy =
      V.place (((r.errors[cause]?).map (·.error.span)).getD .dummy) := by
    rw [veiled, List.getElem?_map]
    cases r.errors[cause]? with
    | none => exact V.place_dummy.symm
    | some record => rfl
  rw [derive, derive, place]
  exact r.pushError_veiled V ⟨_, _⟩ (some cause)

theorem poison_veiled (attr : Attribute) (cause : ErrorId) (work : List Failure) (id : RuleId) :
    poison attr cause (r.veiled V, work) id =
      ((poison attr cause (r, work) id).1.veiled V, (poison attr cause (r, work) id).2) := by
  rw [poison, poison, rule?_veiled]
  cases r.rule? id with
  | none => rfl
  | some p =>
    have dropped : ({ r.veiled V with rules := (r.veiled V).rules.set id none }).record
          (.poisoned p.rule.name attr) =
        (({ r with rules := r.rules.set id none }).record (.poisoned p.rule.name attr)).veiled V := by
      simp [veiled, record, Occurrence.veiled]
    simp only [Option.map_some, Pending.veiled, Rule.name_veiled, Rule.exports_veiled, dropped,
      derive_veiled]
    split <;> rfl

theorem foldl_poison_veiled (attr : Attribute) (cause : ErrorId) (ids : List RuleId)
    (work : List Failure) :
    ids.foldl (poison attr cause) (r.veiled V, work) =
      Prod.map (veiled V) id (ids.foldl (poison attr cause) (r, work)) := by
  induction ids generalizing r work with
  | nil => rfl
  | cons id ids ih => rw [foldl_cons, foldl_cons, poison_veiled, ih]

theorem failAll_veiled (fuel : Nat) (work : List Failure) :
    failAll fuel (r.veiled V) work = (failAll fuel r work).veiled V := by
  induction fuel generalizing r work with
  | zero => cases work <;> rfl
  | succ fuel ih =>
    cases work with
    | nil => rfl
    | cons failure work =>
      obtain ⟨attr, error⟩ := failure
      have poisoned : ((r.veiled V).waitersOf attr).foldl (poison attr error)
            ((r.veiled V).fill attr (.error error), work) =
          Prod.map (veiled V) id ((r.waitersOf attr).foldl (poison attr error)
            (r.fill attr (.error error), work)) :=
        foldl_poison_veiled V (r.fill attr (.error error)) attr error _ work
      simp only [failAll, isResolved_veiled, poisoned, Prod.map_fst, Prod.map_snd, ih]
      split <;> rfl

theorem foldl_fail_veiled (attrs : List Attribute) (error : ErrorId) :
    attrs.foldl (fun r attr => r.fail attr error) (r.veiled V) =
      (attrs.foldl (fun r attr => r.fail attr error) r).veiled V := by
  refine foldl_hom (veiled V) fun r attr => ?_
  rw [fail, fail, exportCount_veiled, failAll_veiled]

theorem reject_veiled (error : SemanticError) (affected : List Attribute) :
    (r.veiled V).reject (error.veiled V) affected = (r.reject error affected).veiled V := by
  have failed : (r.veiled V).errorOf? = r.errorOf? := rfl
  rw [reject, reject, failed, pushError_veiled]
  split
  · rfl
  · exact foldl_fail_veiled V _ affected _

/-! ### Rules -/

theorem await_veiled (rule : Rule) : (r.veiled V).await (rule.veiled V) = (r.await rule).veiled V := by
  simp [await, veiled, Pending.veiled, isResolved, slot?]

theorem register_veiled (rule : Rule) :
    (r.veiled V).register (rule.veiled V) = (r.register rule).veiled V := by
  have tidied : { rule.veiled V with deps := rule.deps.eraseDups } =
      ({ rule with deps := rule.deps.eraseDups } : Rule).veiled V := by
    cases rule; rfl
  have failed : (r.veiled V).firstFailed? = r.firstFailed? := rfl
  rw [register, register, Rule.deps_veiled, tidied, failed, Rule.deps_veiled]
  cases r.firstFailed? _ with
  | none => exact r.await_veiled V _
  | some failure =>
    obtain ⟨attr, cause⟩ := failure
    have refused : (r.veiled V).record (.refused rule.name attr) =
        (r.record (.refused rule.name attr)).veiled V := rfl
    simp only [Rule.name_veiled, Rule.exports_veiled, refused, derive_veiled, foldl_fail_veiled]
    split <;> rfl

/-! ### Bodies -/

def Execution.veiled (x : Execution) : Execution :=
  ⟨x.reactor.veiled V, x.outputs.map (Prod.map id (Output.veiled V))⟩

/-- What a step leaves, veiled; a fault of a body has no place. -/
def Step.veiled (step : Step) : Step := (step.1, step.2.veiled V)

theorem view_veiled (t : SymbolTable) (rule : Rule) :
    ((r.veiled V).view t (rule.veiled V)).bare = r.view t.bare rule := by
  rw [view, Rule.name_veiled, Rule.deps_veiled]
  rfl

variable {V}
variable {run run' : Reactor → Except ReactorError RunStats × Reactor}

theorem applyEffects_veiled (rule : Rule) (effects : List Effect) (x : Execution) :
    applyEffects (rule.veiled V) (effects.map (Effect.veiled V)) (x.veiled V) =
      Step.veiled V (applyEffects rule effects x) := by
  induction effects generalizing x with
  | nil => rfl
  | cons effect effects ih =>
    cases effect with
    | write attr output =>
      have written : { x.veiled V with
            outputs := (x.veiled V).outputs ++ [(attr, output.veiled V)] } =
          ({ x with outputs := x.outputs ++ [(attr, output)] } : Execution).veiled V := by
        simp [Execution.veiled]
      simp only [map_cons, Effect.veiled, applyEffects, Rule.exports_veiled, written, ih,
        Rule.name_veiled]
      split <;> rfl
    | report error =>
      have reported : { x.veiled V with
            reactor := (x.veiled V).reactor.reject (error.veiled V) [] } =
          ({ x with reactor := x.reactor.reject error [] } : Execution).veiled V :=
        congrArg (Execution.mk · _) (x.reactor.reject_veiled V error [])
      simp only [map_cons, Effect.veiled, applyEffects, reported, ih]
    | note note => exact ih (noteIn x note)

theorem perform_veiled (t : SymbolTable) (rule : Rule)
    (runs : ∀ r, run' (r.veiled V) = ((run r).1, (run r).2.veiled V)) (action : Action)
    (x : Execution) :
    perform run' t (rule.veiled V) (action.veiled V) (x.veiled V) =
      Step.veiled V (perform run t.bare rule action x) := by
  cases action with
  | compute f =>
    have seen : ((x.veiled V).reactor.view t (rule.veiled V)).bare =
        x.reactor.view t.bare rule := x.reactor.view_veiled V t rule
    rw [Action.veiled, perform, perform, seen]
    cases f (x.reactor.view t.bare rule) with
    | error e => rfl
    | ok effects => exact applyEffects_veiled rule effects x
  | seed attr value =>
    have seeded : (x.veiled V).reactor.seed attr value =
        (x.reactor.seed attr value).map (veiled V) := x.reactor.seed_veiled V attr value
    rw [Action.veiled, perform, perform, seeded]
    cases x.reactor.seed attr value <;> rfl
  | reject error affected =>
    exact congrArg (fun r => ((.ok (), ⟨r, (x.veiled V).outputs⟩) : Step))
      (x.reactor.reject_veiled V error affected)
  | register inner =>
    exact congrArg (fun r => ((.ok (), ⟨r, (x.veiled V).outputs⟩) : Step))
      (x.reactor.register_veiled V inner)
  | run =>
    have ran : run' (x.veiled V).reactor = ((run x.reactor).1, (run x.reactor).2.veiled V) :=
      runs x.reactor
    rw [Action.veiled, perform, perform, ran]
    obtain ⟨result, r⟩ := run x.reactor
    cases result <;> rfl
  | attempt action =>
    rw [Action.veiled, perform, perform, perform_veiled t rule runs action x]
    obtain ⟨result, y⟩ := perform run t.bare rule action x
    cases result <;> rfl

theorem performAll_veiled (t : SymbolTable) (rule : Rule)
    (runs : ∀ r, run' (r.veiled V) = ((run r).1, (run r).2.veiled V)) (body : List Action)
    (x : Execution) :
    performAll run' t (rule.veiled V) (veiledBody V body) (x.veiled V) =
      Step.veiled V (performAll run t.bare rule body x) := by
  induction body generalizing x with
  | nil => rfl
  | cons action body ih =>
    rw [veiledBody, performAll, performAll, perform_veiled t rule runs action x]
    obtain ⟨result, y⟩ := perform run t.bare rule action x
    cases result with
    | error e => rfl
    | ok _ => exact ih y

theorem commit_veiled (outputs : List (Attribute × Output)) (r : Reactor) :
    commit (outputs.map (Prod.map id (Output.veiled V))) (r.veiled V) =
      ((commit outputs r).1, (commit outputs r).2.veiled V) := by
  induction outputs generalizing r with
  | nil => rfl
  | cons output outputs ih =>
    obtain ⟨attr, output⟩ := output
    cases output with
    | value value =>
      simp only [map_cons, Prod.map_apply, id_eq, Output.veiled, commit, resolve_veiled]
      cases r.resolve attr value with
      | error e => rfl
      | ok r => exact ih r
    | error error =>
      simp only [map_cons, Prod.map_apply, id_eq, Output.veiled, commit, reject_veiled]
      exact ih _

theorem execute_veiled (t : SymbolTable) (rule : Rule)
    (runs : ∀ r, run' (r.veiled V) = ((run r).1, (run r).2.veiled V)) (r : Reactor) :
    execute run' t (rule.veiled V) (r.veiled V) =
      ((execute run t.bare rule r).1, (execute run t.bare rule r).2.veiled V) := by
  have performed : performAll run' t (rule.veiled V) (rule.veiled V).body ⟨r.veiled V, []⟩ =
      Step.veiled V (performAll run t.bare rule rule.body ⟨r, []⟩) := by
    rw [Rule.body_veiled]
    exact performAll_veiled t rule runs rule.body ⟨r, []⟩
  rw [execute, execute, performed]
  obtain ⟨result, x⟩ := performAll run t.bare rule rule.body ⟨r, []⟩
  cases result with
  | error e => rfl
  | ok _ =>
    have written (attr : Attribute) : (x.veiled V).outputs.any (·.1 == attr) =
        x.outputs.any (·.1 == attr) := by
      rw [Execution.veiled, any_map]
      rfl
    simp only [Step.veiled, Rule.exports_veiled, Rule.name_veiled, written]
    split
    · exact commit_veiled x.outputs x.reactor
    · rfl

/-! ### Runs -/

theorem runBy_veiled {drain drain' : Reactor → Except ReactorError Nat × Reactor}
    (drains : ∀ r, drain' (r.veiled V) = ((drain r).1, (drain r).2.veiled V)) (r : Reactor) :
    runBy drain' (r.veiled V) = ((runBy drain r).1, (runBy drain r).2.veiled V) := by
  have drained := drains { r with running := true }
  have started : { r.veiled V with running := true } =
      ({ r with running := true } : Reactor).veiled V := rfl
  rw [runBy, runBy, started, drained]
  obtain ⟨result, r⟩ := drain { r with running := true }
  cases result with
  | error e => rfl
  | ok executed =>
    have pending : (r.veiled V).pending = r.pending := by simp [pending]
    simp only [pending, rootErrors_veiled, length_map]
    rfl

/-- Rules run in the same order and to the same end. -/
theorem drain_veiled (t : SymbolTable) (fuel : Nat) (r : Reactor) :
    drain t fuel (r.veiled V) = ((drain t.bare fuel r).1, (drain t.bare fuel r).2.veiled V) := by
  -- A run inside a body has less fuel, so the hypothesis is also what bodies need of such runs.
  induction fuel generalizing r with
  | zero => rfl
  | succ fuel ih =>
    have queue : (r.veiled V).queue = r.queue := rfl
    rw [drain, drain, queue]
    cases r.queue with
    | nil => rfl
    | cons id queue =>
      simp only [rule?_veiled]
      cases r.rule? id with
      | none => exact ih { r with queue := queue }
      | some p =>
        have begun : ({ r.veiled V with
              queue := queue, rules := (r.veiled V).rules.set id none }).record
              (.ran p.rule.name p.rule.exports.length) =
            (({ r with queue := queue, rules := r.rules.set id none }).record
              (.ran p.rule.name p.rule.exports.length)).veiled V := by
          simp [veiled, record, Occurrence.veiled]
        simp only [Option.map_some, Pending.veiled, Rule.name_veiled, Rule.exports_veiled,
          begun, execute_veiled t p.rule (runBy_veiled ih)]
        generalize execute _ _ p.rule _ = executed
        obtain ⟨result, r⟩ := executed
        cases result with
        | error e => rfl
        | ok _ =>
          simp only [ih]
          generalize drain _ fuel r = drained
          obtain ⟨result, r⟩ := drained
          cases result <;> rfl

theorem run_veiled (t : SymbolTable) (r : Reactor) :
    (r.veiled V).run t = ((r.run t.bare).1, (r.run t.bare).2.veiled V) := by
  rw [Reactor.run, Reactor.run, fuel_veiled]
  exact runBy_veiled (drain_veiled t r.fuel) r

end Reactor

/-! ### Passes -/

def Request.veiled : Request → Request
  | .seed attr value => .seed attr value
  | .reject error affected => .reject (error.veiled V) affected
  | .register rule => .register (rule.veiled V)
  | .abort error => .abort error

namespace Reactor

variable {V}

theorem performRequest_veiled (r : Reactor) (q : Request) :
    (r.veiled V).performRequest (q.veiled V) = (r.performRequest q).map (veiled V) := by
  cases q with
  | seed attr value => exact r.seed_veiled V attr value
  | reject error affected => exact congrArg Except.ok (r.reject_veiled V error affected)
  | register rule => exact congrArg Except.ok (r.register_veiled V rule)
  | abort error => rfl

theorem performRequests_veiled (r : Reactor) (requests : List Request) :
    (r.veiled V).performRequests (requests.map (Request.veiled V)) =
      (r.performRequests requests).map (veiled V) := by
  induction requests generalizing r with
  | nil => rfl
  | cons q requests ih =>
    rw [performRequests, performRequests, map_cons, foldlM_cons, foldlM_cons,
      performRequest_veiled]
    cases r.performRequest q with
    | error e => rfl
    | ok r => exact ih r

theorem runPass_veiled (r : Reactor) (t : SymbolTable) (requests : List Request) :
    (r.veiled V).runPass t (requests.map (Request.veiled V)) =
      (r.runPass t.bare requests).map (veiled V) := by
  rw [runPass, runPass, performRequests_veiled]
  cases r.performRequests requests with
  | error e => rfl
  | ok r =>
    simp only [Except.map, bind, Except.bind, run_veiled]
    obtain ⟨result, r⟩ := r.run t.bare
    cases result <;> rfl

end Reactor

/-! ### Ways to write a rule -/

theorem Output.ofResult_veiled (result : Except SemanticError Value) :
    Output.ofResult (result.mapError (SemanticError.veiled V)) = (Output.ofResult result).veiled V := by
  cases result <;> rfl

/-- No value that a rule reads has a place. -/
@[simp] theorem View.get_bare {α : Type} (view : View) (kind : Kind α) (attr : Attribute) :
    view.bare.get kind attr = view.get kind attr := rfl

@[simp] theorem View.getAll_bare {α : Type} (view : View) (kind : Kind α) (attrs : List Attribute) :
    view.bare.getAll kind attrs = view.getAll kind attrs := by
  induction attrs with
  | nil => rfl
  | cons attr attrs ih => rw [View.getAll, View.getAll, ih, View.get_bare]

namespace Rule

variable {α : Type} {V}

/-- What is read has no place, so only what is made of it is veiled. -/
theorem bind_veiled {x : Except ReactorError α} {k k' : α → Except ReactorError (List Effect)}
    (same : ∀ a, (k a).map (List.map (Effect.veiled V)) = k' a) :
    (x >>= k).map (List.map (Effect.veiled V)) = x >>= k' := by
  cases x with
  | error e => rfl
  | ok a => exact same a

theorem computing_veiled {name : String} {deps exports : List Attribute}
    {f f' : View → Except ReactorError (List Effect)}
    (same : ∀ view, (f view.bare).map (List.map (Effect.veiled V)) = f' view) :
    (computing name deps exports f).veiled V = computing name deps exports f' :=
  congrArg (computing name deps exports) (funext same)

theorem map_veiled {name : String} {kind : Kind α} {source target : Attribute}
    {f f' : α → SymbolTable → Except SemanticError Value}
    (same : ∀ a t, (f a t.bare).mapError (SemanticError.veiled V) = f' a t) :
    (map name kind source target f).veiled V = map name kind source target f' := by
  refine computing_veiled fun view => bind_veiled fun a => ?_
  rw [← same, Output.ofResult_veiled]
  rfl

theorem copy_veiled (name : String) (source target : Attribute) :
    (copy name source target).veiled V = copy name source target :=
  map_veiled fun _ _ => rfl

theorem flatMap_veiled {name : String} {kind : Kind α} {sources : List Attribute} {target : Attribute}
    {f f' : List α → SymbolTable → Except SemanticError Value}
    (same : ∀ as t, (f as t.bare).mapError (SemanticError.veiled V) = f' as t) :
    (flatMap name kind sources target f).veiled V = flatMap name kind sources target f' := by
  refine computing_veiled fun view => ?_
  rw [View.getAll_bare]
  refine bind_veiled fun as => ?_
  rw [← same, Output.ofResult_veiled]
  rfl

end Rule

/-! ### Passes of rules that see no places -/

namespace Reactor

variable {r r' : Reactor} {t : SymbolTable} {requests : List Request}

theorem veiled_clear (free : r.rules = []) : r.veiled .clear = r := by
  have errors : r.errors.map (ErrorRecord.veiled .clear) = r.errors := map_id _
  have history : r.history.map (Occurrence.veiled .clear) = r.history := by
    refine (map_congr_left fun occurrence _ => ?_).trans (map_id _)
    cases occurrence <;> rfl
  rw [veiled, errors, history, free]
  exact congrArg (fun rules => { r with rules }) free.symm

/-- No rule outlives a pass. -/
theorem rules_of_runPass (passed : r.runPass t requests = .ok r') : r'.rules = [] := by
  obtain ⟨ready, stats, _, ran⟩ := runPass_eq_ok.mp passed
  rw [Reactor.run, runBy] at ran
  split at ran
  · cases ran
    rfl
  · cases ran

/-- A pass of rules that see no places, under a veil, is the pass, and what it leaves is veiled. -/
theorem runPass_blind (free : r.rules = []) (blind : requests.map (Request.veiled .clear) = requests) :
    (r.veiled V).runPass (t.veiled V) (requests.map (Request.veiled V)) =
      (r.runPass t requests).map (veiled V) := by
  -- A clear veil changes only the table, and neither the requests nor a reactor without rules.
  have passed := r.runPass_veiled (V := .clear) t requests
  rw [veiled_clear free, blind] at passed
  rw [runPass_veiled, SymbolTable.bare_veiled, passed]
  cases held : r.runPass t.bare requests with
  | error e => rfl
  | ok r' =>
    have same := veiled_clear (rules_of_runPass held)
    simp only [Except.map, same]

end Reactor

end BlFront
