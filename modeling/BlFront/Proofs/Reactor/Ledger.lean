import BlFront.Proofs.Reactor.Passes

/-!
# Which errors a pass reports

A pass of rules that only compute reports each error exactly once: those that are certain from the
start, and those that a rule computes from the values that its dependencies have in the end.  The
order of the rules does not matter.

The proof keeps a ledger: the errors that are reported, and for each pending rule those that it will
report, judged by the last state of the pass.  No step changes the sum.
-/

namespace BlFront

open List

/-! ### Errors of rules -/

/-- The errors that an output is. -/
def Output.errors : Output → List SemanticError
  | .value _ => []
  | .error e => [e]

/-- The errors that an effect reports at once. -/
def Effect.reports : Effect → List SemanticError
  | .report e => [e]
  | _ => []

/-- The errors that an effect reports, at once or for an attribute. -/
def Effect.errors : Effect → List SemanticError
  | .write _ output => output.errors
  | .report e => [e]
  | .note _ => []

/-- Errors are reported first, and attributes are written afterwards. -/
theorem errors_perm (effects : List Effect) : (effects.flatMap Effect.errors).Perm
    (effects.flatMap Effect.reports ++ (writes effects).flatMap fun w => w.2.errors) := by
  induction effects with
  | nil => exact .refl _
  | cons effect effects ih =>
    cases effect with
    | write attr output =>
      have first : writes (.write attr output :: effects) = (attr, output) :: writes effects := rfl
      rw [flatMap_cons, flatMap_cons, first, flatMap_cons]
      exact (ih.append_left output.errors).trans (perm_append_comm_assoc _ _ _)
    | report e => exact ih.cons e
    | note note => exact ih

variable {effects : List Effect}

namespace Rule

/-- The errors that the steps of a body compute. -/
def bodyErrors (view : View) : List Action → List SemanticError
  | [] => []
  | .compute f :: body => match f view with
      | .ok effects => effects.flatMap Effect.errors ++ bodyErrors view body
      | .error _ => bodyErrors view body
  | _ :: body => bodyErrors view body

/-- The errors that a rule reports, given which values attributes have in the end. -/
def errors (symbols : SymbolTable) (values : Attribute → Option Value) (rule : Rule) :
    List SemanticError :=
  if rule.deps.all fun d => (values d).isSome then
    bodyErrors ⟨rule.name, rule.deps, values, symbols⟩ rule.body
  else []

variable {symbols : SymbolTable} {values : Attribute → Option Value} {rule : Rule}

theorem errors_of_open {d : Attribute} (dep : d ∈ rule.deps) (none : values d = none) :
    rule.errors symbols values = [] := by
  refine if_neg fun all => ?_
  have found := all_eq_true.mp all d dep
  rw [none] at found
  cases found

theorem errors_eq {f : View → Except ReactorError (List Effect)}
    (body : rule.body = [.compute f]) (found : ∀ d ∈ rule.deps, (values d).isSome)
    (result : f ⟨rule.name, rule.deps, values, symbols⟩ = .ok effects) :
    rule.errors symbols values = effects.flatMap Effect.errors := by
  rw [errors, if_pos (all_eq_true.mpr found), body]
  simp [bodyErrors, result]

/-- The errors of a rule whose dependencies have values. -/
theorem errors_of_computes {held : Attribute → Value}
    (found : ∀ d ∈ rule.deps, values d = some (held d))
    (computes : rule.Computes symbols held effects) :
    rule.tidied.errors symbols values = effects.flatMap Effect.errors := by
  obtain ⟨f, body, result⟩ := computes
  refine errors_eq body (fun d hd => ?_) (result values found)
  rw [found d (mem_deps_tidied.mp hd)]
  rfl

end Rule

/-! ### Views -/

section Views

variable {α : Type} {symbols : SymbolTable} {lookup : Attribute → Option Value}

/-- A rule that cannot fail reports nothing. -/
theorem Rule.flatMap_silent (name : String) (kind : Kind α) (sources : List Attribute)
    (target : Attribute) {f : List α → SymbolTable → Except SemanticError Value}
    (succeeds : ∀ as, ∃ v, f as symbols = .ok v) :
    (Rule.flatMap name kind sources target f).tidied.errors symbols lookup = [] := by
  unfold Rule.errors
  split
  · simp only [Rule.flatMap, Rule.computing, Rule.tidied, Rule.bodyErrors]
    cases View.getAll ⟨name, sources.eraseDups, lookup, symbols⟩ kind sources with
    | error e => rfl
    | ok as =>
      obtain ⟨v, result⟩ := succeeds as
      simp [bind, Except.bind, pure, Except.pure, result, Output.ofResult, Effect.errors,
        Output.errors]
  · rfl

end Views

/-- The rule is one whose effects are decided by values that may be held, as it is registered. -/
def Outlook.Settles (M : Outlook) (rule : Rule) : Prop :=
  ∃ given, M.Decides given ∧ given.tidied = rule

/-- The errors that come of a request. -/
def Request.errors (symbols : SymbolTable) (values : Attribute → Option Value) :
    Request → List SemanticError
  | .reject e _ => [e]
  | .register rule => rule.tidied.errors symbols values
  | _ => []

namespace Reactor

/-! ### The ledger -/

section Ledger

variable (M : Outlook) (values : Attribute → Option Value)

/-- The errors that pending rules will report, given which values attributes have in the end. -/
def owed (r : Reactor) : List SemanticError :=
  r.held.flatMap (Rule.errors M.symbols values)

/-- The errors that are reported and those that will be. -/
def ledger (r : Reactor) : List SemanticError := r.rootErrors ++ r.owed M values

/-- All pending rules are decided. -/
def Decided (r : Reactor) : Prop := ∀ rule ∈ r.held, M.Settles rule

/-- From one state to the next some errors come to the ledger. -/
structure Adds (new : List SemanticError) (r r' : Reactor) : Prop where
  sum : (r'.ledger M values).Perm (r.ledger M values ++ new)
  decided : r.Decided M → r'.Decided M

/-- What has a slot has come to what it is in the end. -/
structure Foreseen (r : Reactor) : Prop where
  value : ∀ {attr v}, r.get? attr = some v → values attr = some v
  error : ∀ {attr e}, r.errorOf? attr = some e → values attr = none

end Ledger

variable {M : Outlook} {reserved : List Attribute}
  {values : Attribute → Option Value} {r r' r'' : Reactor} {new new' : List SemanticError}

theorem Foreseen.before (h : r'.Foreseen values) (keeps : r.Extends r') : r.Foreseen values :=
  ⟨fun hv => h.value (keeps.get? hv), fun he => h.error (keeps.errorOf? he)⟩

theorem foreseen_get? (r : Reactor) : r.Foreseen r.get? := by
  refine ⟨id, fun {attr e} failed => ?_⟩
  rw [get?, errorOf?_eq_some.mp failed]

theorem Adds.trans (first : Adds M values new r r') (second : Adds M values new' r' r'') :
    Adds M values (new ++ new') r r'' := by
  refine ⟨?_, fun h => second.decided (first.decided h)⟩
  rw [← append_assoc]
  exact second.sum.trans (first.sum.append_right new')

theorem Adds.perm (h : Adds M values new r r') (same : new.Perm new') :
    Adds M values new' r r' :=
  ⟨h.sum.trans (same.append_left _), h.decided⟩

theorem noting_adds (r : Reactor) (running : Bool) (journal : List Note) (history : List Occurrence) :
    Adds M values [] r { r with running := running, journal := journal, history := history } :=
  ⟨by rw [append_nil]; exact .refl _, id⟩

theorem Adds.refl (r : Reactor) : Adds M values [] r r :=
  noting_adds r r.running r.journal r.history

/-! ### Moves -/

variable {rule : Rule}

/-- A rule that is lost would not have reported anything. -/
theorem Lost.silent (lost : r.Lost rule) (foreseen : r.Foreseen values) :
    rule.errors M.symbols values = [] := by
  obtain ⟨d, dep, failed⟩ := lost.dep
  obtain ⟨e, failed⟩ := Option.isSome_iff_exists.mp failed
  exact Rule.errors_of_open dep (foreseen.error failed)

/-- A request brings its own error to the ledger, and those of the rule that it adds. -/
theorem Outcome.adds {m : Move} (outcome : Outcome m r r') (still : m.leaving r = [])
    (decided : ∀ rule, m.added? = some rule → M.Settles rule) (foreseen : r'.Foreseen values) :
    Adds M values (m.roots r ++ m.added?.toList.flatMap (Rule.errors M.symbols values)) r r' := by
  obtain ⟨lost, sum, poisoned⟩ := outcome.turnover
  have silent : lost.flatMap (Rule.errors M.symbols values) = [] :=
    flatMap_eq_nil_iff.mpr fun rule mem => (poisoned rule mem).lost.silent foreseen
  have owed := sum.flatMap_right (Rule.errors M.symbols values)
  rw [still, nil_append, flatMap_append, flatMap_append, silent,
    nil_append] at owed
  refine ⟨?_, fun old rule mem => ?_⟩
  · rw [ledger, ledger, outcome.roots, append_assoc, append_assoc]
    refine List.Perm.append_left _ ?_
    exact (owed.symm.append_left _).trans (perm_append_comm_assoc _ _ _)
  · rcases outcome.waits rule (mem_held.mp mem) with waits | added
    · exact old rule (mem_held.mpr waits)
    · exact decided rule added

theorem Healthy.reject_adds {affected : List Attribute} (h : r.Healthy M (affected ++ reserved))
    (error : SemanticError) (foreseen : (r.reject error affected).Foreseen values) :
    Adds M values [error] r (r.reject error affected) := by
  have outcome := (h.orderly.reject error affected).2
  have adds : Adds M values _ r (r.reject error affected) :=
    outcome.adds rfl (fun _ added => by cases added) foreseen
  rwa [Move.roots, h.accepts, if_pos rfl] at adds

theorem Orderly.register_adds (h : r.Orderly)
    (decides : M.Decides rule) (foreseen : (r.register rule).Foreseen values) :
    Adds M values (rule.tidied.errors M.symbols values) r (r.register rule) := by
  have outcome := (h.register rule).2
  have adds := outcome.adds rfl (fun _ added => ⟨rule, decides, Option.some.inj added⟩) foreseen
  exact adds.perm (by simp [Move.roots, Move.added?])

theorem Orderly.resolve_adds {attr : Attribute} {v : Value} (h : r.Orderly)
    (resolved : r.resolve attr v = .ok r') (foreseen : r'.Foreseen values) :
    Adds M values [] r r' :=
  (h.resolve (m := .write attr v) (.inr rfl) resolved).adds rfl (fun _ added => by cases added)
    foreseen

/-! ### Rules -/

theorem Healthy.applyEffects_adds (h : r.Healthy M reserved)
    (declared : ∀ w ∈ writes effects, w.1 ∈ rule.exports) {outs outs' : List (Attribute × Output)}
    (applied : Reactor.applyEffects rule effects ⟨r, outs⟩ = (.ok (), ⟨r', outs'⟩))
    (foreseen : r'.Foreseen values) :
    Adds M values (effects.flatMap Effect.reports) r r' := by
  induction effects generalizing r outs with
  | nil =>
    cases applied
    exact .refl _
  | cons effect effects ih =>
    cases effect with
    | write attr output =>
      have exported : attr ∈ rule.exports :=
        declared (attr, output) (by simp [writes, Effect.write?])
      rw [Reactor.applyEffects, if_pos (by simpa using exported)] at applied
      exact ih h (fun w hw => declared w (.tail _ hw)) applied
    | report error =>
      have unaffected : r.Healthy M ([] ++ reserved) := h
      obtain ⟨rejected, -⟩ := unaffected.reject (by simp) error
      have others : ∀ w ∈ writes effects, w.1 ∈ rule.exports := declared
      obtain ⟨r₁, hr₁, -, advances, -⟩ := rejected.applyEffects others outs
      rw [Reactor.applyEffects] at applied
      cases hr₁.symm.trans applied
      exact (unaffected.reject_adds error (foreseen.before advances.keeps)).trans
        (ih rejected others applied)
    | note note =>
      rw [Reactor.applyEffects] at applied
      have noted := h.congr r.running (r.journal ++ [note]) r.history
      exact (noting_adds r r.running _ r.history).trans (ih noted declared applied)

theorem Healthy.commit_adds {outputs : List (Attribute × Output)}
    (h : r.Healthy M (outputs.map Prod.fst ++ reserved))
    (allowed : ∀ w ∈ outputs, M.Allows w.1 w.2)
    (committed : Reactor.commit outputs r = (.ok (), r')) (foreseen : r'.Foreseen values) :
    Adds M values (outputs.flatMap fun w => w.2.errors) r r' := by
  induction outputs generalizing r with
  | nil =>
    cases committed
    exact .refl _
  | cons w outputs ih =>
    obtain ⟨attr, output⟩ := w
    have here : M.Allows attr output := allowed (attr, output) (by simp)
    have rest : ∀ w ∈ outputs, M.Allows w.1 w.2 := fun w hw => allowed w (by simp [hw])
    cases output with
    | value v =>
      obtain ⟨r₁, hr₁, healthy, -⟩ := h.resolve here
      rw [Reactor.commit, hr₁] at committed
      obtain ⟨r₂, hr₂, -, advances, -⟩ := healthy.commit rest
      cases hr₂.symm.trans committed
      exact (h.orderly.resolve_adds hr₁ (foreseen.before advances.keeps)).trans
        (ih healthy rest committed)
    | error error =>
      have affected : r.Healthy M ([attr] ++ (outputs.map Prod.fst ++ reserved)) := h
      have fails : ∀ x ∈ [attr], M.fails x := forall_mem_singleton.mpr here
      obtain ⟨healthy, -⟩ := affected.reject fails error
      rw [Reactor.commit] at committed
      obtain ⟨r₁, hr₁, -, advances, -⟩ := healthy.commit rest
      cases hr₁.symm.trans committed
      exact (affected.reject_adds error (foreseen.before advances.keeps)).trans
        (ih healthy rest committed)

/-- A rule that runs reports what it was expected to. -/
theorem Healthy.execute_adds (h : r.Healthy M (rule.targets ++ reserved))
    (admits : M.Admits rule) (settles : M.Settles rule)
    (ready : ∀ d ∈ rule.deps, ∃ v, r.get? d = some v)
    (run : Reactor → Except ReactorError RunStats × Reactor)
    (executed : Reactor.execute run M.symbols rule r = (.ok (), r')) (foreseen : r'.Foreseen values) :
    Adds M values (rule.errors M.symbols values) r r' := by
  obtain ⟨r₁, hr₁, -, advances, -⟩ := h.execute admits ready run
  cases hr₁.symm.trans executed
  obtain ⟨given, decides, rfl⟩ := settles
  have found : ∀ d ∈ given.deps, r.get? d = some ((r.get? d).getD (.flag false)) := by
    intro d hd
    obtain ⟨v, hv⟩ := ready d (Rule.mem_deps_tidied.mpr hd)
    rw [hv]
    rfl
  obtain ⟨effects, computes, written, allows⟩ :=
    decides.computes _ fun d hd => h.holds (found d hd)
  obtain ⟨f, body, result⟩ := id computes
  have written : (writes effects).map Prod.fst = given.tidied.exports := written
  have declared : ∀ w ∈ writes effects, w.1 ∈ given.tidied.exports := fun w hw =>
    written ▸ mem_map_of_mem hw
  have expected : given.tidied.errors M.symbols values = effects.flatMap Effect.errors :=
    Rule.errors_of_computes (fun d hd => foreseen.value (advances.keeps.get? (found d hd))) computes
  have spawns : given.tidied.Spawns f [] := body
  have targets : given.tidied.targets = (writes effects).map Prod.fst := by
    rw [spawns.targets, written, flatMap_nil, append_nil]
  rw [targets] at h
  obtain ⟨r₂, hr₂, healthy, -⟩ := h.applyEffects declared []
  obtain ⟨r₃, hr₃, -, advances', -⟩ := healthy.commit allows
  have performed : performAll run M.symbols given.tidied given.tidied.body ⟨r, []⟩ =
      (.ok (), ⟨r₂, writes effects⟩) := by
    rw [show given.tidied.body = [.compute f] from body, performAll, perform]
    simp only [view, result _ found, hr₂, nil_append]
    rfl
  have last : r₃ = r' := by
    simp only [Reactor.execute, performed, missing_eq_nil written, isEmpty_nil, if_true,
      hr₃] at executed
    cases executed
    rfl
  subst last
  rw [expected]
  refine Adds.perm ?_ (errors_perm effects).symm
  exact (h.applyEffects_adds declared hr₂ (foreseen.before advances'.keeps)).trans
    (healthy.commit_adds allows hr₃ foreseen)

/-! ### Runs -/

theorem ledger_pop {id : RuleId} {p : Pending} (found : r.rule? id = some p) (queue : List RuleId) :
    (r.ledger M values).Perm
      ((r.pop id queue).ledger M values ++ p.rule.errors M.symbols values) := by
  have split : (r.owed M values).Perm
      (p.rule.errors M.symbols values ++ (r.pop id queue).owed M values) :=
    (held_pop found queue).flatMap_right _
  rw [ledger, ledger, append_assoc]
  exact (split.trans perm_append_comm).append_left _

/-- What rules report while the queue is emptied was on the ledger before. -/
theorem Healthy.drain_adds {fuel n : Nat} (h : r.Healthy M reserved) (enough : r.load ≤ fuel)
    (decided : r.Decided M) (drained : Reactor.drain M.symbols fuel r = (.ok n, r'))
    (foreseen : r'.Foreseen values) : Adds M values [] r r' := by
  induction fuel generalizing r n with
  | zero =>
    cases drained
    exact .refl _
  | succ fuel ih =>
    cases hq : r.queue with
    | nil =>
      simp only [Reactor.drain, hq, Prod.mk.injEq] at drained
      rw [← drained.2]
      exact .refl _
    | cons id queue =>
      obtain ⟨p, hp, _⟩ := (h.consistent.mem_queue id).mp (by simp [hq])
      obtain ⟨begun, admits, ready⟩ := h.start hq hp
      have rules := held_pop hp queue
      have settles : M.Settles p.rule := decided _ (rules.symm.subset (.head _))
      obtain ⟨r₁, hr₁, healthy, advances, -, load⟩ :=
        begun.execute admits ready (runBy (Reactor.drain M.symbols fuel))
      have split := load_pop hp queue
      have fits : r₁.load ≤ fuel := by
        have same : ((r.pop id queue).record
          (.ran p.rule.name p.rule.exports.length)).load = (r.pop id queue).load := rfl
        omega
      obtain ⟨m, r₂, hr₂, -, advances', -⟩ := healthy.drain fits
      have last : r₂ = r' := by
        have step : Reactor.execute (runBy (Reactor.drain M.symbols fuel)) M.symbols p.rule
            ({ r with queue := queue, rules := r.rules.set id none }.record
              (.ran p.rule.name p.rule.exports.length)) = (.ok (), r₁) := hr₁
        simp only [Reactor.drain, hq, hp] at drained
        rw [step] at drained
        simp only [hr₂, Prod.mk.injEq] at drained
        exact drained.2
      subst last
      have ran := begun.execute_adds admits settles ready _ hr₁ (foreseen.before advances'.keeps)
      have others : ((r.pop id queue).record
          (.ran p.rule.name p.rule.exports.length)).Decided M := fun rule mem =>
        decided rule (rules.symm.subset (.tail _ mem))
      have first : Adds M values [] r r₁ := by
        refine ⟨?_, fun _ => ran.decided others⟩
        rw [append_nil]
        exact ran.sum.trans (ledger_pop hp queue).symm
      exact first.trans (ih healthy fits (ran.decided others) hr₂)

/-- Rules that are left over at the end of a run wait for something that never got a value. -/
theorem Healthy.run_adds (h : r.Healthy M []) (decided : r.Decided M) {stats : RunStats}
    (ran : r.run M.symbols = (.ok stats, r')) :
    Adds M r'.get? [] r r' := by
  have started : ({ r with running := true } : Reactor).Healthy M [] := h.congr true _ _
  have enough : ({ r with running := true } : Reactor).load ≤ r.fuel := load_le_fuel r
  obtain ⟨n, r₁, hr₁, healthy, -, empty⟩ := started.drain enough
  simp only [Reactor.run, runBy, hr₁, Prod.mk.injEq, Except.ok.injEq] at ran
  have same : r₁.get? = r'.get? := by
    rw [← ran.2]
    rfl
  have foreseen : r₁.Foreseen r'.get? := same ▸ foreseen_get? r₁
  have drained := started.drain_adds enough decided hr₁ foreseen
  have silent : r₁.owed M r'.get? = [] := by
    refine flatMap_eq_nil_iff.mpr fun rule held => ?_
    obtain ⟨⟨d, hd, opened⟩, -⟩ := healthy.stuck empty (mem_held.mp held)
    refine Rule.errors_of_open hd ?_
    rw [← same, get?, opened]
  refine ⟨?_, fun _ rule mem => ?_⟩
  · have kept : r'.ledger M r'.get? = r₁.rootErrors := by
      rw [← ran.2]
      exact append_nil _
    have all := drained.sum
    rw [ledger, silent, append_nil] at all
    rw [kept]
    exact all
  · rw [← ran.2] at mem
    cases mem

/-! ### Passes -/

theorem Healthy.performRequest_adds {q : Request} (h : r.Healthy M (q.targets ++ reserved))
    (idle : r.running = false) (admitted : q.Admitted M)
    (decided : ∀ rule, q = .register rule → M.Decides rule)
    (performed : r.performRequest q = .ok r') (foreseen : r'.Foreseen values) :
    Adds M values (q.errors M.symbols values) r r' := by
  cases q with
  | seed attr v =>
    have unresolved : r.isResolved attr = false :=
      isResolved_eq_false.mpr (h.fresh attr (by simp [Request.targets]))
    have resolved : r.resolve attr v = .ok r' := by
      simpa [Reactor.performRequest, Reactor.seed, idle, unresolved] using performed
    exact h.orderly.resolve_adds resolved foreseen
  | reject error affected =>
    cases performed
    exact Healthy.reject_adds h error foreseen
  | register rule =>
    cases performed
    exact h.orderly.register_adds (decided rule rfl) foreseen
  | abort error => exact admitted.elim

variable {requests : List Request}

theorem Healthy.performRequests_adds
    (h : r.Healthy M (requests.flatMap Request.targets ++ reserved)) (idle : r.running = false)
    (admitted : ∀ q ∈ requests, q.Admitted M)
    (decided : ∀ rule, .register rule ∈ requests → M.Decides rule)
    (performed : r.performRequests requests = .ok r') (foreseen : r'.Foreseen values) :
    Adds M values (requests.flatMap (Request.errors M.symbols values)) r r' := by
  induction requests generalizing r with
  | nil =>
    cases performed
    exact .refl _
  | cons q requests ih =>
    rw [flatMap_cons, append_assoc] at h
    obtain ⟨r₁, hr₁, healthy, advances, -⟩ := h.performRequest idle (admitted q (by simp))
    have idle' := advances.running.trans idle
    have admitted' : ∀ q ∈ requests, q.Admitted M := fun q hq => admitted q (by simp [hq])
    rw [Reactor.performRequests, foldlM_cons, hr₁] at performed
    obtain ⟨r₂, hr₂, -, advances', -⟩ := healthy.performRequests idle' admitted'
    cases hr₂.symm.trans performed
    have first := h.performRequest_adds idle (admitted q (by simp))
      (fun rule same => decided rule (by simp [same])) hr₁ (foreseen.before advances'.keeps)
    exact first.trans
      (ih healthy idle' admitted' (fun rule mem => decided rule (by simp [mem])) performed)

/-- The errors of a pass are those of its requests, each once, judged by the values that are there
in the end. -/
theorem Settled.rootErrors_perm (h : r.Settled M)
    (nodup : (requests.flatMap Request.targets).Nodup)
    (fresh : ∀ attr ∈ requests.flatMap Request.targets, r.slot? attr = none)
    (admitted : ∀ q ∈ requests, q.Admitted M)
    (decided : ∀ rule, .register rule ∈ requests → M.Decides rule)
    (passed : r.runPass M.symbols requests = .ok r') :
    r'.rootErrors.Perm
      (r.rootErrors ++ requests.flatMap (Request.errors M.symbols r'.get?)) := by
  obtain ⟨ready, stats, performed, ran⟩ := runPass_eq_ok.mp passed
  have reserved : r.Healthy M (requests.flatMap Request.targets ++ []) := by
    rw [append_nil]
    exact h.reserve nodup fresh
  obtain ⟨ready', hready, healthy, -⟩ := reserved.performRequests h.resting.idle admitted
  cases hready.symm.trans performed
  obtain ⟨stats', r₁, hr₁, -, resting, keeps, -⟩ := healthy.run
  obtain rfl : r₁ = r' := (Prod.mk.inj (hr₁.symm.trans ran)).2
  have requested := reserved.performRequests_adds h.resting.idle admitted decided performed
    ((foreseen_get? r₁).before keeps)
  have none : r.Decided M := fun rule mem => by
    simp [held, pendingRules, h.resting.rules] at mem
  have both := requested.trans (healthy.run_adds (requested.decided none) ran)
  have unowed : ∀ {s : Reactor}, s.Resting → s.ledger M r₁.get? = s.rootErrors := by
    intro s rests
    simp [ledger, owed, held, pendingRules, rests.rules]
  simpa [unowed resting, unowed h.resting] using both.sum

end Reactor

end BlFront
