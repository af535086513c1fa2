import BlFront.Proofs.Reactor.Ledger
import BlFront.Proofs.Reactor.Lives

/-!
# Rules that are ready at once

If all that the rules of a pass read is known before the pass, every rule goes straight to the end of
the queue.  So the rules run in the order in which they are registered, none is left over, and what
they report comes in that order behind the errors that were certain from the start.
-/

namespace BlFront

open List

variable {rules : List Rule} {rule : Rule}

/-! ### Rules that only report -/

/-- The rule has all that it reads, and does nothing but report some errors. -/
structure Rule.Utters (symbols : SymbolTable) (values : Attribute → Option Value) (rule : Rule)
    (errors : List SemanticError) : Prop where
  ready : ∀ d ∈ rule.deps, ∃ v, values d = some v
  exports : rule.exports = []
  body : ∃ f, rule.body = [.compute f] ∧
    f ⟨rule.name, rule.deps, values, symbols⟩ = .ok (errors.map .report)

namespace Request

/-- The errors that a request reports at once. -/
def certain : Request → List SemanticError
  | .reject error _ => [error]
  | _ => []

/-- The errors that the rule of a request reports when it runs. -/
def owed (symbols : SymbolTable) (values : Attribute → Option Value) : Request → List SemanticError
  | .register rule => rule.tidied.errors symbols values
  | _ => []

/-- The request concerns no attribute: it is a certain error, or a rule that only reports. -/
def Prompt (symbols : SymbolTable) (values : Attribute → Option Value) : Request → Prop
  | .reject _ affected => affected = []
  | .register rule => ∃ errors, rule.tidied.Utters symbols values errors
  | _ => False

end Request

theorem Rule.Utters.errors_eq {symbols : SymbolTable} {values : Attribute → Option Value}
    {errors : List SemanticError} (h : rule.Utters symbols values errors) :
    rule.errors symbols values = errors := by
  obtain ⟨f, body, result⟩ := h.body
  have found : ∀ d ∈ rule.deps, (values d).isSome := fun d hd => by
    obtain ⟨v, hv⟩ := h.ready d hd
    rw [hv, Option.isSome_some]
  rw [Rule.errors_eq body found result, flatMap_map]
  exact flatMap_singleton' errors

namespace Reactor

variable {r r' : Reactor} {symbols : SymbolTable}

/-- The reactor with some more root errors. -/
def reporting (r : Reactor) (errors : List SemanticError) : Reactor :=
  { r with errors := r.errors ++ errors.map (⟨·, none⟩) }

theorem reject_nil (r : Reactor) (error : SemanticError) :
    r.reject error [] = r.reporting [error] := rfl

theorem reporting_append (r : Reactor) (errors more : List SemanticError) :
    (r.reporting errors).reporting more = r.reporting (errors ++ more) := by
  simp [reporting]

theorem rootErrors_reporting (r : Reactor) (errors : List SemanticError) :
    (r.reporting errors).rootErrors = r.rootErrors ++ errors := by
  simp [reporting, rootErrors, filter_map, Function.comp_def]

theorem applyEffects_report (rule : Rule) (errors : List SemanticError) (r : Reactor)
    (outputs : List (Attribute × Output)) :
    applyEffects rule (errors.map .report) ⟨r, outputs⟩ = (.ok (), ⟨r.reporting errors, outputs⟩) := by
  induction errors generalizing r with
  | nil => simp [applyEffects, reporting]
  | cons error errors ih =>
    rw [map_cons, applyEffects, reject_nil, ih, reporting_append, singleton_append]

theorem execute_utters {run : Reactor → Except ReactorError RunStats × Reactor}
    {errors : List SemanticError} (h : rule.Utters symbols r.get? errors) :
    execute run symbols rule r = (.ok (), r.reporting errors) := by
  obtain ⟨f, body, result⟩ := h.body
  have computed : f (r.view symbols rule) = .ok (errors.map .report) := result
  simp only [execute, body, performAll, perform, computed, applyEffects_report, h.exports, commit,
    filter_nil, isEmpty_nil, if_true]

/-! ### Queues -/

/-- The rule of an identity, if it is pending. -/
def ruleAt? (r : Reactor) (id : RuleId) : Option Rule := (r.rule? id).map (·.rule)

/-- The pending rules are those in the queue, in this order. -/
structure Lined (rules : List Rule) (r : Reactor) : Prop where
  queued : r.queue.map r.ruleAt? = rules.map some
  nodup : r.queue.Nodup
  only : r.pending = r.queue.length

theorem Lined.reporting (h : Lined rules r) (errors : List SemanticError) :
    Lined rules (r.reporting errors) := ⟨h.queued, h.nodup, h.only⟩

theorem Lined.lt (h : Lined rules r) : ∀ id ∈ r.queue, id < r.rules.length := by
  intro id mem
  have found : r.ruleAt? id ∈ rules.map some := h.queued ▸ mem_map_of_mem mem
  obtain ⟨rule, _, same⟩ := mem_map.mp found
  obtain ⟨p, hp, _⟩ := Option.map_eq_some_iff.mp same.symm
  exact rule?_lt hp

/-- A rule that has all that it reads goes to the end of the queue. -/
theorem Lined.await (h : Lined rules r) (ready : ∀ d ∈ rule.deps, ∃ v, r.get? d = some v) :
    Lined (rules ++ [rule]) (r.await rule) := by
  have none : rule.deps.filter (fun dep => !r.isResolved dep) = [] := by
    refine filter_eq_nil_iff.mpr fun d hd => ?_
    obtain ⟨v, hv⟩ := ready d hd
    simp [isResolved, get?_eq_some.mp hv]
  have queue : (r.await rule).queue = r.queue ++ [r.rules.length] := by
    simp [Reactor.await, none]
  have old : r.queue.map (r.await rule).ruleAt? = r.queue.map r.ruleAt? :=
    map_congr_left fun id mem => by
      rw [ruleAt?, rule?_await, if_neg (Nat.ne_of_lt (h.lt id mem)), ruleAt?]
  refine ⟨?_, ?_, ?_⟩
  · rw [queue, map_append, map_append, old, h.queued]
    simp [ruleAt?, rule?_await]
  · rw [queue]
    exact h.nodup.append (nodup_singleton _) (disjoint_singleton.mpr fun mem =>
      Nat.lt_irrefl _ (h.lt _ mem))
  · rw [pending, pendingRules_await, queue, length_append, length_append, ← pending, h.only]
    rfl

/-- The first rule of the queue runs, and the others stay in line. -/
theorem Lined.begun (h : Lined (rule :: rules) r) :
    ∃ id queue p, r.queue = id :: queue ∧ r.rule? id = some p ∧ p.rule = rule ∧
      Lined rules (r.begun id queue rule) := by
  cases front : r.queue with
  | nil =>
    have queued := h.queued
    rw [front] at queued
    cases queued
  | cons id queue =>
    have queued := h.queued
    have nodup := h.nodup
    rw [front] at queued nodup
    obtain ⟨first, rest⟩ := List.cons.inj queued
    obtain ⟨p, hp, same⟩ := Option.map_eq_some_iff.mp first
    obtain ⟨fresh, nodup⟩ := nodup_cons.mp nodup
    refine ⟨id, queue, p, rfl, hp, same, ?_, nodup, ?_⟩
    · rw [← rest]
      refine map_congr_left fun other mem => ?_
      have different : other ≠ id := fun same => fresh (same ▸ mem)
      exact congrArg (Option.map _) ((rule?_pop r id queue other).trans (if_neg different))
    · have total := (pendingRules_pop hp queue).length_eq
      have only := h.only
      rw [pending, front, total, length_cons, length_cons] at only
      exact Nat.succ.inj only

theorem drain_lined {fuel : Nat} {jobs : List (Rule × List SemanticError)}
    (lined : Lined (jobs.map Prod.fst) r) (enough : jobs.length ≤ fuel)
    (utters : ∀ job ∈ jobs, job.1.Utters symbols r.get? job.2) :
    ∃ r', drain symbols fuel r = (.ok jobs.length, r') ∧ r'.pending = 0 ∧
      r'.rootErrors = r.rootErrors ++ jobs.flatMap Prod.snd := by
  induction jobs generalizing r fuel with
  | nil =>
    have empty : r.queue = [] := map_eq_nil_iff.mp lined.queued
    refine ⟨r, ?_, by rw [lined.only, empty, length_nil], by simp⟩
    cases fuel with
    | zero => rfl
    | succ fuel => simp [drain, empty]
  | cons job jobs ih =>
    obtain ⟨rule, errors⟩ := job
    obtain ⟨fuel, rfl⟩ : ∃ k, fuel = k + 1 := ⟨fuel - 1, by simp at enough; omega⟩
    obtain ⟨id, queue, p, front, found, rfl, rest⟩ := lined.begun
    have first : p.rule.Utters symbols (r.begun id queue p.rule).get? errors :=
      utters (p.rule, errors) (by simp)
    obtain ⟨r', drained, pending, roots⟩ := ih (rest.reporting errors)
      (by simpa using enough) fun job mem => utters job (by simp [mem])
    refine ⟨r', ?_, pending, ?_⟩
    · rw [drain_of_ok front found (execute_utters first), drained]
      rfl
    · rw [roots, rootErrors_reporting, flatMap_cons, ← append_assoc]
      rfl

/-! ### Passes -/

/-- Requests that concern no attribute put their rules in line. -/
theorem Lined.performRequests {requests : List Request} {jobs : List (Rule × List SemanticError)}
    (lined : Lined (jobs.map Prod.fst) r) (prompt : ∀ q ∈ requests, q.Prompt symbols r.get?) :
    ∃ r' more, r.performRequests requests = .ok r' ∧ r'.get? = r.get? ∧
      Lined ((jobs ++ more).map Prod.fst) r' ∧
      (∀ job ∈ more, job.1.Utters symbols r.get? job.2) ∧
      more.flatMap Prod.snd = requests.flatMap (Request.owed symbols r.get?) ∧
      r'.rootErrors = r.rootErrors ++ requests.flatMap Request.certain := by
  induction requests generalizing r jobs with
  | nil => exact ⟨r, [], rfl, rfl, by simpa using lined, by simp, rfl, by simp⟩
  | cons q requests ih =>
    have here := prompt q (by simp)
    have later := fun q mem => prompt q (.tail _ mem)
    cases q with
    | reject error affected =>
      obtain rfl : affected = [] := here
      obtain ⟨r', more, performed, same, lined, utters, owed, roots⟩ :=
        ih (lined.reporting [error]) later
      refine ⟨r', more, performed, same, lined, utters, owed, ?_⟩
      rw [roots, rootErrors_reporting, flatMap_cons, append_assoc]
      rfl
    | register rule =>
      obtain ⟨errors, utters⟩ := here
      have unharmed : r.firstFailed? rule.tidied.deps = none := by
        refine List.findSome?_eq_none_iff.mpr fun d hd => ?_
        obtain ⟨v, hv⟩ := utters.ready d hd
        simp [errorOf?, get?_eq_some.mp hv]
      have queued : Lined ((jobs ++ [(rule.tidied, errors)]).map Prod.fst) (r.await rule.tidied) := by
        simpa using lined.await utters.ready
      obtain ⟨r', more, performed, same, lined, others, owed, roots⟩ := ih queued later
      refine ⟨r', (rule.tidied, errors) :: more, ?_, same, ?_, ?_, ?_, roots⟩
      · rw [Reactor.performRequests, foldlM_cons]
        change Reactor.performRequests (r.register rule) requests = _
        rw [register_of_none unharmed, performed]
      · rwa [append_assoc] at lined
      · exact forall_mem_cons.mpr ⟨utters, others⟩
      · rw [flatMap_cons, flatMap_cons, owed, Request.owed, utters.errors_eq]
        rfl
    | seed attr v => exact here.elim
    | abort error => exact here.elim

/-- A pass whose rules are ready at once leaves nothing over, and reports in order. -/
theorem Resting.pass_in_order (h : r.Resting) {requests : List Request}
    (prompt : ∀ q ∈ requests, q.Prompt symbols r.get?) :
    ∃ ready stats r', r.performRequests requests = .ok ready ∧ ready.run symbols = (.ok stats, r') ∧
      stats.discarded = 0 ∧
      r'.rootErrors = r.rootErrors ++ (requests.flatMap Request.certain ++
        requests.flatMap (Request.owed symbols r.get?)) := by
  have resting : Lined (([] : List (Rule × List SemanticError)).map Prod.fst) r := by
    refine ⟨?_, ?_, ?_⟩ <;> simp [h.queue, pending, pendingRules, h.rules]
  obtain ⟨ready, jobs, performed, same, lined, utters, owed, roots⟩ := resting.performRequests prompt
  have enough : jobs.length ≤ ready.fuel := by
    have total := congrArg List.length lined.queued
    simp only [nil_append, length_map] at total
    rw [fuel, total]
    exact Nat.le_add_right _ _
  have running : Lined (jobs.map Prod.fst) { ready with running := true } :=
    ⟨lined.queued, lined.nodup, lined.only⟩
  obtain ⟨last, drained, pending, reported⟩ := drain_lined running enough fun job mem => by
    have here := utters job mem
    rwa [← same] at here
  refine ⟨ready, _, _, performed, by rw [run, runBy, drained], pending, ?_⟩
  change last.rootErrors = _
  rw [reported, owed]
  change ready.rootErrors ++ _ = _
  rw [roots, append_assoc]

end Reactor

end BlFront
