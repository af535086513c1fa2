import BlFront.Proofs.Reactor.Ending
import BlFront.Proofs.Reactor.Poisoning

/-!
# What becomes of rules

A rule that is pending when a run begins, or that is registered while it lasts, is executed, lost
or discarded, and never two of these.  An executed rule finds values in all its dependencies, a lost
one has a dependency that failed, and a discarded one has a dependency that has no slot in the end.
This is about runs whose bodies start no run themselves.
-/

namespace BlFront

open List

/-! ### Bodies that start no run -/

mutual

/-- The step starts no run, and neither does a rule that it brings into being. -/
def Action.flat : Action → Bool
  | .run => false
  | .register rule => rule.flat
  | .attempt action => action.flat
  | _ => true

def Rule.flat : Rule → Bool
  | ⟨_, _, _, body⟩ => bodyFlat body

def bodyFlat : List Action → Bool
  | [] => true
  | action :: body => action.flat && bodyFlat body

end

theorem Rule.flat_eq (rule : Rule) : rule.flat = bodyFlat rule.body := by
  cases rule
  rw [flat]

theorem Rule.flat_tidied (rule : Rule) : rule.tidied.flat = rule.flat := by
  rw [flat_eq, flat_eq, tidied]

theorem bodyFlat_iff {body : List Action} :
    bodyFlat body = true ↔ ∀ action ∈ body, action.flat = true := by
  induction body with
  | nil => simp [bodyFlat]
  | cons action body ih => simp [bodyFlat, ih]

theorem Action.runs_of_flat {action : Action} (flat : action.flat = true) : action.runs = false := by
  cases action with
  | run => cases flat
  | attempt action =>
    rw [Action.flat] at flat
    have inner : action.runs = false := runs_of_flat flat
    exact inner
  | _ => rfl

theorem Rule.runs_of_flat {rule : Rule} (flat : rule.flat = true) :
    ∀ action ∈ rule.body, action.runs = false := by
  rw [flat_eq, bodyFlat_iff] at flat
  exact fun action mem => Action.runs_of_flat (flat action mem)

theorem Action.flat_registered {action : Action} (flat : action.flat = true) {rule : Rule}
    (mem : rule ∈ action.registered) : rule.flat = true := by
  cases action with
  | register inner =>
    rw [mem_singleton.mp mem, Rule.flat_tidied]
    rwa [Action.flat] at flat
  | attempt action =>
    rw [Action.flat] at flat
    exact flat_registered flat mem
  | _ => cases mem

theorem Rule.flat_registered {rule inner : Rule} (flat : rule.flat = true)
    (mem : inner ∈ rule.registered) : inner.flat = true := by
  obtain ⟨action, inside, mem⟩ := mem_flatMap.mp mem
  rw [flat_eq, bodyFlat_iff] at flat
  exact Action.flat_registered (flat action inside) mem

namespace Reactor

variable {r r' r'' : Reactor} {symbols : SymbolTable}

/-- A rule that starts no run and is executed to its end has registered all its rules and stored all
its exports. -/
theorem execute_trades {rule : Rule} (still : ∀ action ∈ rule.body, action.runs = false)
    (h : r.Orderly) (done : execute (·.run symbols) symbols rule r = (.ok (), r')) :
    Trades rule.registered [] r r' ∧ ∀ attr ∈ rule.exports, r'.isResolved attr = true := by
  obtain ⟨all, _, _, body, complete⟩ :=
    execute_performs (run_within symbols _) symbols rule h (Nat.le_refl _)
  rw [done] at body complete
  obtain ⟨rfl, exports⟩ := complete rfl
  exact ⟨body.trades (by simpa using still), exports⟩

/-! ### Queues -/

/-- A rule that a run executes, and the reactor that its body finds. -/
structure Start where
  id : RuleId
  rule : Rule
  found : Reactor

/-- The rules that are executed one after the other until the queue is empty. -/
inductive Drains (symbols : SymbolTable) : Reactor → List Start → Reactor → Prop
  | done {r : Reactor} (empty : r.queue = []) : Drains symbols r [] r
  | next {r r' r'' : Reactor} {id : RuleId} {queue : List RuleId} {p : Pending} {starts : List Start}
      (front : r.queue = id :: queue) (found : r.rule? id = some p)
      (ran : execute (·.run symbols) symbols p.rule (r.begun id queue p.rule) = (.ok (), r'))
      (rest : Drains symbols r' starts r'') :
      Drains symbols r (⟨id, p.rule, r.begun id queue p.rule⟩ :: starts) r''

/-- What the rules that were executed have in common, as seen from the end. -/
structure Executed (r : Reactor) (s : Start) : Prop where
  orderly : s.found.Orderly
  ready : ∀ d ∈ s.rule.deps, ∃ v, s.found.get? d = some v
  grows : s.found.Grows r
  exports : ∀ attr ∈ s.rule.exports, r.isResolved attr = true

/-- What has become of the rules when the queue is empty. -/
structure Drained (r : Reactor) (starts : List Start) (r' : Reactor) : Prop extends
    Trades (starts.flatMap (·.rule.registered)) (starts.map (·.rule)) r r' where
  empty : r'.queue = []
  once : (starts.map (·.id)).Nodup
  pending : ∀ s ∈ starts, s.id < r.rules.length → r.rule? s.id ≠ none
  executed : ∀ s ∈ starts, Executed r' s

theorem Drained.done (h : r.Orderly) (empty : r.queue = []) : Drained r [] r :=
  ⟨.refl h, empty, nodup_nil, by simp, by simp⟩

/-- One rule is executed before others. -/
theorem Drained.next {id : RuleId} {queue : List RuleId} {p : Pending} {starts : List Start}
    (h : r.Orderly) (flat : p.rule.flat = true) (front : r.queue = id :: queue)
    (found : r.rule? id = some p)
    (ran : execute (·.run symbols) symbols p.rule (r.begun id queue p.rule) = (.ok (), r'))
    (rest : Drained r' starts r'') :
    Drained r (⟨id, p.rule, r.begun id queue p.rule⟩ :: starts) r'' := by
  have begins : Outcome (.start p.rule) r (r.begun id queue p.rule) := h.start front found
  obtain ⟨body, exports⟩ := execute_trades (Rule.runs_of_flat flat) begins.orderly ran
  have first := Trades.start h front found
  have opened := first.shuts
  -- the rule is gone once it has started
  have gone : r'.rule? id = none := by
    refine body.shuts.gone (Nat.lt_of_lt_of_le (rule?_lt found) opened.length) ?_
    exact (rule?_pop r id queue id).trans (if_pos rfl)
  have known : id < r'.rules.length :=
    Nat.lt_of_lt_of_le (rule?_lt found) (Nat.le_trans opened.length body.shuts.length)
  refine ⟨(first.trans body).trans rest.toTrades, rest.empty, ?_, ?_, ?_⟩
  · refine nodup_cons.mpr ⟨fun mem => ?_, rest.once⟩
    obtain ⟨s, hs, same⟩ := mem_map.mp mem
    change s.id = id at same
    exact rest.pending s hs (same ▸ known) (same ▸ gone)
  · intro s hs old none
    rcases mem_cons.mp hs with rfl | hs
    · exact absurd (found.symm.trans none) (by simp)
    · exact rest.pending s hs
        (Nat.lt_of_lt_of_le old (Nat.le_trans opened.length body.shuts.length))
        (body.shuts.gone (Nat.lt_of_lt_of_le old opened.length) (opened.gone old none))
  · intro s hs
    rcases mem_cons.mp hs with rfl | hs
    · refine ⟨begins.orderly, begins.ready p.rule rfl, body.grows.trans rest.grows, ?_⟩
      exact fun attr mem => rest.grows.isResolved (exports attr mem)
    · exact rest.executed s hs

theorem Trades.flat {came executed : List Rule} (h : Trades came executed r r')
    (before : ∀ rule ∈ r.held, rule.flat = true) (new : ∀ rule ∈ came, rule.flat = true) :
    ∀ rule ∈ r'.held, rule.flat = true := by
  intro rule mem
  rcases h.mem_held mem with old | mem
  · exact before rule old
  · exact new rule mem

/-- The first rule of a queue leaves less to do. -/
theorem execute_front {fuel : Nat} {id : RuleId} {queue : List RuleId} {p : Pending}
    (reached : r.Reachable) (flat : ∀ rule ∈ r.held, rule.flat = true) (enough : r.load ≤ fuel + 1)
    (front : r.queue = id :: queue) (found : r.rule? id = some p)
    (ran : execute (·.run symbols) symbols p.rule (r.begun id queue p.rule) = (.ok (), r')) :
    r'.Reachable ∧ (∀ rule ∈ r'.held, rule.flat = true) ∧ r'.load ≤ fuel := by
  have first := Trades.start reached.orderly front found
  have flat₀ : p.rule.flat = true := flat p.rule (Reactor.mem_held.mpr ⟨id, p, found, rfl⟩)
  obtain ⟨body, _⟩ := execute_trades (Rule.runs_of_flat flat₀) first.orderly ran
  obtain ⟨goes, gives⟩ := reached.orderly.execute symbols (run_within symbols fuel) enough front found
  rw [ran] at goes gives
  have fewer : r'.load < r.load := load_lt_of_givesWay gives
  exact ⟨goes.leads.reachable reached,
    (first.trans body).flat flat fun rule => Rule.flat_registered flat₀, by omega⟩

theorem drain_drains {fuel n : Nat} (reached : r.Reachable)
    (flat : ∀ rule ∈ r.held, rule.flat = true) (enough : r.load ≤ fuel)
    (done : drain symbols fuel r = (.ok n, r')) :
    ∃ starts, starts.length = n ∧ Drains symbols r starts r' ∧ Drained r starts r' := by
  induction fuel generalizing r n with
  | zero =>
    have h := reached.orderly
    have empty := h.queue_eq_nil (Nat.le_zero.mp enough)
    cases done
    exact ⟨[], rfl, .done empty, .done h empty⟩
  | succ fuel ih =>
    have h := reached.orderly
    cases hq : r.queue with
    | nil =>
      simp only [drain, hq] at done
      cases done
      exact ⟨[], rfl, .done hq, .done h hq⟩
    | cons id queue =>
      obtain ⟨p, hp, _⟩ := (h.consistent.mem_queue id).mp (by simp [hq])
      have flat₀ : p.rule.flat = true := flat p.rule (Reactor.mem_held.mpr ⟨id, p, hp, rfl⟩)
      have left := load_begun hp queue
      cases executed : execute (runBy (drain symbols fuel)) symbols p.rule
          (r.begun id queue p.rule) with
      | mk outcome r₁ =>
        cases outcome with
        | error e =>
          rw [drain_of_error hq hp executed] at done
          cases done
        | ok =>
          have begins : (r.begun id queue p.rule).Reachable :=
            (Makes.start hq hp).leads.reachable reached
          have ran : execute (·.run symbols) symbols p.rule (r.begun id queue p.rule) = (.ok (), r₁) :=
            (execute_agrees run_eq_runBy (run_within symbols fuel) begins (by omega)).trans executed
          obtain ⟨next, flat₁, within⟩ := execute_front reached flat enough hq hp ran
          rw [drain_of_ok hq hp executed] at done
          cases drained : drain symbols fuel r₁ with
          | mk result last =>
            rw [drained] at done
            cases result with
            | error e => cases done
            | ok k =>
              cases done
              obtain ⟨starts, counted, drains, after⟩ := ih next flat₁ within drained
              exact ⟨_ :: starts, congrArg (· + 1) counted, .next hq hp ran drains,
                .next h flat₀ hq hp ran after⟩

/-! ### Runs -/

/-- While a body runs, a dependency can be read unless its value is of another kind. -/
theorem Executed.reads {s : Start} (h : Executed r s) {done rest : List Action} {x : Execution}
    (body : s.rule.body = done ++ rest)
    (performed : performAll (·.run symbols) symbols s.rule done ⟨s.found, []⟩ = (.ok (), x))
    {d : Attribute} (dep : d ∈ s.rule.deps) :
    ∃ v, x.reactor.get? d = some v ∧ ∀ (α : Type) (kind : Kind α) (e : ReactorError),
      (x.reactor.view symbols s.rule).get kind d = .error e →
        kind.extract v = none ∧ e = .unexpectedValue d kind.name := by
  obtain ⟨_, _, before, _⟩ := performAll_performs (x := ⟨s.found, []⟩) (run_within symbols _) symbols
    (fun action mem m asks => ⟨action, body ▸ mem_append_left rest mem, asks⟩) h.orderly
    (Nat.le_refl _)
  rw [performed] at before
  obtain ⟨past, path, _⟩ := before.goes
  obtain ⟨v, hv⟩ := h.ready d dep
  have held := (path.grows h.orderly).get? hv
  refine ⟨v, held, fun α kind e failed => ?_⟩
  have declared : (x.reactor.view symbols s.rule).deps.contains d = true := by
    simpa [view] using dep
  have found : (x.reactor.view symbols s.rule).lookup d = some v := held
  rw [View.get, if_pos declared, found, Option.bind_some] at failed
  cases extracted : kind.extract v with
  | none =>
    rw [extracted] at failed
    cases failed
    exact ⟨rfl, rfl⟩
  | some a =>
    rw [extracted] at failed
    cases failed

/-- Every rule ends in one way.  A run executes rules one after the other; what was pending and what
they registered is told once by those that were executed, those that were poisoned and those that
were left over. -/
theorem rules_end_one_way {r r' : Reactor} {symbols : SymbolTable} {stats : RunStats}
    (reachable : r.Reachable) (flat : ∀ rule ∈ r.held, rule.flat = true)
    (ran : r.run symbols = (.ok stats, r')) :
    ∃ (starts : List Start) (poisoned : List Rule) (last : Reactor),
      Drains symbols { r with running := true } starts last ∧ last.store = r'.store ∧
      (r.held ++ starts.flatMap (·.rule.registered)).Perm
        (starts.map (·.rule) ++ poisoned ++ last.held) ∧
      (starts.map (·.rule)).Disjoint poisoned ∧ (starts.map (·.rule)).Disjoint last.held ∧
      poisoned.Disjoint last.held ∧
      (starts.map (·.id)).Nodup ∧
      (∀ s ∈ starts, ∀ done rest x, s.rule.body = done ++ rest →
        performAll (·.run symbols) symbols s.rule done ⟨s.found, []⟩ = (.ok (), x) →
        ∀ d ∈ s.rule.deps, ∃ v, x.reactor.get? d = some v ∧
          ∀ (α : Type) (kind : Kind α) (e : ReactorError),
            (x.reactor.view symbols s.rule).get kind d = .error e →
              kind.extract v = none ∧ e = .unexpectedValue d kind.name) ∧
      (∀ rule ∈ poisoned, ∃ d ∈ rule.deps, (r'.errorOf? d).isSome) ∧
      (∀ rule ∈ last.held, ∃ d ∈ rule.deps, r'.slot? d = none) ∧
      stats = ⟨starts.length, last.held.length⟩ ∧
      (∀ rule ∈ starts.map (·.rule) ++ poisoned, ∀ attr ∈ rule.exports, r'.isResolved attr = true) ∧
      r'.pending = 0 ∧ r'.queue = [] ∧ r'.running = false := by
  have entered := (Makes.enter r).leads.reachable reachable
  cases drained : drain symbols r.fuel { r with running := true } with
  | mk result last =>
    simp only [run, runBy, drained] at ran
    cases result with
    | error e => cases ran
    | ok n =>
      cases ran
      obtain ⟨starts, rfl, drains, told⟩ := drain_drains entered flat (load_le_fuel r) drained
      obtain ⟨poisoned, sum, lost⟩ := told.turnover
      have values : ∀ rule ∈ starts.map (·.rule), ∀ d ∈ rule.deps, ∃ v, last.get? d = some v := by
        intro rule mem d hd
        obtain ⟨s, hs, rfl⟩ := mem_map.mp mem
        obtain ⟨v, hv⟩ := (told.executed s hs).ready d hd
        exact ⟨v, (told.executed s hs).grows.get? hv⟩
      have stuck : ∀ rule ∈ last.held, ∃ d ∈ rule.deps, last.slot? d = none := by
        intro rule mem
        obtain ⟨id, p, hp, rfl⟩ := Reactor.mem_held.mp mem
        exact told.orderly.consistent.awaits told.empty hp
      refine ⟨starts, poisoned, last, drains, rfl, sum, ?_, ?_, ?_, told.once, ?_,
        fun rule mem => (lost rule mem).dep, stuck, ?_, ?_, rfl, told.empty, rfl⟩
      · intro rule executed mem
        obtain ⟨d, hd, failed⟩ := (lost rule mem).dep
        obtain ⟨v, hv⟩ := values rule executed d hd
        simp [errorOf?, get?_eq_some.mp hv] at failed
      · intro rule executed mem
        obtain ⟨d, hd, none⟩ := stuck rule mem
        obtain ⟨v, hv⟩ := values rule executed d hd
        rw [get?_eq_some, none] at hv
        cases hv
      · intro rule mem waits
        obtain ⟨d, hd, failed⟩ := (lost rule mem).dep
        exact told.orderly.not_waits hd failed (Reactor.mem_held.mp waits)
      · intro s hs done rest x body performed d hd
        exact (told.executed s hs).reads body performed hd
      · simp [held, pending]
      · intro rule mem attr exported
        rcases mem_append.mp mem with mem | mem
        · obtain ⟨s, hs, rfl⟩ := mem_map.mp mem
          exact (told.executed s hs).exports attr exported
        · exact (lost rule mem).exports attr exported

/-- A body that registers a rule which will never be ready, fails what another rule waits for, and
registers a third one that comes too late. -/
def meddling : Rule :=
  ⟨"meddle", [], [typeOfNode 3], [.register (.copy "stuck" (typeOfNode 7) (typeOfNode 8)),
    .reject missingType [typeOfNode 0], .register lateCopy,
    .compute fun _ => .ok [.write (typeOfNode 3) (.value (.type .int))]]⟩

def meddled : Reactor := (Reactor.empty.register earlyCopy).register meddling

theorem rules_end_one_way_meddled :
    (meddled.run .empty).1 = .ok ⟨1, 1⟩ ∧
      ∃ (starts : List Start) (poisoned : List Rule) (last : Reactor),
        Drains .empty { meddled with running := true } starts last ∧
          starts.map (·.rule.name) = ["meddle"] ∧ poisoned.length = 2 ∧ last.held.length = 1 := by
  have result : (meddled.run .empty).1 = .ok ⟨1, 1⟩ := by rfl
  have reachable : meddled.Reachable :=
    ⟨_, .step (.step .here (.register _ earlyCopy)) (.register _ meddling)⟩
  have flat : ∀ rule ∈ meddled.held, rule.flat = true :=
    all_eq_true.mp (show meddled.held.all Rule.flat = true by rfl)
  obtain ⟨starts, poisoned, last, drains, _, sum, _, _, _, _, _, _, _, counted, _⟩ :=
    rules_end_one_way reachable flat (Prod.ext result rfl)
  obtain ⟨once, left⟩ := RunStats.mk.inj counted
  refine ⟨result, starts, poisoned, last, drains, ?_⟩
  cases drains with
  | done empty => cases empty
  | @next _ _ _ id queue p starts front found ran rest =>
    obtain ⟨rfl, rfl⟩ : 1 = id ∧ [] = queue := List.cons.inj front
    obtain rfl : ⟨meddling, 0⟩ = p := Option.some.inj found
    obtain rfl : starts = [] := length_eq_zero_iff.mp (by simpa using once.symm)
    refine ⟨rfl, ?_, left.symm⟩
    have told := sum.length_eq
    have pending : meddled.held.length = 2 := rfl
    have registered : meddling.registered.length = 2 := rfl
    simp only [flatMap_cons, flatMap_nil, map_cons, map_nil,
      length_append, length_cons, length_nil, pending, registered, ← left] at told
    omega

end Reactor

end BlFront
