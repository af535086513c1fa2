import BlFront.Proofs.Reactor.Accounts

/-!
# Runs inside runs

A body may start a run inside the run that executes it.  While a run lasts, a body cannot seed, until
a run that was started inside that very run has ended: the flag which refuses seeds is cleared by the
end of any run.  Likewise every rule is executed, lost or kept, until some run ends that was started
inside: the end of any run discards all that is pending, also what waits for a body that has not come
to its end.
-/

namespace BlFront

/-- The attribute and the value that a step seeds. -/
def Action.seeds : Action → Option (Attribute × Value)
  | .seed attr value => some (attr, value)
  | .attempt action => action.seeds
  | _ => none

namespace Reactor

open List

variable {r r' r'' : Reactor} {symbols : SymbolTable}

/-! ### Seeds that are refused -/

section Seeds

variable {rule : Rule} {run : Reactor → Except ReactorError RunStats × Reactor} {x : Execution}
  {attr : Attribute} {v : Value}

/-- Seeds are refused exactly while the flag is set. -/
theorem seed_refused_iff :
    r.seed attr v = .error .alreadyRunning ↔ r.running = true := by
  rw [seed]
  split
  · simp_all
  · next idle =>
      refine iff_of_false (fun refused => ?_) idle
      split at refused
      · cases refused
      · next unresolved =>
          rw [Bool.not_eq_true, isResolved_eq_false] at unresolved
          rw [resolve, unresolved] at refused
          cases refused

/-- A refused seed stores nothing, also if the body goes on. -/
theorem perform_store_of_refused {e : ReactorError}
    (refused : x.reactor.seed attr v = .error e) {action : Action}
    (seeds : action.seeds = some (attr, v)) :
    (perform run symbols rule action x).2.reactor.store = x.reactor.store := by
  cases action with
  | seed other value =>
    cases seeds
    rw [perform, refused]
  | attempt action =>
    have inner : (perform run symbols rule action x).2.reactor.store = x.reactor.store :=
      perform_store_of_refused refused seeds
    rw [perform]
    cases result : perform run symbols rule action x with
    | mk outcome x' =>
      rw [result] at inner
      cases outcome <;> exact inner
  | _ => cases seeds

end Seeds

/-! ### Moments of a run -/

/-- A run executes the body of a rule.  The numbers are what was left to do when the run began and
what is left to runs that the body starts; `done` are the steps that the run has performed so far,
`rest` are those of the body that remain. -/
inductive Turn (symbols : SymbolTable) :
    Nat → Reactor → Nat → (done : List Action) → Rule → (rest : List Action) → Execution → Prop
  | body {fuel : Nat} {r : Reactor} {id : RuleId} {queue : List RuleId} {p : Pending}
      {done rest : List Action} {x : Execution} (front : r.queue = id :: queue)
      (found : r.rule? id = some p) (split : p.rule.body = done ++ rest)
      (performed : performAll (runBy (drain symbols fuel)) symbols p.rule done
        ⟨r.begun id queue p.rule, []⟩ = (.ok (), x)) :
      Turn symbols (fuel + 1) r fuel done p.rule rest x
  | later {fuel inner : Nat} {r r' : Reactor} {id : RuleId} {queue : List RuleId} {p : Pending}
      {done rest : List Action} {rule : Rule} {x : Execution} (front : r.queue = id :: queue)
      (found : r.rule? id = some p)
      (ran : execute (runBy (drain symbols fuel)) symbols p.rule (r.begun id queue p.rule) =
        (.ok (), r'))
      (turn : Turn symbols fuel r' inner done rule rest x) :
      Turn symbols (fuel + 1) r inner (p.rule.body ++ done) rule rest x
  | stale {fuel inner : Nat} {r : Reactor} {id : RuleId} {queue : List RuleId}
      {done rest : List Action} {rule : Rule} {x : Execution} (front : r.queue = id :: queue)
      (gone : r.rule? id = none)
      (turn : Turn symbols fuel { r with queue := queue } inner done rule rest x) :
      Turn symbols (fuel + 1) r inner done rule rest x

/-- The same of a run and of the runs inside it, to any depth.  `own` are the steps that the
innermost run has performed so far, `all` are those of all the runs that have not ended. -/
inductive Moment (symbols : SymbolTable) :
    Nat → Reactor → (own all : List Action) → Rule → (rest : List Action) → Execution → Prop
  | own {fuel inner : Nat} {r : Reactor} {done rest : List Action} {rule : Rule} {x : Execution}
      (turn : Turn symbols fuel r inner done rule rest x) : Moment symbols fuel r done done rule rest x
  | inside {fuel inner : Nat} {r : Reactor} {done rest own all after : List Action} {action : Action}
      {outer rule : Rule} {x y : Execution}
      (turn : Turn symbols fuel r inner done outer (action :: rest) x)
      (runs : action.runs = true)
      (moment : Moment symbols inner { x.reactor with running := true } own all rule after y) :
      Moment symbols fuel r own (done ++ all) rule after y

section Moments

variable {fuel inner : Nat} {rule : Rule} {done own all rest : List Action} {x : Execution}

/-- The flag is set until a step has started a run, nothing is discarded as long as none has, and runs
that are started next have enough fuel. -/
theorem Turn.told (turn : Turn symbols fuel r inner done rule rest x) (h : r.Orderly)
    (enough : r.load ≤ fuel) :
    x.reactor.Orderly ∧ x.reactor.load ≤ inner ∧
      x.reactor.running = (r.running && !done.any Action.runs) ∧
      (done.any Action.runs = false →
        ∃ executed, Trades (done.flatMap Action.registered) executed r x.reactor) := by
  induction turn with
  | @body fuel r id queue p done rest x front found split performed =>
    have begins := Trades.start h front found
    have left := load_begun found queue
    rw [split, ← size_flatMap_registered, flatMap_append, map_append, sum_append,
      size_flatMap_registered] at left
    obtain ⟨_, _, body, complete⟩ := performAll_performs (x := ⟨r.begun id queue p.rule, []⟩)
      (drain_within symbols (Nat.le_refl fuel)) symbols
      (fun action mem m asks => ⟨action, split ▸ mem_append_left rest mem, asks⟩) begins.orderly
      (show (r.begun id queue p.rule).load + bodySize done ≤ fuel by omega)
    rw [performed] at body complete
    obtain rfl := complete rfl
    have spent := load_le_of_dwindles body.dwindles
    rw [size_flatMap_registered] at spent
    dsimp only at spent
    exact ⟨body.goes.orderly begins.orderly, by omega, body.running,
      fun still => ⟨_, begins.trans (body.trades still)⟩⟩
  | @later fuel _ r r' _ queue p _ _ _ _ front found ran _ ih =>
    have begins := Trades.start h front found
    have left := load_begun found queue
    have runs := drain_within symbols (Nat.le_refl fuel)
    obtain ⟨_, _, _, body, complete⟩ :=
      execute_performs runs symbols p.rule begins.orderly (by omega)
    have gives := (h.execute symbols runs enough front found).2
    rw [ran] at body complete gives
    obtain rfl := (complete rfl).1
    have fewer : r'.load < r.load := load_lt_of_givesWay gives
    obtain ⟨orderly, fits, running, kept⟩ := ih (body.goes.orderly begins.orderly) (by omega)
    refine ⟨orderly, fits, ?_, fun still => ?_⟩
    · rw [running, body.running, any_append, Bool.not_or, Bool.and_assoc]
      rfl
    · rw [any_append, Bool.or_eq_false_iff] at still
      obtain ⟨executed, kept⟩ := kept still.2
      rw [flatMap_append]
      exact ⟨_, (begins.trans (body.trades still.1)).trans kept⟩
  | @stale _ _ _ id _ _ _ _ _ front gone _ _ =>
    -- the queue of an orderly reactor leads to rules
    obtain ⟨p, found, _⟩ := (h.consistent.mem_queue id).mp (by simp [front])
    rw [gone] at found
    cases found

/-- The flag is set until a run ends that the innermost run started, and nothing is discarded until a
run ends that was started inside. -/
theorem Moment.told (moment : Moment symbols fuel r own all rule rest x) (h : r.Orderly)
    (enough : r.load ≤ fuel) (running : r.running = true) :
    x.reactor.running = !own.any Action.runs ∧
      (all.any Action.runs = false →
        ∃ executed, Trades (all.flatMap Action.registered) executed r x.reactor) := by
  induction moment with
  | own turn =>
    obtain ⟨_, _, flag, kept⟩ := turn.told h enough
    rw [flag, running, Bool.true_and]
    exact ⟨rfl, kept⟩
  | @inside _ _ _ _ _ _ _ _ _ _ _ x _ turn _ _ ih =>
    obtain ⟨orderly, fits, _, outer⟩ := turn.told h enough
    have enters := (Makes.enter x.reactor).outcome orderly
    obtain ⟨flag, inside⟩ := ih enters.orderly fits rfl
    refine ⟨flag, fun still => ?_⟩
    rw [any_append, Bool.or_eq_false_iff] at still
    obtain ⟨_, before⟩ := outer still.1
    obtain ⟨_, nested⟩ := inside still.2
    rw [flatMap_append]
    exact ⟨_, before.trans ((Trades.of_outcome enters (by simp)).trans nested)⟩

end Moments

/-- At every moment of a run, seeds are refused and store nothing as long as no run has ended that the
innermost run started.  As long as no run has ended that was started inside at all, every rule that
was pending or has been registered since is told once by those that were executed, those that were
lost and those that are pending; so one with a dependency that has no slot still waits, unless
another dependency failed. -/
theorem seeding_refused_until_nested_run_ends {r : Reactor} {symbols : SymbolTable}
    {own all rest : List Action} {rule : Rule} {x : Execution} (reachable : r.Reachable)
    (moment : Moment symbols r.fuel { r with running := true } own all rule rest x) :
    (∀ attr v, x.reactor.seed attr v = .error .alreadyRunning ↔
      ∀ action ∈ own, action.runs = false) ∧
    ((∀ action ∈ own, action.runs = false) → ∀ run action attr v, action.seeds = some (attr, v) →
      (perform run symbols rule action x).2.reactor.store = x.reactor.store) ∧
    ((∀ action ∈ all, action.runs = false) →
      (∃ executed lost, (r.held ++ all.flatMap Action.registered).Perm
          (executed ++ lost ++ x.reactor.held) ∧
        (∀ w ∈ executed, ∀ d ∈ w.deps, (x.reactor.get? d).isSome) ∧
        ∀ w ∈ lost, x.reactor.Lost w) ∧
      ∀ w, r.Waits w ∨ w ∈ all.flatMap Action.registered →
        ∀ d ∈ w.deps, x.reactor.slot? d = none → x.reactor.Waits w ∨ x.reactor.Lost w) := by
  have entered : ({ r with running := true } : Reactor).Orderly :=
    reachable.orderly.congr true r.journal r.history
  obtain ⟨running, keeps⟩ := moment.told entered (load_le_fuel r) rfl
  have refused : ∀ attr v, x.reactor.seed attr v = .error .alreadyRunning ↔
      ∀ action ∈ own, action.runs = false := by
    intro attr v
    rw [seed_refused_iff, running, Bool.not_eq_true', any_eq_false]
    simp only [Bool.not_eq_true]
  refine ⟨refused, fun still run action attr v seeds => ?_, fun still => ?_⟩
  · exact perform_store_of_refused ((refused attr v).mpr still) seeds
  · obtain ⟨executed, trades⟩ := keeps (by simpa using still)
    obtain ⟨lost, sum, isLost⟩ := trades.turnover
    refine ⟨⟨executed, lost, sum, trades.valued, isLost⟩, fun w known d dep none => ?_⟩
    have mem : w ∈ executed ++ lost ++ x.reactor.held :=
      sum.mem_iff.mp (mem_append.mpr (known.imp_left mem_held.mpr))
    rcases mem_append.mp mem with mem | mem
    · rcases mem_append.mp mem with mem | mem
      · have value := trades.valued w mem d dep
        simp [get?, none] at value
      · exact .inr (isLost w mem)
    · exact .inl (mem_held.mp mem)

def seedingInside : Rule :=
  ⟨"inner", [], [], [.attempt (.seed (typeOfNode 1) (.type .int))]⟩

/-- A body that registers a rule and starts a run, in which the body of that rule tries to seed. -/
def reentering : Rule :=
  ⟨"outer", [], [typeOfNode 3], [.register seedingInside, .attempt .run]⟩

/-- A rule waits for what the body will write. -/
def awaiting (rule : Rule) : Reactor :=
  (Reactor.empty.register rule).register (.copy "late" (typeOfNode 3) (typeOfNode 4))

theorem awaiting_reachable (rule : Rule) : (awaiting rule).Reachable :=
  ⟨_, .step (.step .here (.register _ rule)) (.register _ _)⟩

theorem seeding_refused_until_nested_run_ends_reentering :
    ∃ x, Moment .empty (awaiting reentering).fuel { awaiting reentering with running := true } []
        [.register seedingInside] seedingInside seedingInside.body x ∧
      x.reactor.seed (typeOfNode 1) (.type .int) = .error .alreadyRunning ∧
      (x.reactor.Waits (.copy "late" (typeOfNode 3) (typeOfNode 4)) ∨
        x.reactor.Lost (.copy "late" (typeOfNode 3) (typeOfNode 4))) := by
  have outer : Turn .empty (awaiting reentering).fuel { awaiting reentering with running := true } 3
      [.register seedingInside] reentering [.attempt .run] _ :=
    .body (p := ⟨reentering, 0⟩) rfl rfl rfl rfl
  have inner := Moment.inside outer rfl
    (.own (.body (p := ⟨seedingInside, 0⟩) rfl rfl (nil_append _).symm rfl))
  obtain ⟨refused, _, kept⟩ :=
    seeding_refused_until_nested_run_ends (awaiting_reachable reentering) inner
  refine ⟨_, inner, (refused _ _).mpr (by simp), ?_⟩
  have waits : (awaiting reentering).Waits (.copy "late" (typeOfNode 3) (typeOfNode 4)) :=
    ⟨1, ⟨_, 1⟩, rfl, rfl⟩
  exact (kept (by simp [Action.runs])).2 _ (.inl waits) (typeOfNode 3) mem_cons_self rfl

/-- A body that starts a run with nothing to do, seeds an attribute and writes what a rule waits
for. -/
def reseeding : Rule :=
  ⟨"outer", [], [typeOfNode 3], [.run, .seed (typeOfNode 1) (.type .int),
    .compute fun _ => .ok [.write (typeOfNode 3) (.value (.type .int))]]⟩

/-- The end of a run inside a run lets the body seed, and discards the rule that waits for what the
body writes: that rule never runs, although the run goes on and its dependency gets a value. -/
theorem nested_run_admits_seeds_and_discards :
    (awaiting reseeding).Waits (.copy "late" (typeOfNode 3) (typeOfNode 4)) ∧
      (∃ x r', Moment .empty (awaiting reseeding).fuel { awaiting reseeding with running := true }
          [.run] [.run] reseeding (reseeding.body.drop 1) x ∧
        x.reactor.seed (typeOfNode 1) (.type .int) = .ok r' ∧ x.reactor.held = []) ∧
      ((awaiting reseeding).run .empty).1 = .ok ⟨1, 0⟩ ∧
      ((awaiting reseeding).run .empty).2.store.entries.keys = [typeOfNode 1, typeOfNode 3] := by
  exact ⟨⟨1, ⟨_, 1⟩, rfl, rfl⟩, ⟨_, _, .own (.body (p := ⟨reseeding, 0⟩) rfl rfl rfl rfl), rfl, rfl⟩,
    rfl, by rfl⟩

end Reactor

end BlFront
