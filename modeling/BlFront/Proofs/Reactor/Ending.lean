import BlFront.Proofs.Reactor.Intact

/-!
# The loops of a reactor end

Two loops of a reactor have no bound of their own: the one that empties the queue, which bodies can
enter again, and the one that works off failures.  The equations of each loop have one solution and
no other, on every reactor that can come about, so neither goes on forever; and that solution is what
a reactor computes.  Each turn of the first makes a rule give way to rules that its script registers,
and each turn of the second settles a failure for good.
-/

namespace BlFront.Reactor

open List

variable {r r' : Reactor} {symbols : SymbolTable} {bound : Nat}

/-! ### One turn of the loop over the queue -/

/-- The first rule of the queue is run, or passed over if it is gone, and then the rest comes; bodies
that start a run start it in the same way. -/
def turn (symbols : SymbolTable) (rest : Reactor → Except ReactorError Nat × Reactor) (r : Reactor) :
    Except ReactorError Nat × Reactor :=
  match r.queue with
  | [] => (.ok 0, r)
  | id :: queue => match r.rule? id with
      | none => rest { r with queue := queue }
      | some p => match execute (runBy rest) symbols p.rule (r.begun id queue p.rule) with
          | (.error e, r) => (.error e, r)
          | (.ok (), r) => match rest r with
              | (.ok executed, r) => (.ok (executed + 1), r)
              | (.error e, r) => (.error e, r)

/-- A way to empty the queue without a bound: turn after turn. -/
def Empties (symbols : SymbolTable) (loop : Reactor → Except ReactorError Nat × Reactor) : Prop :=
  ∀ r, r.Reachable → loop r = turn symbols loop r

theorem drain_succ (symbols : SymbolTable) (fuel : Nat) :
    drain symbols (fuel + 1) = turn symbols (drain symbols fuel) := rfl

theorem turn_of_nil {rest : Reactor → Except ReactorError Nat × Reactor} (empty : r.queue = []) :
    turn symbols rest r = (.ok 0, r) := by
  rw [turn, empty]

/-! ### Bodies do the same with runs that do the same -/

section Agreement

variable {run run' : Reactor → Except ReactorError RunStats × Reactor} {rule : Rule} {x : Execution}
  (agree : ∀ {s : Reactor}, s.Reachable → s.load ≤ bound → run s = run' s)

include agree

theorem perform_agrees {action : Action} (reached : x.reactor.Reachable)
    (enough : x.reactor.load ≤ bound) :
    perform run symbols rule action x = perform run' symbols rule action x := by
  cases action with
  | run => rw [perform, perform, agree reached enough]
  | attempt action =>
    have inner : perform run symbols rule action x = perform run' symbols rule action x :=
      perform_agrees reached enough
    rw [perform, perform, inner]
  | _ => rfl

theorem performAll_agrees (runs : RunsWithin bound run) {body : List Action}
    (inside : ∀ action ∈ body, action ∈ rule.body) (reached : x.reactor.Reachable)
    (enough : x.reactor.load + bodySize body ≤ bound) :
    performAll run symbols rule body x = performAll run' symbols rule body x := by
  induction body generalizing x with
  | nil => rfl
  | cons action body ih =>
    rw [bodySize] at enough
    have first := perform_performs runs symbols action
      (fun m asks => ⟨action, inside action (by simp), asks⟩) reached.orderly (by omega)
    have spent := load_le_of_dwindles first.dwindles
    rw [action.size_registered] at spent
    have same : perform run symbols rule action x = perform run' symbols rule action x :=
      perform_agrees agree reached (by omega)
    rw [performAll, performAll, ← same]
    cases result : perform run symbols rule action x with
    | mk outcome x' =>
      rw [result] at first spent
      dsimp only at spent
      cases outcome with
      | ok =>
        exact ih (fun action mem => inside action (by simp [mem]))
          (first.goes.leads.reachable reached) (by omega)
      | error e => rfl

theorem execute_agrees (runs : RunsWithin bound run) (reached : r.Reachable)
    (enough : r.load + bodySize rule.body ≤ bound) :
    execute run symbols rule r = execute run' symbols rule r := by
  have same : performAll run symbols rule rule.body ⟨r, []⟩ =
      performAll run' symbols rule rule.body ⟨r, []⟩ :=
    performAll_agrees agree runs (fun _ mem => mem) reached enough
  rw [execute, execute, same]

end Agreement

/-! ### One solution -/

theorem runBy_agrees {rest rest' : Reactor → Except ReactorError Nat × Reactor}
    (agree : ∀ {s : Reactor}, s.Reachable → s.load ≤ bound → rest s = rest' s) {s : Reactor}
    (reached : s.Reachable) (enough : s.load ≤ bound) : runBy rest s = runBy rest' s := by
  have entered := (Makes.enter s).leads.reachable reached
  rw [runBy, runBy, agree entered enough]

/-- Two turns come to the same if what follows them does. -/
theorem turn_agrees {rest rest' : Reactor → Except ReactorError Nat × Reactor}
    (agree : ∀ {s : Reactor}, s.Reachable → s.load ≤ bound → rest s = rest' s)
    (runs : RunsWithin bound (runBy rest)) (reached : r.Reachable) (enough : r.load ≤ bound + 1) :
    turn symbols rest r = turn symbols rest' r := by
  cases front : r.queue with
  | nil => rw [turn_of_nil front, turn_of_nil front]
  | cons id queue =>
    obtain ⟨p, found, _⟩ := (reached.orderly.consistent.mem_queue id).mp (by simp [front])
    have begins : (r.begun id queue p.rule).Reachable :=
      (Makes.start front found).leads.reachable reached
    have left := load_begun found queue
    have body : execute (runBy rest) symbols p.rule (r.begun id queue p.rule) =
        execute (runBy rest') symbols p.rule (r.begun id queue p.rule) :=
      execute_agrees (runBy_agrees agree) runs begins (by omega)
    obtain ⟨goes, gives⟩ := reached.orderly.execute symbols runs enough front found
    simp only [turn, front, found, ← body]
    cases result : execute (runBy rest) symbols p.rule (r.begun id queue p.rule) with
    | mk outcome r' =>
      rw [result] at goes gives
      cases outcome with
      | error e => rfl
      | ok =>
        have fewer : r'.load < r.load := load_lt_of_givesWay gives
        have next : rest r' = rest' r' := agree (goes.leads.reachable reached) (by omega)
        simp only [next]

theorem drain_within (symbols : SymbolTable) {fuel : Nat} (enough : bound ≤ fuel) :
    RunsWithin bound (runBy (drain symbols fuel)) :=
  runBy_within fun _ orderly fits => drain_goes symbols fuel orderly (Nat.le_trans fits enough)

/-- With any fuel above the load the queue is emptied in the same way. -/
theorem drain_agrees {fuel fuel' : Nat} (reached : r.Reachable) (fits : r.load ≤ bound)
    (enough : bound ≤ fuel) (enough' : bound ≤ fuel') :
    drain symbols fuel r = drain symbols fuel' r := by
  induction bound generalizing r fuel fuel' with
  | zero =>
    have idle := reached.orderly.queue_eq_nil (Nat.le_zero.mp fits)
    cases fuel <;> cases fuel' <;> simp [drain, idle]
  | succ bound ih =>
    obtain ⟨fuel, rfl⟩ := Nat.exists_eq_add_one_of_ne_zero (Nat.ne_zero_of_lt enough)
    obtain ⟨fuel', rfl⟩ := Nat.exists_eq_add_one_of_ne_zero (Nat.ne_zero_of_lt enough')
    rw [drain_succ, drain_succ]
    exact turn_agrees (fun reached fits => ih reached fits (by omega) (by omega))
      (drain_within symbols (by omega)) reached fits

theorem run_eq_runBy {fuel : Nat} (reached : r.Reachable) (enough : r.load ≤ fuel) :
    r.run symbols = runBy (drain symbols fuel) r :=
  runBy_agrees (fun reached fits => drain_agrees reached fits (load_le_fuel r) enough) reached
    (Nat.le_refl r.load)

/-- If the fuel counts the rules to run, the queue is emptied as if there were no bound. -/
theorem drain_empties (symbols : SymbolTable) : Empties symbols fun r => drain symbols r.load r := by
  intro r reached
  cases load : r.load with
  | zero =>
    dsimp only
    rw [load, turn_of_nil (reached.orderly.queue_eq_nil load)]
    rfl
  | succ bound =>
    dsimp only
    rw [load, drain_succ]
    refine turn_agrees (fun {s} reached fits => ?_) (drain_within symbols (Nat.le_refl bound)) reached
      (Nat.le_of_eq load)
    exact drain_agrees reached (Nat.le_refl _) fits (Nat.le_refl _)

theorem Empties.eq_drain {loop : Reactor → Except ReactorError Nat × Reactor}
    (h : Empties symbols loop) (reached : r.Reachable) (fits : r.load ≤ bound) :
    loop r = drain symbols bound r := by
  induction bound generalizing r with
  | zero =>
    rw [h r reached, turn_of_nil (reached.orderly.queue_eq_nil (Nat.le_zero.mp fits))]
    rfl
  | succ bound ih =>
    rw [h r reached, drain_succ]
    symm
    exact turn_agrees (fun reached fits => (ih reached fits).symm)
      (drain_within symbols (Nat.le_refl bound)) reached fits

/-! ### Failures -/

/-- A way to work off failures without a bound: one after the other, and behind them those of the
exports of rules that are poisoned. -/
structure Poisons (loop : Reactor → List Failure → Reactor) : Prop where
  done : ∀ r, loop r [] = r
  settled : ∀ {r attr} e work, r.isResolved attr = true → loop r ((attr, e) :: work) = loop r work
  next : ∀ {r attr} e work, r.isResolved attr = false → loop r ((attr, e) :: work) =
    let rest := (r.waitersOf attr).foldl (poison attr e) (r.fill attr (.error e), work)
    loop rest.1 rest.2

/-- A turn that poisons rules adds what they export to the work, and takes it from what they could
export. -/
theorem length_work {attr : Attribute} {e : ErrorId} {work : List Failure} :
    let rest := (r.waitersOf attr).foldl (poison attr e) (r.fill attr (.error e), work)
    rest.2.length + rest.1.exportCount = work.length + r.exportCount :=
  (foldl_poison_purged attr e (r.waitersOf attr) (r.fill attr (.error e)) work).count

theorem failAll_poisons : Poisons fun r work => failAll (work.length + r.exportCount) r work where
  done r := by cases r.exportCount <;> rfl
  settled e work resolved := by
    rw [length_cons, Nat.add_right_comm, failAll, if_pos resolved]
  next {r attr} e work open_ := by
    dsimp only
    rw [length_work, length_cons, Nat.add_right_comm, failAll, open_]
    rfl

theorem Poisons.eq_failAll {loop : Reactor → List Failure → Reactor} (h : Poisons loop)
    (r : Reactor) (work : List Failure) :
    loop r work = failAll (work.length + r.exportCount) r work := by
  obtain ⟨total, same⟩ : ∃ total, work.length + r.exportCount = total := ⟨_, rfl⟩
  induction total generalizing r work with
  | zero =>
    obtain rfl : work = [] := length_eq_zero_iff.mp (by omega)
    rw [h.done, failAll_poisons.done]
  | succ total ih =>
    cases work with
    | nil => rw [h.done, failAll_poisons.done]
    | cons failure work =>
      obtain ⟨attr, e⟩ := failure
      rw [length_cons] at same
      cases resolved : r.isResolved attr with
      | true =>
        rw [h.settled e work resolved, failAll_poisons.settled e work resolved]
        exact ih r work (by omega)
      | false =>
        rw [h.next e work resolved, failAll_poisons.next e work resolved]
        refine ih _ _ ?_
        rw [length_work]
        omega

theorem wellFounded_givesWay : WellFounded fun after before => GivesWay before after :=
  Subrelation.wf GivesWay.size_lt
    (InvImage.wf (fun rules : Multiset Rule => (rules.map Rule.size).sum) Nat.lt_wfRel.wf)

/-- The loops of a reactor end.  There is one way to empty the queue turn after turn without a bound,
and a run of a reactor that can come about takes it; in each turn the first rule of the queue is still
there and gives way to rules that its script registers, and so do rules that runs inside it start, which
cannot go on forever.  On every reactor whatsoever there is one way to work off failures without a bound,
and a failed attribute takes it. -/
theorem engine_loops_end (symbols : SymbolTable) :
    Empties symbols (fun r => drain symbols r.load r) ∧
      (∀ loop, Empties symbols loop → ∀ r : Reactor, r.Reachable →
        runBy loop r = r.run symbols ∧
          ∀ id queue, r.queue = id :: queue → ∃ p, r.rule? id = some p ∧
            Relation.TransGen GivesWay ↑r.held
              ↑(execute (runBy loop) symbols p.rule (r.begun id queue p.rule)).2.held) ∧
      (WellFounded fun after before => GivesWay before after) ∧
      (Poisons fun r work => failAll (work.length + r.exportCount) r work) ∧
      ∀ loop, Poisons loop → ∀ (r : Reactor) attr e, loop r [(attr, e)] = r.fail attr e := by
  refine ⟨drain_empties symbols, fun loop empties r reached => ⟨?_, fun id queue front => ?_⟩,
    wellFounded_givesWay, failAll_poisons, fun loop poisons r attr e => poisons.eq_failAll r _⟩
  · have entered := (Makes.enter r).leads.reachable reached
    rw [Reactor.run, runBy, runBy, empties.eq_drain entered (load_le_fuel r)]
  · obtain ⟨p, found, _⟩ := (reached.orderly.consistent.mem_queue id).mp (by simp [front])
    have begins := (Makes.start front found).leads.reachable reached
    have left := load_begun found queue
    have runs := drain_within symbols (Nat.le_refl r.load)
    have body : execute (runBy (drain symbols r.load)) symbols p.rule (r.begun id queue p.rule) =
        execute (runBy loop) symbols p.rule (r.begun id queue p.rule) := by
      refine execute_agrees (runBy_agrees fun reached fits => ?_) runs begins (by omega)
      exact (empties.eq_drain reached fits).symm
    refine ⟨p, found, ?_⟩
    rw [← body]
    exact (reached.orderly.execute symbols runs (by omega) front found).2

/-- Two rules that export what the other waits for, and one of them what it waits for itself. -/
def entangled : Reactor :=
  (Reactor.empty.register ⟨"own", [typeOfNode 0], [typeOfNode 0, typeOfNode 1], []⟩).register
    ⟨"other", [typeOfNode 1], [typeOfNode 0], []⟩

theorem engine_loops_end_entangled :
    runBy (fun r => drain .empty r.load r) (Reactor.empty.register rerunning) =
        (Reactor.empty.register rerunning).run .empty ∧
      (Reactor.empty.register rerunning).queue = [0] ∧
      (∃ p, (Reactor.empty.register rerunning).rule? 0 = some p ∧ Relation.TransGen GivesWay
        ↑(Reactor.empty.register rerunning).held
        ↑(execute (runBy fun r => drain .empty r.load r) .empty p.rule
          ((Reactor.empty.register rerunning).begun 0 [] p.rule)).2.held) ∧
      failAll (1 + entangled.exportCount) entangled [(typeOfNode 0, 0)] =
        entangled.fail (typeOfNode 0) 0 ∧
      (entangled.fail (typeOfNode 0) 0).store.entries.keys = [typeOfNode 0, typeOfNode 1] := by
  obtain ⟨empties, unique, _, poisons, settles⟩ := engine_loops_end .empty
  have reached : (Reactor.empty.register rerunning).Reachable :=
    ⟨_, .step .here (.register .empty rerunning)⟩
  obtain ⟨same, turns⟩ := unique _ empties _ reached
  exact ⟨same, rfl, turns 0 [] rfl, settles _ poisons entangled (typeOfNode 0) 0, rfl⟩

end BlFront.Reactor
