import BlFront.Proofs.Reactor.Moves

/-!
# Runs as moves

A run is a sequence of moves, whatever its rules do and however it ends: with a result or a fault,
with runs inside it, and with bodies that fail half way.  Every request on the way is one that the
body of a rule asks for which the run started.
-/

namespace BlFront

open List

variable {past : List (Reactor × Move)} {bound : Nat}

/-! ### What bodies ask for -/

/-- The move that stores an output. -/
def Output.move (attr : Attribute) : Output → Move
  | .value v => .write attr v
  | .error e => .reject e [attr]

/-- The requests that a step of a body can make. -/
inductive Action.Asks : Action → Move → Prop
  | seed (attr : Attribute) (value : Value) : Asks (.seed attr value) (.seed attr value)
  | reject (error : SemanticError) (affected : List Attribute) :
      Asks (.reject error affected) (.reject error affected)
  | register (rule : Rule) : Asks (.register rule) (.register rule)
  | report {f : View → Except ReactorError (List Effect)} {view : View} {effects : List Effect}
      {error : SemanticError} (computed : f view = .ok effects) (mem : .report error ∈ effects) :
      Asks (.compute f) (.reject error [])
  | output {f : View → Except ReactorError (List Effect)} {view : View} {effects : List Effect}
      {attr : Attribute} {output : Output} (computed : f view = .ok effects)
      (mem : .write attr output ∈ effects) : Asks (.compute f) (output.move attr)
  | attempt {action : Action} {m : Move} (asks : Asks action m) : Asks (.attempt action) m

def Rule.Asks (rule : Rule) (m : Move) : Prop := ∃ action ∈ rule.body, action.Asks m

/-- The moves that someone has to ask for. -/
def Move.isRequest : Move → Bool
  | .seed .. | .write .. | .reject .. | .register .. => true
  | _ => false

/-- The moves that a body makes itself. -/
def Move.isOwn : Move → Bool
  | .note .. => true
  | m => m.isRequest

/-- The step starts a run. -/
def Action.runs : Action → Bool
  | .run => true
  | .attempt action => action.runs
  | _ => false

namespace Reactor

variable {r r' r'' : Reactor} {m : Move}

/-! ### Paths -/

/-- The moves that lead from one reactor to another, the latest first, each with the reactor that
made it. -/
inductive Path (r : Reactor) : List (Reactor × Move) → Reactor → Prop
  | here : Path r [] r
  | step {past : List (Reactor × Move)} {s s' : Reactor} {m : Move} (before : Path r past s)
      (makes : s.Makes m s') : Path r ((s, m) :: past) s'

variable {more : List (Reactor × Move)}

theorem Path.trans (first : r.Path past r')
    (second : r'.Path more r'') : r.Path (more ++ past) r'' := by
  induction second with
  | here => exact first
  | step _ makes ih => exact ih.step makes

theorem Path.orderly (path : r.Path past r') (h : r.Orderly) : r'.Orderly := by
  induction path with
  | here => exact h
  | step _ makes ih => exact (makes.outcome ih).orderly

theorem Path.grows (path : r.Path past r') (h : r.Orderly) : r.Grows r' := by
  induction path with
  | here => exact .refl r
  | step before makes ih => exact ih.trans (makes.outcome (before.orderly h)).grows

/-- Every request is one that a rule asks for, which is one of the given rules or has started on
the way. -/
def Attributed (author : Rule → Prop) (past : List (Reactor × Move)) : Prop :=
  ∀ s m, (s, m) ∈ past → m.isRequest = true →
    ∃ rule, (author rule ∨ ∃ t, (t, .start rule) ∈ past) ∧ rule.Asks m

theorem Attributed.append {author : Rule → Prop}
    (first : Attributed author past) (second : Attributed author more) :
    Attributed author (more ++ past) := by
  intro s m mem request
  rcases mem_append.mp mem with mem | mem
  · obtain ⟨rule, here | ⟨t, ht⟩, asks⟩ := second s m mem request
    · exact ⟨rule, .inl here, asks⟩
    · exact ⟨rule, .inr ⟨t, mem_append_left _ ht⟩, asks⟩
  · obtain ⟨rule, here | ⟨t, ht⟩, asks⟩ := first s m mem request
    · exact ⟨rule, .inl here, asks⟩
    · exact ⟨rule, .inr ⟨t, mem_append_right _ ht⟩, asks⟩

/-- One reactor becomes another by moves that rules ask for. -/
def Goes (author : Rule → Prop) (r r' : Reactor) : Prop :=
  ∃ past, r.Path past r' ∧ Attributed author past

namespace Goes

variable {author : Rule → Prop}

theorem refl (r : Reactor) : Goes author r r := ⟨[], .here, by simp [Attributed]⟩

theorem trans (first : Goes author r r') (second : Goes author r' r'') : Goes author r r'' := by
  obtain ⟨past, path, asked⟩ := first
  obtain ⟨more, path', asked'⟩ := second
  exact ⟨more ++ past, path.trans path', asked.append asked'⟩

theorem single (makes : r.Makes m r')
    (asked : m.isRequest = true → ∃ rule, author rule ∧ rule.Asks m) : Goes author r r' := by
  refine ⟨[(r, m)], .step .here makes, ?_⟩
  intro s m mem request
  cases mem_singleton.mp mem
  obtain ⟨rule, here, asks⟩ := asked request
  exact ⟨rule, .inl here, asks⟩

theorem mono (goes : Goes (fun _ => False) r r') : Goes author r r' := by
  obtain ⟨past, path, asked⟩ := goes
  refine ⟨past, path, fun s m mem request => ?_⟩
  obtain ⟨rule, here, asks⟩ := asked s m mem request
  exact ⟨rule, .inr (here.resolve_left id), asks⟩

theorem orderly (goes : Goes author r r') (h : r.Orderly) : r'.Orderly := by
  obtain ⟨past, path, _⟩ := goes
  exact path.orderly h

end Goes

/-! ### Rules that come and rules that go -/

/-- From one reactor to another some rules have come and some were executed, with values for all their
dependencies; of the others that are not there any more each has been lost. -/
structure Trades (came executed : List Rule) (r r' : Reactor) : Prop where
  orderly : r'.Orderly
  grows : r.Grows r'
  shuts : r.Shuts r'
  turnover : ∃ lost, (r.held ++ came).Perm (executed ++ lost ++ r'.held) ∧
    ∀ rule ∈ lost, r'.Lost rule
  valued : ∀ rule ∈ executed, ∀ d ∈ rule.deps, (r'.get? d).isSome

theorem Shuts.refl (r : Reactor) : r.Shuts r := ⟨Nat.le_refl _, fun _ none => none⟩

theorem Shuts.trans (first : r.Shuts r') (second : r'.Shuts r'') : r.Shuts r'' :=
  ⟨Nat.le_trans first.length second.length, fun known none =>
    second.gone (Nat.lt_of_lt_of_le known first.length) (first.gone known none)⟩

namespace Trades

variable {came came' executed executed' : List Rule}

theorem refl (h : r.Orderly) : Trades [] [] r r :=
  ⟨h, .refl r, .refl r, ⟨[], by simp, by simp⟩, by simp⟩

theorem trans (first : Trades came executed r r') (second : Trades came' executed' r' r'') :
    Trades (came ++ came') (executed ++ executed') r r'' := by
  obtain ⟨lost, sum, isLost⟩ := first.turnover
  obtain ⟨lost', sum', isLost'⟩ := second.turnover
  refine ⟨second.orderly, first.grows.trans second.grows, first.shuts.trans second.shuts,
    ⟨lost ++ lost', ?_, fun rule mem => ?_⟩, fun rule mem d dep => ?_⟩
  · calc
      (r.held ++ (came ++ came')).Perm (executed ++ lost ++ r'.held ++ came') := by
          rw [← append_assoc]
          exact sum.append_right came'
      List.Perm _ (executed ++ lost ++ (executed' ++ lost' ++ r''.held)) := by
          rw [append_assoc _ r'.held]
          exact sum'.append_left _
      List.Perm _ (executed ++ executed' ++ (lost ++ lost') ++ r''.held) := by
          simp only [append_assoc]
          refine List.Perm.append_left executed ?_
          rw [← append_assoc lost, ← append_assoc executed']
          exact perm_append_comm.append_right _
  · rcases mem_append.mp mem with mem | mem
    · exact (isLost rule mem).grow second.grows
    · exact isLost' rule mem
  · rcases mem_append.mp mem with mem | mem
    · obtain ⟨v, hv⟩ := Option.isSome_iff_exists.mp (first.valued rule mem d dep)
      exact Option.isSome_iff_exists.mpr ⟨v, second.grows.get? hv⟩
    · exact second.valued rule mem d dep

theorem of_outcome (h : Outcome m r r') (lasts : m ≠ .settle) :
    Trades m.added?.toList (m.leaving r) r r' := by
  obtain ⟨lost, sum, poisoned⟩ := h.turnover
  refine ⟨h.orderly, h.grows, h.shuts.resolve_left lasts,
    ⟨lost, sum, fun rule mem => (poisoned rule mem).lost⟩, fun rule mem d dep => ?_⟩
  cases m with
  | start started =>
    obtain rfl := mem_singleton.mp mem
    obtain ⟨v, hv⟩ := h.ready rule rfl d dep
    exact Option.isSome_iff_exists.mpr ⟨v, h.grows.get? hv⟩
  | settle => exact absurd rfl lasts
  | _ => cases mem

theorem mem_held (h : Trades came executed r r') {rule : Rule} (mem : rule ∈ r'.held) :
    rule ∈ r.held ∨ rule ∈ came := by
  obtain ⟨lost, sum, _⟩ := h.turnover
  exact mem_append.mp (sum.mem_iff.mpr (mem_append_right _ mem))

end Trades

theorem Makes.running (makes : r.Makes m r') (own : m.isOwn = true) : r'.running = r.running := by
  cases makes with
  | seed seeded => exact resolve_running (resolve_of_seed seeded)
  | write resolved => exact resolve_running resolved
  | reject error affected => exact reject_running r error affected
  | register rule => exact register_running r rule
  | note => rfl
  | _ => cases own

/-! ### Bodies -/

/-- What a part of the body of a rule does: its moves, the rules that can have come, whether a run
was started, and what it writes. -/
structure Performs (rule : Rule) (came : List Rule) (ran : Bool) (x x' : Execution) : Prop where
  goes : Goes (· = rule) x.reactor x'.reactor
  dwindles : Dwindles (↑x.reactor.held + ↑came) ↑x'.reactor.held
  outputs : (∀ w ∈ x.outputs, rule.Asks (w.2.move w.1)) → ∀ w ∈ x'.outputs, rule.Asks (w.2.move w.1)
  running : x'.reactor.running = (x.reactor.running && !ran)
  trades : ran = false → Trades came [] x.reactor x'.reactor

namespace Performs

variable {rule : Rule} {came came' : List Rule} {ran ran' : Bool} {x x' x'' : Execution}

theorem refl (rule : Rule) (h : x.reactor.Orderly) : Performs rule [] false x x :=
  ⟨.refl _, .of_le (Multiset.le_add_right ..), id, (Bool.and_true _).symm, fun _ => .refl h⟩

theorem trans (first : Performs rule came ran x x') (second : Performs rule came' ran' x' x'') :
    Performs rule (came ++ came') (ran || ran') x x'' where
  goes := first.goes.trans second.goes
  dwindles := by
    rw [← Multiset.coe_add, ← add_assoc]
    exact (first.dwindles.add _).trans second.dwindles
  outputs h := second.outputs (first.outputs h)
  running := by rw [second.running, first.running, Bool.not_or, Bool.and_assoc]
  trades still :=
    (first.trades (Bool.or_eq_false_iff.mp still).1).trans
      (second.trades (Bool.or_eq_false_iff.mp still).2)

/-- What is done behind a step without new rules. -/
theorem silently (first : Performs rule came ran x x') (second : Performs rule [] false x' x'') :
    Performs rule came ran x x'' := by
  have both := first.trans second
  rwa [append_nil, Bool.or_false] at both

/-- A move that a body makes. -/
theorem single (h : x.reactor.Orderly) (makes : x.reactor.Makes m r) (own : m.isOwn = true)
    (asked : m.isRequest = true → rule.Asks m) :
    Performs rule m.added?.toList false x { x with reactor := r } where
  goes := .single makes fun request => ⟨rule, rfl, asked request⟩
  dwindles := (makes.outcome h).dwindles
  outputs := id
  running := (makes.running own).trans (Bool.and_true _).symm
  trades _ := by
    have trades := Trades.of_outcome (makes.outcome h) (by rintro rfl; cases own)
    rwa [show m.leaving x.reactor = [] by cases m <;> first | rfl | cases own] at trades

theorem note (rule : Rule) (h : x.reactor.Orderly) (note : Note) :
    Performs rule [] false x (noteIn x note) :=
  .single h (.note x.reactor note) rfl (by simp [Move.isRequest])

end Performs

section Bodies

variable {rule : Rule} {x : Execution}

theorem applyEffects_performs {effects : List Effect} (h : x.reactor.Orderly)
    (reports : ∀ error, .report error ∈ effects → rule.Asks (.reject error []))
    (writes : ∀ attr output, .write attr output ∈ effects → rule.Asks (output.move attr)) :
    Performs rule [] false x (applyEffects rule effects x).2 := by
  induction effects generalizing x with
  | nil => exact .refl rule h
  | cons effect effects ih =>
    have reports' := fun error mem => reports error (.tail _ mem)
    have writes' := fun attr output mem => writes attr output (.tail _ mem)
    cases effect with
    | write attr output =>
      rw [applyEffects]
      split
      · have rest := ih (x := { x with outputs := x.outputs ++ [(attr, output)] }) h reports' writes'
        refine ⟨rest.goes, rest.dwindles, fun old => rest.outputs fun w hw => ?_, rest.running,
          rest.trades⟩
        rcases mem_append.mp hw with hw | hw
        · exact old w hw
        · cases mem_singleton.mp hw
          exact writes attr output (by simp)
      · exact .refl rule h
    | report error =>
      have first := Performs.single h (.reject x.reactor error []) rfl
        fun _ => reports error (by simp)
      exact first.trans (ih (first.goes.orderly h) reports' writes')
    | note note =>
      have first := Performs.note rule h note
      exact first.trans (ih (first.goes.orderly h) reports' writes')

/-- A way to run a reactor inside a body, as long as there is not too much to run. -/
def RunsWithin (bound : Nat) (run : Reactor → Except ReactorError RunStats × Reactor) : Prop :=
  ∀ r : Reactor, r.Orderly → r.load ≤ bound →
    Goes (fun _ => False) r (run r).2 ∧ Dwindles ↑r.held ↑(run r).2.held ∧
      (run r).2.running = false

variable {run : Reactor → Except ReactorError RunStats × Reactor}

theorem perform_performs {bound : Nat}
    (runs : RunsWithin bound run) (symbols : SymbolTable) (action : Action)
    (asks : ∀ m, action.Asks m → rule.Asks m) (h : x.reactor.Orderly)
    (enough : x.reactor.load + action.size ≤ bound) :
    Performs rule action.registered action.runs x (perform run symbols rule action x).2 := by
  cases action with
  | compute f =>
    rw [perform]
    cases computed : f (x.reactor.view symbols rule) with
    | ok effects =>
      exact applyEffects_performs h (fun _ mem => asks _ (.report computed mem))
        fun _ _ mem => asks _ (.output computed mem)
    | error e => exact .refl rule h
  | seed attr value =>
    rw [perform]
    cases seeded : x.reactor.seed attr value with
    | ok r => exact .single h (.seed seeded) rfl fun _ => asks _ (.seed attr value)
    | error e => exact .refl rule h
  | reject error affected =>
    rw [perform]
    exact .single h (.reject _ error affected) rfl fun _ => asks _ (.reject error affected)
  | register inner =>
    rw [perform]
    exact .single h (.register _ inner) rfl fun _ => asks _ (.register inner)
  | run =>
    obtain ⟨goes, dwindles, ended⟩ := runs x.reactor h (Nat.le_trans (Nat.le_add_right _ _) enough)
    have first : Performs rule [] true x { x with reactor := (run x.reactor).2 } :=
      ⟨goes.mono, (add_zero (↑x.reactor.held : Multiset Rule)).symm ▸ dwindles, id,
        ended.trans (Bool.and_false _).symm, by simp⟩
    rw [perform]
    cases result : run x.reactor with
    | mk outcome r =>
      rw [result] at first
      cases outcome with
      | ok stats => exact first.silently (.note rule (first.goes.orderly h) (.ran stats))
      | error e => exact first
  | attempt action =>
    have inner := perform_performs runs symbols action (fun m ha => asks m (.attempt ha)) h enough
    rw [perform]
    cases result : perform run symbols rule action x with
    | mk outcome x' =>
      rw [result] at inner
      cases outcome with
      | ok => exact inner
      | error e => exact inner.silently (.note rule (inner.goes.orderly h) (.refused e))

/-- A body does its steps in order, and all of them if it comes to its end. -/
theorem performAll_performs
    (runs : RunsWithin bound run) (symbols : SymbolTable) {body : List Action}
    (asks : ∀ action ∈ body, ∀ m, action.Asks m → rule.Asks m) (h : x.reactor.Orderly)
    (enough : x.reactor.load + bodySize body ≤ bound) :
    ∃ done, done <+: body ∧ Performs rule (done.flatMap Action.registered) (done.any Action.runs) x
        (performAll run symbols rule body x).2 ∧
      ((performAll run symbols rule body x).1 = .ok () → done = body) := by
  induction body generalizing x with
  | nil => exact ⟨[], nil_prefix, .refl rule h, fun _ => rfl⟩
  | cons action body ih =>
    rw [bodySize] at enough
    have first := perform_performs runs symbols action (asks action (by simp)) h (by omega)
    rw [performAll]
    cases result : perform run symbols rule action x with
    | mk outcome x' =>
      rw [result] at first
      have spent := load_le_of_dwindles first.dwindles
      rw [action.size_registered] at spent
      cases outcome with
      | ok =>
        obtain ⟨done, begins, rest, all⟩ := ih (fun action mem => asks action (by simp [mem]))
          (first.goes.orderly h) (by omega)
        exact ⟨action :: done, (prefix_cons_inj _).mpr begins, first.trans rest,
          fun ok => congrArg _ (all ok)⟩
      | error e =>
        exact ⟨[action], by simp, by simpa using first, by simp⟩

/-- What a body has written is stored, unless it failed before. -/
theorem commit_performs {outputs : List (Attribute × Output)}
    (asked : ∀ w ∈ outputs, rule.Asks (w.2.move w.1)) (h : r.Orderly)
    (outs : List (Attribute × Output)) :
    Performs rule [] false ⟨r, outs⟩ ⟨(commit outputs r).2, outs⟩ ∧
      ((commit outputs r).1 = .ok () →
        ∀ w ∈ outputs, (commit outputs r).2.isResolved w.1 = true) := by
  induction outputs generalizing r with
  | nil => exact ⟨.refl rule h, by simp⟩
  | cons w outputs ih =>
    obtain ⟨attr, output⟩ := w
    have here := asked (attr, output) (by simp)
    -- one output is stored, and then the others
    have next : ∀ {s}, Performs rule [] false ⟨r, outs⟩ ⟨s, outs⟩ → s.isResolved attr = true →
        Performs rule [] false ⟨r, outs⟩ ⟨(commit outputs s).2, outs⟩ ∧
          ((commit outputs s).1 = .ok () →
            ∀ w ∈ (attr, output) :: outputs, (commit outputs s).2.isResolved w.1 = true) := by
      intro s first stored
      obtain ⟨rest, all⟩ := ih (fun w mem => asked w (.tail _ mem)) (first.goes.orderly h)
      refine ⟨first.trans rest, fun ok => forall_mem_cons.mpr ⟨?_, all ok⟩⟩
      exact (rest.trades rfl).grows.isResolved stored
    cases output with
    | value v =>
      rw [commit]
      cases resolved : r.resolve attr v with
      | ok s =>
        exact next (.single h (.write resolved) rfl fun _ => here) (h.resolve_resolves resolved)
      | error e => exact ⟨.refl rule h, by simp⟩
    | error error =>
      exact next (.single h (.reject r error [attr]) rfl fun _ => here)
        (h.reject_resolves error (by simp))

/-- A rule that is executed to its end has done all its steps and stored all its exports. -/
theorem execute_performs
    (runs : RunsWithin bound run) (symbols : SymbolTable) (rule : Rule) (h : r.Orderly)
    (enough : r.load + bodySize rule.body ≤ bound) :
    ∃ done outs, done <+: rule.body ∧
      Performs rule (done.flatMap Action.registered) (done.any Action.runs) ⟨r, []⟩
        ⟨(execute run symbols rule r).2, outs⟩ ∧
      ((execute run symbols rule r).1 = .ok () → done = rule.body ∧
        ∀ attr ∈ rule.exports, (execute run symbols rule r).2.isResolved attr = true) := by
  obtain ⟨done, begins, body, all⟩ := performAll_performs (x := ⟨r, []⟩) runs symbols
    (fun action mem m ha => ⟨action, mem, ha⟩) h enough
  have asked := body.outputs (by simp)
  rw [execute]
  cases result : performAll run symbols rule rule.body ⟨r, []⟩ with
  | mk outcome x =>
    rw [result] at body asked all
    cases outcome with
    | error e => exact ⟨done, _, begins, body, by simp⟩
    | ok =>
      dsimp only
      split
      · next complete =>
          obtain ⟨stores, stored⟩ := commit_performs asked (body.goes.orderly h) x.outputs
          refine ⟨done, _, begins, body.silently stores, fun ok => ⟨all rfl, fun attr mem => ?_⟩⟩
          rw [List.isEmpty_iff, List.filter_eq_nil_iff] at complete
          have written : x.outputs.any (·.1 == attr) = true := by simpa using complete attr mem
          obtain ⟨w, hw, same⟩ := any_eq_true.mp written
          rw [← beq_iff_eq.mp same]
          exact stored ok w hw
      · exact ⟨done, _, begins, body, by simp⟩

end Bodies

/-! ### Queues -/

/-- What a run inside a body does follows from what emptying the queue does. -/
theorem runBy_within {drain : Reactor → Except ReactorError Nat × Reactor}
    (drains : ∀ r : Reactor, r.Orderly → r.load ≤ bound →
      Goes (fun _ => False) r (drain r).2 ∧ Dwindles ↑r.held ↑(drain r).2.held ∧
        ∀ n, (drain r).1 = .ok n → (drain r).2.queue = []) : RunsWithin bound (runBy drain) := by
  intro r h enough
  have entered := Makes.outcome h (.enter r)
  obtain ⟨goes, dwindles, empty⟩ := drains _ entered.orderly enough
  have first : Goes (fun _ => False) r (drain { r with running := true }).2 :=
    (Goes.single (.enter r) (by simp [Move.isRequest])).trans goes
  rw [runBy]
  cases result : drain { r with running := true } with
  | mk outcome r' =>
    rw [result] at first dwindles empty
    cases outcome with
    | ok n =>
      exact ⟨first.trans (.single (.settle (empty n rfl) n) (by simp [Move.isRequest])),
        .of_le (Multiset.zero_le _), rfl⟩
    | error e => exact ⟨first.trans (.single (.leave r') (by simp [Move.isRequest])), dwindles, rfl⟩

/-- What the rule did that a run started, the run did. -/
theorem Goes.started {s : Reactor} {rule : Rule} (makes : r.Makes (.start rule) s)
    (body : Goes (· = rule) s r') : Goes (fun _ => False) r r' := by
  obtain ⟨past, path, asked⟩ := body
  have start : r.Path [(r, .start rule)] s := .step .here makes
  refine ⟨past ++ [(r, .start rule)], start.trans path, fun t m mem request => ?_⟩
  rcases mem_append.mp mem with mem | mem
  · obtain ⟨author, rfl | ⟨u, hu⟩, asks⟩ := asked t m mem request
    · exact ⟨author, .inr ⟨r, by simp⟩, asks⟩
    · exact ⟨author, .inr ⟨u, mem_append_left _ hu⟩, asks⟩
  · cases mem_singleton.mp mem
    cases request

section Draining

variable {symbols : SymbolTable} {fuel : Nat} {id : RuleId} {queue : List RuleId} {p : Pending}

/-- The reactor that the body of the first rule of the queue sees. -/
def begun (r : Reactor) (id : RuleId) (queue : List RuleId) (rule : Rule) : Reactor :=
  (r.pop id queue).record (.ran rule.name rule.exports.length)

theorem Trades.start (h : r.Orderly) (front : r.queue = id :: queue) (found : r.rule? id = some p) :
    Trades [] [p.rule] r (r.begun id queue p.rule) :=
  .of_outcome (h.start front found) (by simp)

theorem drain_of_error (front : r.queue = id :: queue) (found : r.rule? id = some p)
    {e : ReactorError}
    (failed : execute (runBy (drain symbols fuel)) symbols p.rule (r.begun id queue p.rule) =
      (.error e, r')) : drain symbols (fuel + 1) r = (.error e, r') := by
  simp only [begun, pop] at failed
  simp only [drain, front, found, failed]

theorem drain_of_ok (front : r.queue = id :: queue) (found : r.rule? id = some p)
    (ran : execute (runBy (drain symbols fuel)) symbols p.rule (r.begun id queue p.rule) =
      (.ok (), r')) :
    drain symbols (fuel + 1) r = ((drain symbols fuel r').1.map (· + 1), (drain symbols fuel r').2) := by
  simp only [begun, pop] at ran
  simp only [drain, front, found, ran]
  cases drained : drain symbols fuel r' with
  | mk result r'' => cases result <;> rfl

theorem Orderly.queue_eq_nil (h : r.Orderly) (idle : r.load = 0) : r.queue = [] := by
  cases hq : r.queue with
  | nil => rfl
  | cons id queue =>
    obtain ⟨p, hp, _⟩ := (h.consistent.mem_queue id).mp (by simp [hq])
    have := load_pop hp queue
    have := size_pos p.rule
    omega

theorem load_begun (found : r.rule? id = some p) (queue : List RuleId) :
    r.load = 1 + bodySize p.rule.body + (r.begun id queue p.rule).load := by
  rw [← size_flatMap_registered, ← Rule.registered, ← p.rule.size_eq]
  exact load_pop found queue

/-- The first rule of the queue gives way to rules that its body registers, whatever runs its body
starts. -/
theorem Orderly.execute {run : Reactor → Except ReactorError RunStats × Reactor} (h : r.Orderly)
    (symbols : SymbolTable) (runs : RunsWithin fuel run) (enough : r.load ≤ fuel + 1) (front : r.queue = id :: queue)
    (found : r.rule? id = some p) :
    Goes (fun _ => False) r (execute run symbols p.rule (r.begun id queue p.rule)).2 ∧
      Relation.TransGen GivesWay ↑r.held
        ↑(execute run symbols p.rule (r.begun id queue p.rule)).2.held := by
  have makes : r.Makes (.start p.rule) (r.begun id queue p.rule) := .start front found
  have left := load_begun found queue
  obtain ⟨done, _, begins, body, _⟩ :=
    execute_performs runs symbols p.rule (makes.outcome h).orderly (by omega)
  have some : (↑(done.flatMap Action.registered) : Multiset Rule) ≤ ↑p.rule.registered :=
    (begins.sublist.flatMap _).subperm
  refine ⟨.started makes body.goes, .head' ⟨p.rule, ↑(r.begun id queue p.rule).held, _,
    Multiset.coe_eq_coe.mpr (held_pop found queue), some, rfl⟩ ?_⟩
  rw [add_comm]
  exact body.dwindles

theorem load_lt_of_givesWay (h : Relation.TransGen GivesWay ↑r.held ↑r'.held) : r'.load < r.load := by
  obtain ⟨between, first, rest⟩ := Relation.TransGen.head'_iff.mp h
  rw [load_eq_sum, load_eq_sum]
  exact Nat.lt_of_le_of_lt (Dwindles.size_le rest) first.size_lt

/-- The queue runs empty before the fuel does, also in runs inside the run: a rule that is run
gives way to rules that were counted with it. -/
theorem drain_goes (symbols : SymbolTable) (fuel : Nat) (h : r.Orderly) (enough : r.load ≤ fuel) :
    Goes (fun _ => False) r (drain symbols fuel r).2 ∧
      Dwindles ↑r.held ↑(drain symbols fuel r).2.held ∧
      ∀ n, (drain symbols fuel r).1 = .ok n → (drain symbols fuel r).2.queue = [] := by
  induction fuel generalizing r with
  | zero => exact ⟨.refl r, .refl, fun _ _ => h.queue_eq_nil (Nat.le_zero.mp enough)⟩
  | succ fuel ih =>
    cases hq : r.queue with
    | nil =>
      have same : drain symbols (fuel + 1) r = (.ok 0, r) := by simp [drain, hq]
      rw [same]
      exact ⟨.refl r, .refl, fun _ _ => hq⟩
    | cons id queue =>
      obtain ⟨p, hp, _⟩ := (h.consistent.mem_queue id).mp (by simp [hq])
      obtain ⟨first, gives⟩ :=
        h.execute symbols (runBy_within fun r hr he => ih hr he) enough hq hp
      cases executed : Reactor.execute (runBy (drain symbols fuel)) symbols p.rule
          (r.begun id queue p.rule) with
      | mk outcome r' =>
        rw [executed] at first gives
        cases outcome with
        | error e =>
          rw [drain_of_error hq hp executed]
          exact ⟨first, gives.to_reflTransGen, by simp⟩
        | ok =>
          have fewer := load_lt_of_givesWay gives
          obtain ⟨goes, dwindles, empty⟩ := ih (first.orderly h) (by omega)
          rw [drain_of_ok hq hp executed]
          refine ⟨first.trans goes, gives.to_reflTransGen.trans dwindles, fun n hn => ?_⟩
          cases drained : (drain symbols fuel r').1 with
          | ok k => exact empty k drained
          | error e =>
            rw [drained] at hn
            cases hn

end Draining

/-- A run is made of moves, and each request among them is asked for by a rule that it started. -/
theorem run_within (symbols : SymbolTable) (bound : Nat) : RunsWithin bound (·.run symbols) :=
  fun r h _ => runBy_within (fun _ hr he => drain_goes symbols r.fuel hr he) r h (load_le_fuel r)

theorem run_goes (h : r.Orderly) (symbols : SymbolTable) :
    Goes (fun _ => False) r (r.run symbols).2 :=
  (run_within symbols r.load r h (Nat.le_refl _)).1

end Reactor

end BlFront
