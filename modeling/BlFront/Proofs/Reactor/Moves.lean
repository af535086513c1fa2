import BlFront.Proofs.Reactor.Failing

/-!
# The moves of a reactor

The life of a reactor is a sequence of moves: the requests that are made from outside or by the
body of a rule, and the moves of a run.  An outcome says once what a move can do to slots, errors
and rules; everything about whole lives follows from outcomes.
-/

namespace BlFront

open List

variable {attr : Attribute} {p : Pending} {rule : Rule} {id : RuleId} {v : Value}

/-! ### Rules that are pending -/

namespace Reactor

variable {r r' : Reactor}

/-- The rules that are pending, in order of registration. -/
def held (r : Reactor) : List Rule := r.pendingRules.map (·.rule)

theorem mem_held : rule ∈ r.held ↔ r.Waits rule := by
  simp only [held, Waits, mem_map, mem_pendingRules]
  constructor
  · rintro ⟨p, ⟨id, hp⟩, hr⟩
    exact ⟨id, p, hp, hr⟩
  · rintro ⟨id, p, hp, hr⟩
    exact ⟨p, ⟨id, hp⟩, hr⟩

theorem load_eq_sum (r : Reactor) : r.load = (r.held.map Rule.size).sum := by
  rw [load, held, map_map]
  rfl

theorem held_pop (found : r.rule? id = some p) (queue : List RuleId) :
    r.held.Perm (p.rule :: (r.pop id queue).held) :=
  (pendingRules_pop found queue).map Pending.rule

theorem pendingRules_eq (r : Reactor) {n : Nat} (all : r.rules.length ≤ n) :
    r.pendingRules = (List.range n).filterMap r.rule? := by
  obtain ⟨k, rfl⟩ := Nat.exists_eq_add_of_le all
  have beyond : (List.range' r.rules.length k).filterMap r.rule? = [] := by
    rw [filterMap_eq_nil_iff]
    intro id hid
    simp [rule?, List.getElem?_eq_none (mem_range'_1.mp hid).1]
  have listed : (List.range r.rules.length).map r.rule? = r.rules := by
    refine ext_getElem (by simp) fun id h _ => ?_
    have hid : id < r.rules.length := by simpa using h
    simp [rule?, hid]
  rw [range_add, filterMap_append, ← range'_eq_map_range, beyond, append_nil,
    pendingRules]
  conv_lhs => rw [← listed, filterMap_map]
  rfl

/-- Rules that are no longer pending can be told one by one. -/
theorem held_perm (kept : ∀ {id p}, r'.rule? id = some p → r.rule? id = some p) :
    ∃ gone, r.held.Perm (gone ++ r'.held) ∧
      ∀ rule ∈ gone, ∃ id p, r.rule? id = some p ∧ r'.rule? id = none ∧ p.rule = rule := by
  let n := max r.rules.length r'.rules.length
  have here := r.pendingRules_eq (n := n) (Nat.le_max_left _ _)
  have there := r'.pendingRules_eq (n := n) (Nat.le_max_right _ _)
  let stays (id : RuleId) : Bool := (r'.rule? id).isSome
  have staying : ((List.range n).filter stays).filterMap r.rule? = r'.pendingRules := by
    rw [there, filterMap_filter]
    refine filterMap_congr fun id _ => ?_
    cases hp : r'.rule? id with
    | none => simp [stays, hp]
    | some p => simp [stays, hp, kept hp]
  refine ⟨(((List.range n).filter fun id => !stays id).filterMap r.rule?).map (·.rule), ?_, ?_⟩
  · rw [held, held, here, ← staying, ← map_append, ← filterMap_append]
    refine (List.Perm.filterMap _ ?_).map _
    exact perm_append_comm.trans (filter_append_perm stays _) |>.symm
  · intro rule mem
    obtain ⟨p, hp, rfl⟩ := mem_map.mp mem
    obtain ⟨id, hid, hp⟩ := mem_filterMap.mp hp
    refine ⟨id, p, hp, ?_, rfl⟩
    simpa [stays] using (mem_filter.mp hid).2

end Reactor

/-! ### Rules that give way to others -/

/-- The rules that a step registers, as they are registered. -/
def Action.registered : Action → List Rule
  | .register rule => [rule.tidied]
  | .attempt action => action.registered
  | _ => []

/-- The rules that a body registers if it comes to its end. -/
def Rule.registered (rule : Rule) : List Rule := rule.body.flatMap Action.registered

theorem Action.size_registered (action : Action) :
    (action.registered.map Rule.size).sum = action.size := by
  cases action with
  | register rule => simp [registered, size, rule.size_tidied]
  | attempt action => exact action.size_registered
  | _ => rfl

theorem size_flatMap_registered (body : List Action) :
    ((body.flatMap Action.registered).map Rule.size).sum = bodySize body := by
  induction body with
  | nil => rfl
  | cons action body ih =>
    rw [flatMap_cons, map_append, sum_append, ih, action.size_registered, bodySize]

theorem Rule.size_eq (rule : Rule) : rule.size = 1 + (rule.registered.map size).sum := by
  rw [registered, size_flatMap_registered]
  cases rule
  rw [size]

/-- One of the rules gives way to rules that its script registers. -/
def GivesWay (before after : Multiset Rule) : Prop :=
  ∃ rule rest parts, before = rule ::ₘ rest ∧ parts ≤ ↑rule.registered ∧ after = parts + rest

/-- Rules give way one after the other. -/
def Dwindles : Multiset Rule → Multiset Rule → Prop := Relation.ReflTransGen GivesWay

section Dwindling

variable {before after more : Multiset Rule}

theorem GivesWay.add (h : GivesWay before after) (more : Multiset Rule) :
    GivesWay (before + more) (after + more) := by
  obtain ⟨rule, rest, parts, rfl, le, rfl⟩ := h
  exact ⟨rule, rest + more, parts, Multiset.cons_add .., le, add_assoc ..⟩

theorem GivesWay.size_lt (h : GivesWay before after) :
    (after.map Rule.size).sum < (before.map Rule.size).sum := by
  obtain ⟨rule, rest, parts, rfl, le, rfl⟩ := h
  obtain ⟨others, all⟩ := Multiset.le_iff_exists_add.mp le
  have sizes := congrArg (fun rules : Multiset Rule => (rules.map Rule.size).sum) all
  simp only [Multiset.map_coe, Multiset.sum_coe, Multiset.map_add, Multiset.sum_add] at sizes
  rw [Multiset.map_add, Multiset.sum_add, Multiset.map_cons, Multiset.sum_cons, rule.size_eq]
  omega

theorem Dwindles.add (h : Dwindles before after) (more : Multiset Rule) :
    Dwindles (before + more) (after + more) :=
  h.lift (· + more) fun _ _ gives => gives.add more

theorem Dwindles.size_le (h : Dwindles before after) :
    (after.map Rule.size).sum ≤ (before.map Rule.size).sum := by
  induction h with
  | refl => exact Nat.le_refl _
  | tail _ gives ih => exact Nat.le_of_lt (Nat.lt_of_lt_of_le gives.size_lt ih)

/-- A rule can be gone without a trace. -/
theorem Dwindles.of_le (h : after ≤ before) : Dwindles before after := by
  obtain ⟨gone, rfl⟩ := Multiset.le_iff_exists_add.mp h
  induction gone using Multiset.induction with
  | empty =>
    rw [add_zero]
    exact .refl
  | cons rule gone ih =>
    refine .head ⟨rule, after + gone, 0, ?_, Multiset.zero_le _, (zero_add _).symm⟩
      (ih (Multiset.le_add_right ..))
    exact Multiset.add_cons ..

end Dwindling

inductive Move where
  | seed (attr : Attribute) (value : Value)
  /-- A rule that ran stores a value. -/
  | write (attr : Attribute) (value : Value)
  | reject (error : SemanticError) (affected : List Attribute)
  | register (rule : Rule)
  | note (note : Note)
  /-- A run begins. -/
  | enter
  /-- A rule leaves the queue to run. -/
  | start (rule : Rule)
  /-- A run comes to its end, and drops the rules that are still pending. -/
  | settle
  /-- A run ends because of a fault. -/
  | leave

namespace Move

/-- The rule that a move adds, as it is registered. -/
def added? : Move → Option Rule
  | .register rule => some rule.tidied
  | _ => none

/-- How much there is more to run. -/
def size : Move → Nat
  | .register rule => rule.size
  | _ => 0

/-- The rules that a move takes away without a loss: the one that starts, and at the end of a run
all that are left. -/
def leaving (r : Reactor) : Move → List Rule
  | .start rule => [rule]
  | .settle => r.held
  | _ => []

/-- The root errors that a move adds. -/
def roots (r : Reactor) : Move → List SemanticError
  | .reject error affected => if r.accepts affected then [error] else []
  | _ => []

/-- A move gives an attribute a value. -/
def stores (m : Move) (attr : Attribute) (v : Value) : Prop := m = .seed attr v ∨ m = .write attr v

/-- Moves that concern no rule and no error. -/
def isPlain : Move → Bool
  | .reject .. | .register .. | .start .. | .settle => false
  | _ => true

theorem stores.isPlain {m : Move} (h : m.stores attr v) : m.isPlain = true := by
  rcases h with rfl | rfl <;> rfl

end Move

namespace Reactor

inductive Makes : Reactor → Move → Reactor → Prop
  | seed {r r' : Reactor} {attr : Attribute} {value : Value} (seeded : r.seed attr value = .ok r') :
      Makes r (.seed attr value) r'
  | write {r r' : Reactor} {attr : Attribute} {value : Value}
      (resolved : r.resolve attr value = .ok r') : Makes r (.write attr value) r'
  | reject (r : Reactor) (error : SemanticError) (affected : List Attribute) :
      Makes r (.reject error affected) (r.reject error affected)
  | register (r : Reactor) (rule : Rule) : Makes r (.register rule) (r.register rule)
  | note (r : Reactor) (note : Note) :
      Makes r (.note note) { r with journal := r.journal ++ [note] }
  | enter (r : Reactor) : Makes r .enter { r with running := true }
  | start {r : Reactor} {id : RuleId} {queue : List RuleId} {p : Pending}
      (front : r.queue = id :: queue) (found : r.rule? id = some p) :
      Makes r (.start p.rule)
        ((r.pop id queue).record (.ran p.rule.name p.rule.exports.length))
  | settle {r : Reactor} (drained : r.queue = []) (executed : Nat) :
      Makes r .settle ({ r with running := false, rules := [], waiters := [] }.record
        (.settled ⟨executed, r.pending⟩ r.rootErrors.length))
  | leave (r : Reactor) : Makes r .leave { r with running := false }

/-! ### The flag of a run -/

section Flag

variable {r r' : Reactor}

theorem foldl_wake_running (ids : List RuleId) (r : Reactor) :
    (ids.foldl wake r).running = r.running := by
  induction ids generalizing r with
  | nil => rfl
  | cons id ids ih => exact (ih (r.wake id)).trans (wake_woken r id).running

theorem resolve_running (resolved : r.resolve attr v = .ok r') : r'.running = r.running := by
  unfold resolve at resolved
  split at resolved
  · cases resolved
    rfl
  · cases resolved
  · cases resolved
    exact foldl_wake_running _ _

theorem resolve_of_seed (seeded : r.seed attr v = .ok r') : r.resolve attr v = .ok r' := by
  unfold seed at seeded
  split at seeded
  · cases seeded
  · split at seeded
    · cases seeded
    · exact seeded

theorem failAll_running (fuel : Nat) (r : Reactor) (work : List Failure) :
    (failAll fuel r work).running = r.running := by
  induction fuel generalizing r work with
  | zero => cases work <;> rfl
  | succ fuel ih =>
    cases work with
    | nil => rfl
    | cons failure work =>
      obtain ⟨attr, error⟩ := failure
      rw [failAll]
      split
      · exact ih r work
      · have purged := foldl_poison_purged attr error (r.waitersOf attr)
          (r.fill attr (.error error)) work
        exact (ih _ _).trans purged.running

theorem foldl_fail_running (attrs : List Attribute) (error : ErrorId) (r : Reactor) :
    (attrs.foldl (fun r attr => r.fail attr error) r).running = r.running := by
  induction attrs generalizing r with
  | nil => rfl
  | cons attr attrs ih => exact (ih (r.fail attr error)).trans (failAll_running _ r _)

theorem reject_running (r : Reactor) (error : SemanticError) (affected : List Attribute) :
    (r.reject error affected).running = r.running := by
  rw [reject]
  split
  · rfl
  · exact foldl_fail_running affected _ _

theorem register_running (r : Reactor) (rule : Rule) : (r.register rule).running = r.running := by
  unfold register
  dsimp only
  split
  · rfl
  · split
    · rfl
    · exact foldl_fail_running _ _ _

end Flag

/-! ### Outcomes -/

/-- A rule has lost a dependency in a move that gave no attribute a value. -/
structure Poisoned (r r' : Reactor) (rule : Rule) : Prop where
  lost : r'.Lost rule
  values : ∀ {attr v}, r'.get? attr = some v → r.get? attr = some v

/-- An attribute fails with the error that a move records. -/
def Direct (m : Move) (r r' : Reactor) (attr : Attribute) (e : ErrorId) : Prop :=
  ∃ error affected, m = .reject error affected ∧ attr ∈ affected ∧ e = r.errors.length ∧
    r'.errors[e]? = some ⟨error, none⟩

/-- The rules that are pending when a move is made, and the one that it adds. -/
def Concerns (m : Move) (r : Reactor) (rule : Rule) : Prop := r.Waits rule ∨ m.added? = some rule

/-- Rules keep their numbers, and one that is gone does not come back. -/
structure Shuts (r r' : Reactor) : Prop where
  length : r.rules.length ≤ r'.rules.length
  gone : ∀ {id}, id < r.rules.length → r.rule? id = none → r'.rule? id = none

/-- What a move can do. -/
structure Outcome (m : Move) (r r' : Reactor) : Prop where
  orderly : r'.Orderly
  grows : r.Grows r'
  roots : r'.rootErrors = r.rootErrors ++ m.roots r
  /-- Rules that were pending or are added leave, are lost or stay, each in one of these ways. -/
  turnover : ∃ lost, (r.held ++ m.added?.toList).Perm (m.leaving r ++ lost ++ r'.held) ∧
    ∀ rule ∈ lost, Poisoned r r' rule
  shuts : m = .settle ∨ r.Shuts r'
  failures : ∀ {attr e}, r'.errorOf? attr = some e → r.errorOf? attr = some e ∨
    Direct m r r' attr e ∨ ∃ rule, Concerns m r rule ∧ r'.Derived rule attr e
  values : ∀ {attr v}, r'.get? attr = some v → r.get? attr = some v ∨ m.stores attr v
  ready : ∀ rule, m = .start rule → ∀ d ∈ rule.deps, ∃ v, r.get? d = some v

variable {r r' : Reactor} {m : Move}

theorem mem_held_append : rule ∈ r.held ++ m.added?.toList ↔ Concerns m r rule := by
  rw [mem_append, mem_held, Option.mem_toList, Concerns]

theorem Outcome.waits (h : Outcome m r r') (rule : Rule) (waits : r'.Waits rule) :
    Concerns m r rule := by
  obtain ⟨lost, sum, _⟩ := h.turnover
  rw [← mem_held_append, sum.mem_iff]
  exact mem_append_right _ (mem_held.mpr waits)

theorem Outcome.fate (h : Outcome m r r') (rule : Rule) (concerned : Concerns m r rule) :
    r'.Waits rule ∨ m = .start rule ∨ m = .settle ∨ Poisoned r r' rule := by
  obtain ⟨lost, sum, poisoned⟩ := h.turnover
  rw [← mem_held_append, sum.mem_iff, mem_append, mem_append] at concerned
  rcases concerned with (leaves | mem) | stays
  · cases m with
    | start other =>
      rw [mem_singleton.mp leaves]
      exact .inr (.inl rfl)
    | settle => exact .inr (.inr (.inl rfl))
    | _ => cases leaves
  · exact .inr (.inr (.inr (poisoned rule mem)))
  · exact .inl (mem_held.mp stays)

theorem Outcome.dwindles (h : Outcome m r r') : Dwindles (↑r.held + ↑m.added?.toList) ↑r'.held := by
  obtain ⟨lost, sum, _⟩ := h.turnover
  have same := Multiset.coe_eq_coe.mpr sum
  rw [← Multiset.coe_add, ← Multiset.coe_add] at same
  rw [same]
  exact .of_le (Multiset.le_add_left ..)

theorem load_le_of_dwindles {came : List Rule} (h : Dwindles (↑r.held + ↑came) ↑r'.held) :
    r'.load ≤ r.load + (came.map Rule.size).sum := by
  rw [load_eq_sum, load_eq_sum, ← sum_append, ← map_append]
  exact h.size_le

theorem Outcome.load (h : Outcome m r r') : r'.load ≤ r.load + m.size := by
  have added : (m.added?.toList.map Rule.size).sum = m.size := by
    cases m with
    | register rule => simp [Move.added?, Move.size, Rule.size_tidied]
    | _ => rfl
  rw [← added]
  exact load_le_of_dwindles h.dwindles

/-- A move that fails nothing. -/
theorem Outcome.quiet (orderly : r'.Orderly) (grows : r.Grows r')
    (errors : r'.errors = r.errors) (silent : m.roots r = [])
    (failures : ∀ {attr e}, r'.errorOf? attr = some e → r.errorOf? attr = some e)
    (turnover : (r.held ++ m.added?.toList).Perm (m.leaving r ++ r'.held))
    (shuts : m = .settle ∨ r.Shuts r')
    (values : ∀ {attr v}, r'.get? attr = some v → r.get? attr = some v ∨ m.stores attr v)
    (ready : ∀ rule, m = .start rule → ∀ d ∈ rule.deps, ∃ v, r.get? d = some v) :
    Outcome m r r' where
  orderly := orderly
  grows := grows
  roots := by rw [silent, append_nil, rootErrors, errors, rootErrors]
  turnover := ⟨[], by rwa [append_nil], by simp⟩
  shuts := shuts
  failures he := .inl (failures he)
  values := values
  ready := ready

theorem Outcome.plain (plain : m.isPlain = true) (orderly : r'.Orderly) (grows : r.Grows r')
    (errors : r'.errors = r.errors)
    (failures : ∀ {attr e}, r'.errorOf? attr = some e → r.errorOf? attr = some e)
    (pending : r'.held = r.held) (shuts : r.Shuts r')
    (values : ∀ {attr v}, r'.get? attr = some v → r.get? attr = some v ∨ m.stores attr v) :
    Outcome m r r' := by
  have none : m.added? = none := by cases m <;> first | rfl | cases plain
  have silent : m.roots r = [] := by cases m <;> first | rfl | cases plain
  have still : m.leaving r = [] := by cases m <;> first | rfl | cases plain
  refine .quiet orderly grows errors silent failures ?_ (.inr shuts) values ?_
  · rw [none, still, pending, Option.toList_none, append_nil, nil_append]
  · rintro rule rfl
    cases plain

/-- What happened and what was noted do not matter. -/
theorem Orderly.noting (h : r.Orderly) (plain : m.isPlain = true) (running : Bool)
    (journal : List Note) (history : List Occurrence) :
    Outcome m r { r with running := running, journal := journal, history := history } :=
  .plain plain (h.congr running journal history) (.of_eq rfl rfl) rfl id rfl
    ⟨Nat.le_refl _, fun _ none => none⟩ .inl

/-! ### Values -/

theorem Orderly.foldlM_wake? (h : r.Orderly) (unresolved : r.slot? attr = none) (v : Value) :
    (r.waitersOf attr).foldlM wake? (r.fill attr (.value v)) =
      some ((r.waitersOf attr).foldl wake (r.fill attr (.value v))) :=
  Reactor.foldlM_wake? (h.consistent.waitersOf_nodup attr) (h.consistent.waitersOf_lt attr)
    fun _ hid _ hp => h.consistent.waiting_pos unresolved hp
      ((h.consistent.mem_waitersOf unresolved hp).mp hid)

/-- The rules that wait for an attribute are woken when it gets a value. -/
theorem Orderly.accept (h : r.Orderly) (stores : m.stores attr v) (unresolved : r.slot? attr = none) :
    Outcome m r ((r.waitersOf attr).foldl wake (r.fill attr (.value v))) := by
  have woken := foldl_wake_woken (h.consistent.waitersOf_nodup attr) (r.fill attr (.value v))
  generalize (r.waitersOf attr).foldl wake (r.fill attr (.value v)) = r' at woken
  have failures : ∀ {other e}, r'.errorOf? other = some e → r.errorOf? other = some e := by
    intro other e he
    rw [errorOf?_eq_some, slot?_congr woken.store, slot?_fill] at he
    split at he
    · cases he
    · exact errorOf?_eq_some.mpr he
  refine .plain stores.isPlain ⟨h.consistent.accept unresolved woken, ?_⟩
    (.of_fill unresolved woken.store (woken.errors ▸ prefix_refl _)) woken.errors failures
    woken.pending ⟨Nat.le_of_eq woken.length.symm, fun _ none => ?_⟩ fun {other w} hw => ?_
  · intro id p hp d hd
    have waits : r.Waits p.rule := by
      rw [← mem_held, show r.held = r'.held from woken.pending.symm, mem_held]
      exact ⟨id, p, hp, rfl⟩
    cases he : r'.errorOf? d with
    | none => rfl
    | some e =>
      have failed : (r.errorOf? d).isSome := by
        rw [failures he]
        rfl
      exact absurd waits (h.not_waits hd failed)
  · rw [woken.rule?, rule?_fill, none]
    split <;> rfl
  · rw [get?_eq_some, slot?_congr woken.store, slot?_fill] at hw
    split at hw
    · next same =>
        cases hw
        exact .inr (same ▸ stores)
    · exact .inl (get?_eq_some.mpr hw)

theorem Orderly.resolve? (h : r.Orderly) (attr : Attribute) (v : Value) :
    r.resolve? attr v = some (r.resolve attr v) := by
  by_cases resolved : r.isResolved attr = true
  · exact if_pos resolved
  · have unresolved := isResolved_eq_false.mp (Bool.eq_false_iff.mpr resolved)
    rw [Reactor.resolve?, if_neg resolved, h.foldlM_wake? unresolved]
    simp [resolve, unresolved]

theorem Orderly.resolve (h : r.Orderly) (stores : m.stores attr v)
    (resolved : r.resolve attr v = .ok r') : Outcome m r r' := by
  unfold Reactor.resolve at resolved
  split at resolved
  · cases resolved
    exact h.noting stores.isPlain r.running r.journal r.history
  · cases resolved
  · next unresolved =>
      cases resolved
      exact h.accept stores unresolved

theorem Orderly.seed (h : r.Orderly) (seeded : r.seed attr v = .ok r') :
    Outcome (.seed attr v) r r' :=
  h.resolve (.inl rfl) (resolve_of_seed seeded)

theorem Orderly.resolve_resolves (h : r.Orderly) (resolved : r.resolve attr v = .ok r') :
    r'.isResolved attr = true := by
  unfold Reactor.resolve at resolved
  split at resolved
  · next failed =>
      cases resolved
      exact isResolved_iff.mpr ⟨_, failed⟩
  · cases resolved
  · cases resolved
    have woken := foldl_wake_woken (h.consistent.waitersOf_nodup attr) (r.fill attr (.value v))
    rw [isResolved, slot?_congr woken.store, slot?_fill, if_pos rfl, Option.isSome_some]

/-! ### Errors -/

/-- A move that first records an error and then fails attributes with it. -/
theorem Cascade.outcome {first : Reactor} {work : List Failure} (h : Cascade work first r')
    (orderly : r'.Orderly) (grows : r.Grows first) (store : first.store = r.store)
    (rules : first.rules = r.rules) (roots : first.rootErrors = r.rootErrors ++ m.roots r)
    (same : ∀ rule, m ≠ .start rule) (still : m.leaving r = [])
    (lost : ∀ rule, m.added? = some rule → r'.Lost rule)
    (origin : ∀ f ∈ work, Direct m r r' f.1 f.2 ∨
      ∃ rule, m.added? = some rule ∧ r'.Derived rule f.1 f.2) : Outcome m r r' := by
  have pending : first.held = r.held := by rw [held, pendingRules, rules, held, pendingRules]
  have values : ∀ {attr v}, r'.get? attr = some v → r.get? attr = some v := by
    intro attr v hv
    have hv := get?_eq_some.mp (h.values hv)
    rw [slot?_congr store] at hv
    exact get?_eq_some.mpr hv
  refine ⟨orderly, grows.trans h.grows, h.roots.trans roots, ?_,
    .inr ⟨Nat.le_of_eq (by rw [h.length, rules]), fun {id} _ none => ?_⟩, ?_,
    fun hv => .inl (values hv), fun rule hm => absurd hm (same rule)⟩
  · obtain ⟨gone, sum, told⟩ := held_perm h.kept
    rw [pending] at sum
    refine ⟨gone ++ m.added?.toList, ?_, fun rule mem => ⟨?_, values⟩⟩
    · rw [still, nil_append, append_assoc]
      refine (sum.append_right _).trans ?_
      rw [append_assoc]
      exact perm_append_comm.append_left gone
    · rcases mem_append.mp mem with mem | added
      · obtain ⟨id, p, hp, dropped, rfl⟩ := told rule mem
        refine (h.fate hp).resolve_left fun stays => ?_
        rw [dropped] at stays
        cases stays
      · exact lost rule (Option.mem_toList.mp added)
  · cases hp : r'.rule? id with
    | none => rfl
    | some p =>
      have before := h.kept hp
      rw [rule?, rules, ← rule?, none] at before
      cases before
  · intro attr e he
    rcases h.origin he with he | hf | ⟨rule, hw, hd⟩
    · rw [errorOf?_eq_some, slot?_congr store] at he
      exact .inl (errorOf?_eq_some.mpr he)
    · rcases origin _ hf with direct | ⟨rule, added, hd⟩
      · exact .inr (.inl direct)
      · exact .inr (.inr ⟨rule, .inr added, hd⟩)
    · rw [← mem_held, pending, mem_held] at hw
      exact .inr (.inr ⟨rule, .inl hw, hd⟩)

/-- An error that is accepted is a root error on what it affects. -/
theorem Orderly.reject (h : r.Orderly) (error : SemanticError) (affected : List Attribute) :
    r.reject? error affected = some (r.reject error affected) ∧
      Outcome (.reject error affected) r (r.reject error affected) := by
  by_cases accepted : r.accepts affected = true
  · obtain ⟨checked, orderly, cascade⟩ := (h.pushError error none (by simp)).foldl_fail affected
      (e := r.errors.length) (by simp [Reactor.pushError])
    have pushed : (r.pushError error none).2.errors = r.errors ++ [⟨error, none⟩] := rfl
    rw [reject?, if_pos accepted, reject_of_accepts accepted]
    refine ⟨checked, cascade.outcome orderly (pushError_grows r error none) rfl rfl ?_ (by simp)
      rfl (by simp [Move.added?]) fun f hf => ?_⟩
    · rw [rootErrors_append pushed]
      simp [Move.roots, accepted]
    · obtain ⟨attr, ha, rfl⟩ := mem_map.mp hf
      exact .inl ⟨error, affected, rfl, ha, rfl,
        cascade.grows.getElem?_errors (by simp [Reactor.pushError])⟩
  · have dropped : r.accepts affected = false := Bool.eq_false_iff.mpr accepted
    rw [reject?, if_neg accepted, reject_of_not_accepts dropped]
    exact ⟨rfl, (Cascade.nil _).outcome (h.congr _ _ _) (.of_eq rfl rfl) rfl rfl
      (by simp [Move.roots, dropped]; rfl) (by simp) rfl (by simp [Move.added?]) (by simp)⟩

theorem Orderly.reject_resolves (h : r.Orderly) (error : SemanticError) {affected : List Attribute}
    (mem : attr ∈ affected) : (r.reject error affected).isResolved attr = true := by
  by_cases accepted : r.accepts affected = true
  · obtain ⟨_, _, cascade⟩ := (h.pushError error none (by simp)).foldl_fail affected
      (e := r.errors.length) (by simp [Reactor.pushError])
    rw [reject_of_accepts accepted]
    exact cascade.debts (attr, r.errors.length) (mem_map.mpr ⟨attr, mem, rfl⟩)
  · have dropped : r.accepts affected = false := Bool.eq_false_iff.mpr accepted
    rw [reject_of_not_accepts dropped]
    rw [accepts, Bool.or_eq_false_iff, any_eq_false] at dropped
    obtain ⟨e, he⟩ : ∃ e, r.errorOf? attr = some e := by
      simpa [Option.ne_none_iff_exists'] using dropped.2 attr mem
    exact isResolved_iff.mpr ⟨_, errorOf?_eq_some.mp he⟩

/-! ### Rules -/

theorem Orderly.await (h : r.Orderly) (unharmed : ∀ d ∈ rule.tidied.deps, r.errorOf? d = none) :
    Outcome (.register rule) r (r.await rule.tidied) := by
  refine .quiet ⟨h.consistent.await rule.nodup_deps_tidied, ?_⟩ (.of_eq rfl rfl) rfl
    rfl id ?_ (.inr ⟨by simp [Reactor.await], fun {id} known none => ?_⟩) .inl (by simp)
  · intro id p hp d hd
    rw [rule?_await] at hp
    split at hp
    · cases hp
      exact unharmed d hd
    · exact h.unharmed hp d hd
  · simp [held, pendingRules_await, Move.added?, Move.leaving]
  · rw [rule?_await, if_neg (Nat.ne_of_lt known), none]

/-- A rule that comes too late fails its exports at once. -/
theorem Orderly.refuse (h : r.Orderly) {cause : ErrorId} (dep : attr ∈ rule.tidied.deps)
    (failed : r.errorOf? attr = some cause) (exporting : rule.exports ≠ []) :
    rule.exports.foldlM (fun r' x => r'.fail? x r.errors.length)
        ((r.record (.refused rule.name attr)).derive attr cause).2 =
        some (r.refuse rule attr cause) ∧
      Outcome (.register rule) r (r.refuse rule attr cause) := by
  have noted : (r.record (.refused rule.name attr)).Orderly := h.congr _ _ _
  have known : cause < r.errors.length := h.consistent.slot_lt (errorOf?_eq_some.mp failed)
  obtain ⟨error, hderive⟩ : ∃ error, (r.record (.refused rule.name attr)).derive attr cause =
      (r.record (.refused rule.name attr)).pushError error (some cause) := ⟨_, rfl⟩
  have body : r.refuse rule attr cause = rule.exports.foldl (fun r' x => r'.fail x r.errors.length)
      ((r.record (.refused rule.name attr)).pushError error (some cause)).2 := by
    simp only [Reactor.refuse, List.isEmpty_iff, exporting, if_false, hderive]
    rfl
  have recorded := noted.pushError error (some cause) (by
    intro c hc
    cases hc
    exact known)
  obtain ⟨checked, orderly, cascade⟩ := recorded.foldl_fail rule.exports (e := r.errors.length)
    (by simp [Reactor.pushError, record])
  rw [hderive, body]
  have noting : r.Grows (r.record (.refused rule.name attr)) := .of_eq rfl rfl
  have grows := noting.trans (pushError_grows _ error (some cause))
  have pushed : ((r.record (.refused rule.name attr)).pushError error (some cause)).2.errors =
      r.errors ++ [⟨error, some cause⟩] := rfl
  have roots := rootErrors_of_derived pushed (by simp)
  have still := (grows.trans cascade.grows).errorOf? failed
  refine ⟨checked, cascade.outcome orderly grows rfl rfl (by simpa [Move.roots] using roots) (by simp)
    rfl (fun other added => ?_) fun f hf => ?_⟩
  · cases added
    refine ⟨⟨attr, dep, Option.isSome_iff_exists.mpr ⟨cause, still⟩⟩, fun x hx => ?_⟩
    exact cascade.debts (x, r.errors.length) (mem_map.mpr ⟨x, hx, rfl⟩)
  · obtain ⟨x, hx, rfl⟩ := mem_map.mp hf
    exact .inr ⟨rule.tidied, rfl, hx, attr, dep, cause, _, still,
      cascade.grows.getElem?_errors (by simp [Reactor.pushError, record]; rfl), rfl⟩

theorem Orderly.register (h : r.Orderly) (rule : Rule) :
    r.register? rule = some (r.register rule) ∧
      Outcome (.register rule) r (r.register rule) := by
  cases hf : r.firstFailed? rule.tidied.deps with
  | none =>
    simp only [register?, hf]
    rw [register_of_none hf]
    exact ⟨rfl, h.await (firstFailed?_eq_none hf)⟩
  | some failure =>
    obtain ⟨attr, cause⟩ := failure
    obtain ⟨dep, failed⟩ := firstFailed?_eq_some hf
    have known : cause < r.errors.length := h.consistent.slot_lt (errorOf?_eq_some.mp failed)
    simp only [register?, hf]
    rw [register_of_some hf]
    by_cases exporting : rule.exports = []
    · have body : r.refuse rule attr cause = r.record (.refused rule.name attr) := by
        simp [Reactor.refuse, exporting]
      rw [if_pos (by simp [exporting])]
      refine ⟨rfl, ?_⟩
      rw [body]
      refine (Cascade.nil _).outcome (h.congr _ _ _) (.of_eq rfl rfl) rfl rfl
        (append_nil _).symm (by simp) rfl (fun other added => ?_) (by simp)
      cases added
      exact ⟨⟨attr, dep, Option.isSome_iff_exists.mpr ⟨cause, failed⟩⟩,
        by simp [Rule.tidied, exporting]⟩
    · rw [if_neg (by simp [exporting]), if_pos known]
      exact h.refuse dep failed exporting

/-! ### Runs -/

/-- A rule that is ready has values to run on. -/
theorem Orderly.ready (h : r.Orderly) (queued : id ∈ r.queue) (found : r.rule? id = some p) :
    ∀ d ∈ p.rule.deps, ∃ v, r.get? d = some v := by
  intro d hd
  obtain ⟨q, hq, hzero⟩ := (h.consistent.mem_queue id).mp queued
  obtain rfl : p = q := Option.some.inj (found.symm.trans hq)
  have resolved : r.isResolved d = true := by
    by_contra hopen
    have := h.consistent.waiting_pos (isResolved_eq_false.mp (Bool.eq_false_iff.mpr hopen)) found hd
    omega
  rcases isResolved_iff_get?_or_errorOf?.mp resolved with hv | ⟨e, he⟩
  · exact hv
  · rw [h.unharmed found d hd] at he
    cases he

theorem Orderly.start (h : r.Orderly) {queue : List RuleId} (front : r.queue = id :: queue)
    (found : r.rule? id = some p) :
    Outcome (.start p.rule) r
      ((r.pop id queue).record (.ran p.rule.name p.rule.exports.length)) := by
  refine .quiet ⟨(h.consistent.pop front).congr _ _ _, fun hq => h.unharmed (rule?_of_pop queue hq)⟩
    (.of_eq rfl rfl) rfl rfl (fun he => he) ?_
    (.inr ⟨by simp [Reactor.pop, record], fun {other} _ none => ?_⟩) .inl ?_
  · change (r.held ++ []).Perm _
    rw [append_nil]
    exact held_pop found queue
  · refine (rule?_pop r id queue other).trans ?_
    rw [none]
    split <;> rfl
  · intro rule same
    cases same
    exact h.ready (by simp [front]) found

theorem Consistent.clear (h : r.Consistent) (drained : r.queue = []) :
    Consistent { r with rules := [], waiters := [] } where
  deps_nodup hp := by simp [rule?] at hp
  waiting_eq hp := by simp [rule?] at hp
  mem_waiters hp := by simp [rule?] at hp
  waiters_nodup := nodup_nil
  waiters_lt := by simp
  mem_queue id := by simp [drained, rule?]
  queue_nodup := h.queue_nodup
  slot_lt := h.slot_lt
  cause_lt := h.cause_lt

theorem Orderly.settle (h : r.Orderly) (drained : r.queue = []) (executed : Nat) :
    Outcome .settle r ({ r with running := false, rules := [], waiters := [] }.record
      (.settled ⟨executed, r.pending⟩ r.rootErrors.length)) := by
  refine .quiet ⟨(h.consistent.clear drained).congr false _ _, ?_⟩ (.of_eq rfl rfl)
    rfl rfl id (.refl _) (.inl rfl) .inl (by simp)
  intro id p hp
  simp [rule?, record] at hp

/-- Every move of an orderly reactor has an outcome. -/
theorem Makes.outcome (h : r.Orderly) (makes : r.Makes m r') : Outcome m r r' := by
  cases makes with
  | seed seeded => exact h.seed seeded
  | write resolved => exact h.resolve (.inr rfl) resolved
  | reject error affected => exact (h.reject error affected).2
  | register rule => exact (h.register rule).2
  | note note => exact h.noting rfl r.running _ r.history
  | enter => exact h.noting rfl true r.journal r.history
  | start front found => exact h.start front found
  | settle drained executed => exact h.settle drained executed
  | leave => exact h.noting rfl false r.journal r.history

end Reactor

end BlFront
