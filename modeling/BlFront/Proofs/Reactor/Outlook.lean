import BlFront.Proofs.Reactor.Bookkeeping

/-!
# What a reactor may come to

An outlook says which values attributes may hold and which attributes may fail.  A rule is
admitted if it stays within the outlook: on dependencies that hold allowed values it writes each
of its exports once, with an allowed output, and then may register further admitted rules.

A reactor is healthy within an outlook if its bookkeeping is consistent, its slots are allowed,
and the attributes that its rules will write are distinct and still without a slot.  A step
advances a reactor if nothing is forgotten: slots and errors stay, and every rule that waited
still waits, has lost a dependency, or has run and left its results.
-/

namespace BlFront

open List

variable {attr : Attribute}

/-! ### Rules -/

/-- The rule as it is registered: each dependency counts once. -/
def Rule.tidied (rule : Rule) : Rule := { rule with deps := rule.deps.eraseDups }

variable {rule : Rule}

theorem Rule.mem_deps_tidied : attr ∈ rule.tidied.deps ↔ attr ∈ rule.deps :=
  mem_eraseDups

mutual

/-- The attributes that an action can bring rules to write. -/
def Action.targets : Action → List Attribute
  | .register rule => rule.targets
  | .attempt action => action.targets
  | _ => []

/-- What a rule writes, and what the rules write that its body can bring into being. -/
def Rule.targets : Rule → List Attribute
  | ⟨_, _, exports, body⟩ => exports ++ bodyTargets body

def bodyTargets : List Action → List Attribute
  | [] => []
  | action :: body => action.targets ++ bodyTargets body

end

/-- The rule computes, and then registers further rules. -/
def Rule.Spawns (rule : Rule) (f : View → Except ReactorError (List Effect))
    (inner : List Rule) : Prop :=
  rule.body = .compute f :: inner.map .register

theorem bodyTargets_register (inner : List Rule) :
    bodyTargets (inner.map .register) = inner.flatMap Rule.targets := by
  induction inner with
  | nil => rfl
  | cons rule inner ih => simp [bodyTargets, Action.targets, ih]

theorem bodySize_register (inner : List Rule) :
    bodySize (inner.map .register) = (inner.map Rule.size).sum := by
  induction inner with
  | nil => rfl
  | cons rule inner ih => simp [bodySize, Action.size, ih]

namespace Rule.Spawns

variable {rule : Rule} {f : View → Except ReactorError (List Effect)} {inner : List Rule}

theorem targets (h : rule.Spawns f inner) :
    rule.targets = rule.exports ++ inner.flatMap Rule.targets := by
  obtain ⟨name, deps, exports, body⟩ := rule
  change body = _ at h
  subst h
  rw [Rule.targets, bodyTargets, bodyTargets_register]
  rfl

theorem size (h : rule.Spawns f inner) : rule.size = 1 + (inner.map Rule.size).sum := by
  obtain ⟨name, deps, exports, body⟩ := rule
  change body = _ at h
  subst h
  rw [Rule.size, bodySize, bodySize_register]
  simp [Action.size]

end Rule.Spawns

theorem Rule.targets_tidied (rule : Rule) : rule.tidied.targets = rule.targets := by
  cases rule
  simp [Rule.tidied, Rule.targets]

theorem Rule.size_tidied (rule : Rule) : rule.tidied.size = rule.size := by
  cases rule
  simp [Rule.tidied, Rule.size]

theorem Rule.Spawns.unique {f g : View → Except ReactorError (List Effect)}
    {inner inner' : List Rule} (h : rule.Spawns f inner) (h' : rule.Spawns g inner') :
    f = g ∧ inner = inner' := by
  have same := h.symm.trans h'
  simp only [List.cons.injEq, Action.compute.injEq] at same
  exact ⟨same.1, map_injective_iff.mpr (fun _ _ he => Action.register.inj he) same.2⟩

/-! ### Views -/

variable {view : View} {v : Value}

theorem View.get_eq_ok {α : Type} {kind : Kind α} {a : α}
    (declared : attr ∈ view.deps) (found : view.lookup attr = some v)
    (fits : kind.extract v = some a) : view.get kind attr = .ok a := by
  simp [View.get, declared, found, fits]

theorem View.getAll_eq_ok {α : Type} {kind : Kind α} {attrs : List Attribute}
    {values : Attribute → Value} {as : List α} (declared : ∀ attr ∈ attrs, attr ∈ view.deps)
    (found : ∀ attr ∈ attrs, view.lookup attr = some (values attr))
    (fits : attrs.mapM (fun attr => kind.extract (values attr)) = some as) :
    view.getAll kind attrs = .ok as := by
  induction attrs generalizing as with
  | nil =>
    cases fits
    rfl
  | cons attr attrs ih =>
    simp only [mapM_cons, Option.bind_eq_bind, Option.bind_eq_some_iff, Option.pure_def,
      Option.some.injEq] at fits
    obtain ⟨a, ha, rest, hrest, rfl⟩ := fits
    have first := View.get_eq_ok (declared attr (by simp)) (found attr (by simp)) ha
    have others := ih (fun d hd => declared d (by simp [hd])) (fun d hd => found d (by simp [hd]))
      hrest
    simp only [View.getAll, first, others]
    rfl

/-! ### Effects -/

def Effect.write? : Effect → Option (Attribute × Output)
  | .write attr output => some (attr, output)
  | _ => none

/-- What a computation writes, in order. -/
def writes (effects : List Effect) : List (Attribute × Output) := effects.filterMap Effect.write?

theorem write_mem_of_mem_writes {effects : List Effect} {output : Output}
    (h : (attr, output) ∈ writes effects) : .write attr output ∈ effects := by
  obtain ⟨effect, mem, same⟩ := mem_filterMap.mp h
  cases effect <;> cases same
  exact mem

/-! ### Outlooks -/

structure Outlook where
  symbols : SymbolTable
  holds : Attribute → Value → Prop
  fails : Attribute → Prop

namespace Outlook

/-- Whether an output may be written to an attribute. -/
def Allows (M : Outlook) (attr : Attribute) : Output → Prop
  | .value v => M.holds attr v
  | .error _ => M.fails attr

inductive Admits (M : Outlook) : Rule → Prop
  | intro {rule : Rule} {f : View → Except ReactorError (List Effect)} {inner : List Rule}
      (spawns : rule.Spawns f inner)
      (computes : ∀ lookup : Attribute → Option Value,
        (∀ d ∈ rule.deps, ∃ v, lookup d = some v ∧ M.holds d v) →
        ∃ effects, f ⟨rule.name, rule.deps, lookup, M.symbols⟩ = .ok effects ∧
          (writes effects).map Prod.fst = rule.exports ∧ ∀ w ∈ writes effects, M.Allows w.1 w.2)
      (spreads : ∀ d ∈ rule.deps, M.fails d → ∀ x ∈ rule.exports, M.fails x)
      (later : ∀ i ∈ inner, M.Admits i.tidied) : M.Admits rule

end Outlook

namespace Reactor

/-! ### What a step keeps -/

/-- Slots and errors stay as they are. -/
structure Extends (r r' : Reactor) : Prop where
  slots : ∀ {attr slot}, r.slot? attr = some slot → r'.slot? attr = some slot
  errors : r.errors <+: r'.errors

namespace Extends

variable {r r' r'' : Reactor}

theorem refl (r : Reactor) : r.Extends r := ⟨id, prefix_refl _⟩

theorem trans (h : r.Extends r') (h' : r'.Extends r'') : r.Extends r'' :=
  ⟨fun hs => h'.slots (h.slots hs), h.errors.trans h'.errors⟩

theorem get? (h : r.Extends r') (hv : r.get? attr = some v) : r'.get? attr = some v :=
  get?_eq_some.mpr (h.slots (get?_eq_some.mp hv))

theorem errorOf? (h : r.Extends r') {e : ErrorId} (he : r.errorOf? attr = some e) :
    r'.errorOf? attr = some e :=
  errorOf?_eq_some.mpr (h.slots (errorOf?_eq_some.mp he))

theorem isResolved (h : r.Extends r') (hr : r.isResolved attr = true) :
    r'.isResolved attr = true := by
  obtain ⟨slot, hs⟩ := isResolved_iff.mp hr
  exact isResolved_iff.mpr ⟨slot, h.slots hs⟩

theorem rootErrors (h : r.Extends r') {e : SemanticError} (he : e ∈ r.rootErrors) :
    e ∈ r'.rootErrors := by
  obtain ⟨more, hmore⟩ := h.errors
  simp only [Reactor.rootErrors, ← hmore, filter_append, map_append]
  exact mem_append_left _ he

end Extends

/-- The results of a computation are in the reactor. -/
def Recorded (r : Reactor) : Effect → Prop
  | .write attr (.value v) => r.get? attr = some v
  | .write attr (.error e) => (r.errorOf? attr).isSome ∧ e ∈ r.rootErrors
  | .report e => e ∈ r.rootErrors
  | .note _ => True

variable {r r' : Reactor}

theorem Recorded.extend (h : r.Extends r') {effect : Effect}
    (recorded : r.Recorded effect) : r'.Recorded effect := by
  match effect, recorded with
  | .write _ (.value _), hv => exact h.get? hv
  | .write _ (.error _), hv =>
    obtain ⟨id, hid⟩ := Option.isSome_iff_exists.mp hv.1
    exact ⟨Option.isSome_iff_exists.mpr ⟨id, h.errorOf? hid⟩, h.rootErrors hv.2⟩
  | .report _, he => exact h.rootErrors he
  | .note _, _ => trivial

/-- A rule is among those that have not run. -/
def Waits (r : Reactor) (rule : Rule) : Prop := ∃ id p, r.rule? id = some p ∧ p.rule = rule

/-- What became of a rule, given which rules may count as waiting. -/
inductive Accounted (symbols : SymbolTable) (waiting : Rule → Prop) (r : Reactor) : Rule → Prop
  | waits {rule : Rule} (h : waiting rule) : Accounted symbols waiting r rule
  | lost {rule : Rule} {d : Attribute} {e : ErrorId} (dep : d ∈ rule.deps)
      (failed : r.errorOf? d = some e) (exports : ∀ x ∈ rule.exports, r.isResolved x = true) :
      Accounted symbols waiting r rule
  | ran {rule : Rule} {f : View → Except ReactorError (List Effect)} {inner : List Rule}
      {lookup : Attribute → Option Value} {effects : List Effect} (spawns : rule.Spawns f inner)
      (values : ∀ d ∈ rule.deps, ∃ v, lookup d = some v ∧ r.get? d = some v)
      (result : f ⟨rule.name, rule.deps, lookup, symbols⟩ = .ok effects)
      (recorded : ∀ effect ∈ effects, r.Recorded effect)
      (later : ∀ i ∈ inner, Accounted symbols waiting r i.tidied) : Accounted symbols waiting r rule

/-- An account stays one as long as nothing is forgotten. -/
theorem Accounted.advance {symbols : SymbolTable} {waiting waiting' : Rule → Prop}
    (keeps : r.Extends r')
    (rules : ∀ rule, waiting rule → Accounted symbols waiting' r' rule)
    (accounted : Accounted symbols waiting r rule) : Accounted symbols waiting' r' rule := by
  induction accounted with
  | waits hw => exact rules _ hw
  | lost dep failed exports =>
    exact .lost dep (keeps.errorOf? failed) fun x hx => keeps.isResolved (exports x hx)
  | ran spawns values result recorded _ ih =>
    refine .ran spawns ?_ result (fun e he => (recorded e he).extend keeps) ih
    intro d hd
    obtain ⟨v, hl, hv⟩ := values d hd
    exact ⟨v, hl, keeps.get? hv⟩

/-- A step on the way of a reactor. -/
structure Advances (symbols : SymbolTable) (r r' : Reactor) : Prop where
  keeps : r.Extends r'
  running : r'.running = r.running
  rules : ∀ rule, r.Waits rule → Accounted symbols r'.Waits r' rule

namespace Advances

variable {symbols : SymbolTable} {r r' r'' : Reactor}

theorem accounted (h : Advances symbols r r')
    (before : Accounted symbols r.Waits r rule) : Accounted symbols r'.Waits r' rule :=
  before.advance h.keeps h.rules

theorem refl (symbols : SymbolTable) (r : Reactor) : Advances symbols r r :=
  ⟨Extends.refl r, rfl, fun _ h => .waits h⟩

theorem trans (h : Advances symbols r r') (h' : Advances symbols r' r'') :
    Advances symbols r r'' where
  keeps := h.keeps.trans h'.keeps
  running := h'.running.trans h.running
  rules rule hw := h'.accounted (h.rules rule hw)

/-- Notes change nothing. -/
theorem noting (r : Reactor) (journal : List Note) (history : List Occurrence) :
    Advances symbols r { r with journal := journal, history := history } :=
  ⟨⟨id, prefix_refl _⟩, rfl, fun _ h => .waits h⟩

end Advances

end Reactor

end BlFront
