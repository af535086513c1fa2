import BlFront.Proofs.Reactor.Passes

/-!
# The least model of seeds and pure rules

What seeds and rules with one export come to is defined here without an order: which attributes
hold which values, and which fail.  A run finds exactly that, in whatever order the seeds and
rules are given, and whether a rule is there from the start or is registered by a body that runs
once an attribute has a value.
-/

namespace BlFront

open List

variable {attr : Attribute} {p : PureRule} {v : Value}

/-! ### Pure rules -/

/-- A rule with one export, which depends on nothing but the values that it reads. -/
inductive PureRule : Type 1 where
  | copy (name : String) (source target : Attribute)
  | map {α : Type} (name : String) (kind : Kind α) (source target : Attribute)
      (f : α → SymbolTable → Except SemanticError Value)
  | flatMap {α : Type} (name : String) (kind : Kind α) (sources : List Attribute)
      (target : Attribute) (f : List α → SymbolTable → Except SemanticError Value)

variable {values : Attribute → Value} {result : Except SemanticError Value}

namespace PureRule

def rule : PureRule → Rule
  | .copy name source target => .copy name source target
  | .map name kind source target f => .map name kind source target f
  | .flatMap name kind sources target f => .flatMap name kind sources target f

def sources : PureRule → List Attribute
  | .copy _ source _ => [source]
  | .map _ _ source _ _ => [source]
  | .flatMap _ _ sources _ _ => sources

def target : PureRule → Attribute
  | .copy _ _ target => target
  | .map _ _ _ target _ => target
  | .flatMap _ _ _ target _ => target

/-- What the rule makes of values, if they are of the kind that it reads. -/
def evaluate? (symbols : SymbolTable) (values : Attribute → Value) :
    PureRule → Option (Except SemanticError Value)
  | .copy _ source _ => some (.ok (values source))
  | .map _ kind source _ f => (kind.extract (values source)).map (f · symbols)
  | .flatMap _ kind sources _ f =>
    (sources.mapM fun d => kind.extract (values d)).map (f · symbols)

theorem deps_eq (p : PureRule) : p.rule.deps = p.sources := by
  cases p <;> rfl

theorem mem_deps {d : Attribute} : d ∈ p.rule.tidied.deps ↔ d ∈ p.sources := by
  rw [Rule.mem_deps_tidied, p.deps_eq]

theorem exports_eq (p : PureRule) : p.rule.tidied.exports = [p.target] := by
  cases p <;> rfl

theorem targets_eq (p : PureRule) : p.rule.targets = [p.target] := by
  cases p <;> simp [rule, target, Rule.copy, Rule.map, Rule.flatMap, Rule.computing, Rule.targets,
    bodyTargets, Action.targets]

theorem isComputing (p : PureRule) : ∃ f, p.rule.body = [.compute f] := by
  cases p <;> exact ⟨_, rfl⟩

/-- The body of a pure rule writes what the rule makes of the values. -/
theorem computes {symbols : SymbolTable}
    (applied : p.evaluate? symbols values = some result) :
    p.rule.Computes symbols values [.write p.target (.ofResult result)] := by
  cases p with
  | copy name source target =>
    cases applied
    exact Rule.copy_computes name source target
  | map name kind source target f =>
    obtain ⟨a, ha, rfl⟩ := Option.map_eq_some_iff.mp applied
    exact Rule.map_computes name ha target f
  | flatMap name kind sources target f =>
    obtain ⟨as, has, rfl⟩ := Option.map_eq_some_iff.mp applied
    exact Rule.flatMap_computes name has target f

end PureRule

/-! ### The model -/

section Model

variable (symbols : SymbolTable) (seeds : List (Attribute × Value)) (rules : List PureRule)

/-- An attribute holds a value if it is a seed, or if its rule makes the value of what its
sources hold. -/
inductive Holds : Attribute → Value → Prop
  | seed {attr : Attribute} {v : Value} (h : (attr, v) ∈ seeds) : Holds attr v
  | rule {p : PureRule} {values : Attribute → Value} {v : Value} (mem : p ∈ rules)
      (sources : ∀ d ∈ p.sources, Holds d (values d))
      (result : p.evaluate? symbols values = some (.ok v)) : Holds p.target v

/-- An attribute fails if its rule fails on what its sources hold, or if one of its sources
fails, whatever the others do. -/
inductive Fails : Attribute → Prop
  | rule {p : PureRule} {values : Attribute → Value} {e : SemanticError} (mem : p ∈ rules)
      (sources : ∀ d ∈ p.sources, Holds symbols seeds rules d (values d))
      (result : p.evaluate? symbols values = some (.error e)) : Fails p.target
  | source {p : PureRule} {d : Attribute} (mem : p ∈ rules) (dep : d ∈ p.sources)
      (failed : Fails d) : Fails p.target

/-- Rules are applied to values of the kind that they read. -/
def WellKinded : Prop :=
  ∀ p ∈ rules, ∀ values, (∀ d ∈ p.sources, Holds symbols seeds rules d (values d)) →
    (p.evaluate? symbols values).isSome

/-- What may become of the attributes. -/
def leastModel : Outlook := ⟨symbols, Holds symbols seeds rules, Fails symbols seeds rules⟩

variable {symbols seeds rules}

theorem PureRule.admits (kinds : WellKinded symbols seeds rules) (mem : p ∈ rules) :
    (leastModel symbols seeds rules).Admits p.rule.tidied := by
  refine Outlook.Decides.admits ⟨p.isComputing, ?_⟩ ?_
  · intro values held
    have sources : ∀ d ∈ p.sources, Holds symbols seeds rules d (values d) :=
      fun d hd => held d (p.deps_eq ▸ hd)
    obtain ⟨result, applied⟩ := Option.isSome_iff_exists.mp (kinds p mem values sources)
    refine ⟨_, PureRule.computes applied, ?_, ?_⟩
    · exact p.exports_eq.symm
    · intro w hw
      rw [show w = (p.target, .ofResult result) from mem_singleton.mp hw]
      cases result with
      | ok v => exact .rule mem sources applied
      | error e => exact .rule mem sources applied
  · intro d hd failed x hx
    obtain rfl : x = p.target := mem_singleton.mp (p.exports_eq ▸ hx)
    exact .source mem (p.deps_eq ▸ hd) failed

/-- Only its own rule gives a value to the target of a rule. -/
theorem Holds.of_target (distinct : (seeds.map Prod.fst ++ rules.map PureRule.target).Nodup)
    (mem : p ∈ rules) (h : Holds symbols seeds rules p.target v) :
    ∃ values : Attribute → Value, ∀ d ∈ p.sources, Holds symbols seeds rules d (values d) := by
  obtain ⟨_, unique, apart⟩ := nodup_append.mp distinct
  generalize hx : p.target = x at h
  cases h with
  | seed hs =>
    exact (apart x (mem_map_of_mem hs) x (hx ▸ mem_map_of_mem mem) rfl).elim
  | rule mem' sources _ =>
    obtain rfl := inj_on_of_nodup_map unique mem mem' hx
    exact ⟨_, sources⟩

theorem Fails.mem_targets (h : Fails symbols seeds rules attr) :
    attr ∈ rules.map PureRule.target := by
  cases h with
  | rule mem _ _ => exact mem_map_of_mem mem
  | source mem _ _ => exact mem_map_of_mem mem

end Model

/-! ### Scripts -/

/-- A pure rule, or a body that registers more once an attribute has a value. -/
inductive Registration : Type 1 where
  | rule (rule : PureRule)
  | on {α : Type} (name : String) (kind : Kind α) (attr : Attribute) (inner : List Registration)

/-- An attribute that a body waits for, and the values that the body can read. -/
structure Watch where
  attr : Attribute
  accepts : Value → Bool

namespace Registration

mutual

def toRule : Registration → Rule
  | .rule p => p.rule
  | .on name kind attr inner => .on name kind attr (fun _ => []) (registerAll inner)

def registerAll : List Registration → List Action
  | [] => []
  | reg :: regs => .register reg.toRule :: registerAll regs

end

mutual

/-- All pure rules, at any depth. -/
def rules : Registration → List PureRule
  | .rule p => [p]
  | .on _ _ _ inner => rulesAll inner

def rulesAll : List Registration → List PureRule
  | [] => []
  | reg :: regs => reg.rules ++ rulesAll regs

end

mutual

def watches : Registration → List Watch
  | .rule _ => []
  | .on _ kind attr inner => ⟨attr, fun v => (kind.extract v).isSome⟩ :: watchesAll inner

def watchesAll : List Registration → List Watch
  | [] => []
  | reg :: regs => reg.watches ++ watchesAll regs

end

theorem registerAll_eq (regs : List Registration) :
    registerAll regs = (regs.map toRule).map .register := by
  induction regs with
  | nil => rfl
  | cons reg regs ih => rw [registerAll, ih, map_cons, map_cons]

theorem toRule_on_spawns {α : Type} (name : String) (kind : Kind α) (attr : Attribute)
    (inner : List Registration) :
    (Registration.on name kind attr inner).toRule.tidied.Spawns
      (fun view => (view.get kind attr).map fun _ => []) (inner.map toRule) := by
  rw [Rule.Spawns, toRule, registerAll_eq]
  rfl

mutual

theorem targets_toRule (reg : Registration) :
    reg.toRule.targets = reg.rules.map PureRule.target := by
  match reg with
  | .rule p =>
    rw [toRule, rules, p.targets_eq]
    rfl
  | .on name kind attr inner =>
    rw [← Rule.targets_tidied, (toRule_on_spawns name kind attr inner).targets, rules,
      ← targets_rulesAll inner]
    rfl

theorem targets_rulesAll (regs : List Registration) :
    (regs.map toRule).flatMap Rule.targets = (rulesAll regs).map PureRule.target := by
  match regs with
  | [] => rfl
  | reg :: regs =>
    rw [map_cons, flatMap_cons, targets_toRule reg, targets_rulesAll regs, rulesAll,
      map_append]

end

variable {symbols : SymbolTable} {seeds : List (Attribute × Value)} {all : List PureRule}

mutual

theorem admits (kinds : WellKinded symbols seeds all) (reg : Registration)
    (rules : ∀ p ∈ reg.rules, p ∈ all)
    (watches : ∀ w ∈ reg.watches, ∀ v, Holds symbols seeds all w.attr v → w.accepts v = true) :
    (leastModel symbols seeds all).Admits reg.toRule.tidied := by
  match reg with
  | .rule p => exact PureRule.admits kinds (rules p (by simp [Registration.rules]))
  | .on name kind attr inner =>
    have isDep : attr ∈ (Registration.on name kind attr inner).toRule.tidied.deps := by
      rw [Rule.mem_deps_tidied]
      exact mem_singleton_self attr
    refine .intro (toRule_on_spawns name kind attr inner) ?_ (by simp [toRule, Rule.on, Rule.tidied])
      (admitsAll kinds inner (by simpa [Registration.rules] using rules)
        fun w hw => watches w (by simp [Registration.watches, hw]))
    intro lookup allowed
    obtain ⟨v, hv, holds⟩ := allowed attr isDep
    have accepted := watches ⟨attr, fun v => (kind.extract v).isSome⟩
      (by simp [Registration.watches]) v holds
    obtain ⟨a, ha⟩ := Option.isSome_iff_exists.mp accepted
    refine ⟨[], ?_, by simp [writes, toRule, Rule.on, Rule.tidied], by simp [writes]⟩
    rw [View.get_eq_ok isDep hv ha]
    rfl

theorem admitsAll (kinds : WellKinded symbols seeds all) (regs : List Registration)
    (rules : ∀ p ∈ rulesAll regs, p ∈ all)
    (watches : ∀ w ∈ watchesAll regs, ∀ v, Holds symbols seeds all w.attr v → w.accepts v = true) :
    ∀ i ∈ regs.map toRule, (leastModel symbols seeds all).Admits i.tidied := by
  match regs with
  | [] => simp
  | reg :: regs =>
    intro i hi
    rcases mem_cons.mp hi with rfl | hi
    · exact admits kinds reg (fun p hp => rules p (by simp [rulesAll, hp]))
        fun w hw => watches w (by simp [watchesAll, hw])
    · exact admitsAll kinds regs (fun p hp => rules p (by simp [rulesAll, hp]))
        (fun w hw => watches w (by simp [watchesAll, hw])) i hi

end

variable {r : Reactor}

mutual

/-- If every body has run, then all pure rules are concluded. -/
theorem concluded (reg : Registration) (fired : ∀ w ∈ reg.watches, (r.get? w.attr).isSome)
    (h : r.Concluded symbols reg.toRule.tidied) :
    ∀ p ∈ reg.rules, r.Concluded symbols p.rule.tidied := by
  match reg with
  | .rule p =>
    intro q hq
    rw [show q = p by simpa [rules] using hq]
    exact h
  | .on name kind attr inner =>
    obtain ⟨v, hv⟩ := Option.isSome_iff_exists.mp (fired ⟨attr, fun v => (kind.extract v).isSome⟩
      (by simp [watches]))
    have slot := Reactor.get?_eq_some.mp hv
    have only : ∀ d ∈ (Registration.on name kind attr inner).toRule.tidied.deps, d = attr := by
      intro d hd
      rw [Rule.mem_deps_tidied] at hd
      exact mem_singleton.mp hd
    cases h with
    | waits stuck =>
      obtain ⟨d, hd, hnone⟩ := stuck.1
      rw [only d hd, slot] at hnone
      cases hnone
    | lost dep failed _ =>
      rw [only _ dep, Reactor.errorOf?_eq_some, slot] at failed
      cases failed
    | ran spawns _ _ _ later =>
      obtain ⟨_, rfl⟩ := spawns.unique (toRule_on_spawns name kind attr inner)
      exact concludedAll inner (fun w hw => fired w (by simp [watches, hw])) later

theorem concludedAll (regs : List Registration)
    (fired : ∀ w ∈ watchesAll regs, (r.get? w.attr).isSome)
    (h : ∀ i ∈ regs.map toRule, r.Concluded symbols i.tidied) :
    ∀ p ∈ rulesAll regs, r.Concluded symbols p.rule.tidied := by
  match regs with
  | [] => simp [rulesAll]
  | reg :: regs =>
    intro p hp
    rcases mem_append.mp hp with hp | hp
    · exact concluded reg (fun w hw => fired w (by simp [watchesAll, hw])) (h _ (by simp)) p hp
    · exact concludedAll regs (fun w hw => fired w (by simp [watchesAll, hw]))
        (fun i hi => h i (by simp [mem_map.mp hi])) p hp

end

end Registration

/-- A call that is made before the run. -/
inductive Call : Type 1 where
  | set (attr : Attribute) (value : Value)
  | register (registration : Registration)

namespace Call

def request : Call → Request
  | .set attr value => .seed attr value
  | .register reg => .register reg.toRule

def seeds : Call → List (Attribute × Value)
  | .set attr value => [(attr, value)]
  | .register _ => []

def rules : Call → List PureRule
  | .set _ _ => []
  | .register reg => reg.rules

def watches : Call → List Watch
  | .set _ _ => []
  | .register reg => reg.watches

end Call

/-- Calls in the order in which they are made. -/
abbrev Script := List Call

namespace Script

def seeds (script : Script) : List (Attribute × Value) := script.flatMap Call.seeds

def rules (script : Script) : List PureRule := script.flatMap Call.rules

def watches (script : Script) : List Watch := script.flatMap Call.watches

def requests (script : Script) : List Request := script.map Call.request

/-- The bodies that wait for an attribute can read what it holds. -/
def Readable (symbols : SymbolTable) (script : Script) : Prop :=
  ∀ w ∈ script.watches, ∀ v, Holds symbols script.seeds script.rules w.attr v → w.accepts v = true

/-- No attribute is written twice, and values are of the kinds that are read. -/
structure Proper (symbols : SymbolTable) (script : Script) : Prop where
  distinct : (script.seeds.map Prod.fst ++ script.rules.map PureRule.target).Nodup
  kinds : WellKinded symbols script.seeds script.rules
  readable : script.Readable symbols

/-- Every body that waits for an attribute has run. -/
def Fires (script : Script) (r : Reactor) : Prop :=
  ∀ w ∈ script.watches, (r.get? w.attr).isSome

theorem targets_perm (script : Script) : (script.requests.flatMap Request.targets).Perm
    (script.seeds.map Prod.fst ++ script.rules.map PureRule.target) := by
  induction script with
  | nil => exact List.Perm.refl _
  | cons call script ih =>
    cases call with
    | set attr value => exact ih.cons attr
    | register reg =>
      have here : Request.targets (Call.register reg).request =
          reg.rules.map PureRule.target := reg.targets_toRule
      change (Request.targets (Call.register reg).request ++
        (requests script).flatMap Request.targets).Perm
          ((seeds script).map Prod.fst ++ (reg.rules ++ rules script).map PureRule.target)
      rw [here, map_append]
      refine (ih.append_left _).trans ?_
      rw [← append_assoc, ← append_assoc]
      exact perm_append_comm.append_right _

variable {symbols : SymbolTable} {script other : Script} {r : Reactor}

theorem admitted (proper : script.Proper symbols) :
    ∀ q ∈ script.requests, q.Admitted (leastModel symbols script.seeds script.rules) := by
  intro q hq
  obtain ⟨call, hc, rfl⟩ := mem_map.mp hq
  cases call with
  | set attr value =>
    exact Holds.seed (mem_flatMap.mpr ⟨_, hc, mem_singleton_self _⟩)
  | register reg =>
    exact reg.admits proper.kinds (fun p hp => mem_flatMap.mpr ⟨_, hc, hp⟩)
      fun w hw => proper.readable w (mem_flatMap.mpr ⟨_, hc, hw⟩)

/-- The state at the end of the run of a script. -/
structure Outcome (symbols : SymbolTable) (script : Script) (r : Reactor) : Prop where
  settled : r.Settled (leastModel symbols script.seeds script.rules)
  seeds : ∀ {attr v}, (attr, v) ∈ script.seeds → r.get? attr = some v
  rules : script.Fires r → ∀ p ∈ script.rules, r.Concluded symbols p.rule.tidied

theorem outcome (proper : script.Proper symbols) :
    ∃ ready stats r, Reactor.empty.performRequests script.requests = .ok ready ∧
      ready.run symbols = (.ok stats, r) ∧ Outcome symbols script r := by
  have nodup := script.targets_perm.nodup_iff.mpr proper.distinct
  have empty := Reactor.Settled.empty (leastModel symbols script.seeds script.rules)
  obtain ⟨r, hr, settled, passed⟩ := empty.runPass nodup (fun _ _ => rfl) (admitted proper)
  obtain ⟨ready, stats, hready, hrun⟩ := Reactor.runPass_eq_ok.mp hr
  refine ⟨ready, stats, r, hready, hrun, settled, ?_, ?_⟩
  · intro attr v hs
    obtain ⟨call, hc, hv⟩ := mem_flatMap.mp hs
    cases call with
    | set a w =>
      cases mem_singleton.mp hv
      exact passed.met _ (mem_map_of_mem hc)
    | register reg => cases hv
  · intro fires p hp
    obtain ⟨call, hc, hp⟩ := mem_flatMap.mp hp
    cases call with
    | set a w => cases hp
    | register reg =>
      exact reg.concluded (fun w hw => fires w (mem_flatMap.mpr ⟨_, hc, hw⟩))
        (passed.met _ (mem_map_of_mem hc)) p hp

end Script

/-! ### Closed states -/

/-- A concluded rule whose sources have values has left its result. -/
theorem PureRule.recorded {symbols : SymbolTable} {r : Reactor}
    (h : r.Concluded symbols p.rule.tidied)
    (sources : ∀ d ∈ p.sources, r.get? d = some (values d))
    (applied : p.evaluate? symbols values = some result) :
    r.Recorded (.write p.target (.ofResult result)) := by
  have held : ∀ d ∈ p.rule.deps, r.get? d = some (values d) :=
    fun d hd => sources d (p.deps_eq ▸ hd)
  exact h.recorded held (PureRule.computes applied) _ (.head _)

namespace Script.Outcome

variable {symbols : SymbolTable} {script : Script} {r : Reactor}

theorem get?_iff (h : Outcome symbols script r) (fires : script.Fires r) :
    r.get? attr = some v ↔ Holds symbols script.seeds script.rules attr v := by
  refine ⟨fun hv => h.settled.healthy.holds hv, fun holds => ?_⟩
  induction holds with
  | seed hs => exact h.seeds hs
  | rule mem _ result ih => exact PureRule.recorded (h.rules fires _ mem) ih result

theorem errorOf?_iff (h : Outcome symbols script r) (proper : script.Proper symbols)
    (fires : script.Fires r) :
    (r.errorOf? attr).isSome ↔ Fails symbols script.seeds script.rules attr := by
  constructor
  · intro failed
    obtain ⟨e, he⟩ := Option.isSome_iff_exists.mp failed
    exact h.settled.healthy.fails he
  intro fails
  induction fails with
  | rule mem sources result =>
    exact (PureRule.recorded (h.rules fires _ mem)
      (fun d hd => (h.get?_iff fires).mpr (sources d hd)) result).1
  | @source p d mem dep _ ih =>
    obtain ⟨e, he⟩ := Option.isSome_iff_exists.mp ih
    have noValue : ∀ v, r.get? d ≠ some v := by
      intro v hv
      rw [Reactor.get?_eq_some, Reactor.errorOf?_eq_some.mp he] at hv
      cases hv
    cases h.rules fires p mem with
    | waits stuck =>
      rw [stuck.2 d (PureRule.mem_deps.mpr dep)] at he
      cases he
    | lost _ _ exports =>
      have resolved := exports p.target (by simp [p.exports_eq])
      rcases Reactor.isResolved_iff_get?_or_errorOf?.mp resolved with ⟨v, hv⟩ | ⟨e, he⟩
      · -- a value of the target would need one of the source that failed
        obtain ⟨values, hold⟩ := Holds.of_target proper.distinct mem ((h.get?_iff fires).mp hv)
        exact (noValue _ ((h.get?_iff fires).mpr (hold d dep))).elim
      · simp [he]
    | ran _ found _ _ _ =>
      obtain ⟨v, _, hv⟩ := found d (PureRule.mem_deps.mpr dep)
      exact (noValue v hv).elim

/-- An attribute has no slot unless it holds a value or fails. -/
theorem slot?_eq_none_iff (h : Outcome symbols script r) (proper : script.Proper symbols)
    (fires : script.Fires r) :
    r.slot? attr = none ↔ (∀ v, ¬ Holds symbols script.seeds script.rules attr v) ∧
      ¬ Fails symbols script.seeds script.rules attr := by
  simp only [← h.get?_iff fires, ← h.errorOf?_iff proper fires]
  rw [← Reactor.isResolved_eq_false, Bool.eq_false_iff, ne_eq,
    Reactor.isResolved_iff_get?_or_errorOf?, Option.isSome_iff_exists, not_or, not_exists]

end Script.Outcome

/-! ### Order -/

section Order

variable {symbols : SymbolTable} {seeds seeds' : List (Attribute × Value)}
  {rules rules' : List PureRule}

theorem Holds.mono (hs : seeds ⊆ seeds') (hr : rules ⊆ rules')
    (h : Holds symbols seeds rules attr v) : Holds symbols seeds' rules' attr v := by
  induction h with
  | seed h => exact .seed (hs h)
  | rule mem _ result ih => exact .rule (hr mem) ih result

theorem Fails.mono (hs : seeds ⊆ seeds') (hr : rules ⊆ rules') (h : Fails symbols seeds rules attr) :
    Fails symbols seeds' rules' attr := by
  induction h with
  | rule mem sources result => exact .rule (hr mem) (fun d hd => (sources d hd).mono hs hr) result
  | source mem dep _ ih => exact .source (hr mem) dep ih

theorem Holds.perm (hs : seeds.Perm seeds') (hr : rules.Perm rules') :
    Holds symbols seeds rules attr v ↔ Holds symbols seeds' rules' attr v :=
  ⟨.mono hs.subset hr.subset, .mono hs.symm.subset hr.symm.subset⟩

theorem Fails.perm (hs : seeds.Perm seeds') (hr : rules.Perm rules') :
    Fails symbols seeds rules attr ↔ Fails symbols seeds' rules' attr :=
  ⟨.mono hs.subset hr.subset, .mono hs.symm.subset hr.symm.subset⟩

end Order

namespace Script

variable {symbols : SymbolTable} {script other : Script}

theorem Proper.reorder (proper : script.Proper symbols) (hs : other.seeds.Perm script.seeds)
    (hr : other.rules.Perm script.rules) (readable : other.Readable symbols) :
    other.Proper symbols where
  distinct := (((hs.map Prod.fst).append (hr.map PureRule.target)).nodup_iff).mpr proper.distinct
  kinds p hp values hold :=
    proper.kinds p (hr.subset hp) values fun d hd => (Holds.perm hs hr).mp (hold d hd)
  readable := readable

/-- The calls of a script succeed, and the run finds the least model of its seeds and rules.  The
same seeds and rules, in any order and registered at any depth, give the same. -/
theorem run_finds_least_model (symbols : SymbolTable) (script : Script)
    (proper : script.Proper symbols) :
    ∃ ready stats r, Reactor.empty.performRequests script.requests = .ok ready ∧
      ready.run symbols = (.ok stats, r) ∧
      (∀ seed ∈ script.seeds, r.get? seed.1 = some seed.2) ∧
      (script.Fires r →
        (∀ attr v, r.get? attr = some v ↔ Holds symbols script.seeds script.rules attr v) ∧
        (∀ attr, (r.errorOf? attr).isSome ↔ Fails symbols script.seeds script.rules attr) ∧
        (∀ attr, r.slot? attr = none ↔ (∀ v, ¬ Holds symbols script.seeds script.rules attr v) ∧
          ¬ Fails symbols script.seeds script.rules attr)) ∧
      ∀ other : Script, other.seeds.Perm script.seeds → other.rules.Perm script.rules →
        other.Readable symbols →
        ∃ ready' stats' r', Reactor.empty.performRequests other.requests = .ok ready' ∧
          ready'.run symbols = (.ok stats', r') ∧
          (script.Fires r → other.Fires r' → ∀ attr, r'.get? attr = r.get? attr ∧
            (r'.errorOf? attr).isSome = (r.errorOf? attr).isSome) := by
  obtain ⟨ready, stats, r, hready, hrun, result⟩ := outcome proper
  refine ⟨ready, stats, r, hready, hrun, fun _ hs => result.seeds hs,
    fun fires => ⟨fun _ _ => result.get?_iff fires, fun _ => result.errorOf?_iff proper fires,
      fun _ => result.slot?_eq_none_iff proper fires⟩, ?_⟩
  intro other hs hr readable
  have proper' := proper.reorder hs hr readable
  obtain ⟨ready', stats', r', hready', hrun', result'⟩ := outcome proper'
  refine ⟨ready', stats', r', hready', hrun', fun fires fires' attr => ⟨?_, ?_⟩⟩
  · refine Option.ext fun v => ?_
    rw [result'.get?_iff fires', result.get?_iff fires, Holds.perm hs hr]
  · rw [Bool.eq_iff_iff, result'.errorOf?_iff proper' fires', result.errorOf?_iff proper fires,
      Fails.perm hs hr]

def nodeType (n : Nat) : Attribute := typeOf (.node ⟨n⟩)

def copying : PureRule := .copy "copy" (nodeType 0) (nodeType 1)

def failing : PureRule :=
  .map "fail" .value (nodeType 1) (nodeType 2) fun _ _ => .error ⟨.dummy, "no type"⟩

def pairing : PureRule :=
  .flatMap "pair" .value [nodeType 2, nodeType 9] (nodeType 3) fun _ _ => .ok (.flag true)

/-- Two rules that are registered once the first type is there, the second of which fails, and a
rule with a source that fails and one that never gets a slot. -/
def lateFailure : Script :=
  [.register (.on "late" .type (nodeType 0) [.rule copying, .rule failing]),
    .register (.rule pairing), .set (nodeType 0) (.type .int)]

theorem rules_lateFailure : lateFailure.rules = [copying, failing, pairing] := rfl

theorem watches_lateFailure : lateFailure.watches =
    [⟨nodeType 0, fun v => (Kind.type.extract v).isSome⟩] := rfl

/-- Nothing but the seed and the three rules gives a slot to an attribute. -/
theorem holds_lateFailure {symbols : SymbolTable}
    (h : Holds symbols lateFailure.seeds lateFailure.rules attr v) :
    attr = nodeType 0 ∧ v = .type .int ∨ attr ∈ [nodeType 1, nodeType 2, nodeType 3] := by
  cases h with
  | seed hs => exact .inl (Prod.mk.inj (mem_singleton.mp hs))
  | rule mem _ _ => exact .inr (mem_map_of_mem mem)

theorem lateFailure_proper (symbols : SymbolTable) : lateFailure.Proper symbols where
  distinct := by decide
  kinds := by
    intro p hp values _
    simp only [rules_lateFailure, mem_cons, not_mem_nil, or_false] at hp
    rcases hp with rfl | rfl | rfl
    · rfl
    · rfl
    · rfl
  readable := by
    intro w hw v holds
    rw [watches_lateFailure, mem_singleton] at hw
    subst hw
    rcases holds_lateFailure holds with ⟨_, rfl⟩ | hm
    · rfl
    · exact absurd hm (by decide)

theorem run_finds_least_model_lateFailure :
    lateFailure.Proper .initial ∧
      ∃ ready stats r, Reactor.empty.performRequests lateFailure.requests = .ok ready ∧
        ready.run .initial = (.ok stats, r) ∧ lateFailure.Fires r ∧
        r.get? (nodeType 1) = some (.type .int) ∧ (r.errorOf? (nodeType 3)).isSome ∧
        r.slot? (nodeType 9) = none := by
  have proper := lateFailure_proper .initial
  obtain ⟨ready, stats, r, hready, hrun, hseeds, model, _⟩ :=
    run_finds_least_model .initial lateFailure proper
  have first : r.get? (nodeType 0) = some (.type .int) :=
    hseeds (nodeType 0, .type .int) (.head _)
  have fires : lateFailure.Fires r := by
    intro w hw
    rw [watches_lateFailure, mem_singleton] at hw
    rw [hw, first]
    rfl
  obtain ⟨values, errors, slots⟩ := model fires
  have copied : Holds .initial lateFailure.seeds lateFailure.rules copying.target (.type .int) := by
    refine @Holds.rule _ _ _ copying (fun _ => .type .int) _ (by simp [rules_lateFailure])
      (fun d hd => ?_) rfl
    rw [mem_singleton.mp hd]
    exact (values _ _).mp first
  have failed : Fails .initial lateFailure.seeds lateFailure.rules failing.target := by
    refine @Fails.rule _ _ _ failing (fun _ => .type .int) _ (by simp [rules_lateFailure])
      (fun d hd => ?_) rfl
    rw [mem_singleton.mp hd]
    exact copied
  have spread : Fails .initial lateFailure.seeds lateFailure.rules pairing.target :=
    .source (by simp [rules_lateFailure]) (.head _) failed
  refine ⟨proper, ready, stats, r, hready, hrun, fires, (values _ _).mpr copied,
    (errors _).mpr spread, (slots _).mpr ⟨fun v hv => ?_, fun hf => ?_⟩⟩
  · rcases holds_lateFailure hv with ⟨he, _⟩ | hm
    · cases he
    · exact absurd hm (by decide)
  · exact absurd hf.mem_targets (by decide)

end Script

end BlFront
