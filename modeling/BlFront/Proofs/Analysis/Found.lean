import BlFront.Proofs.Analysis.Judgement

/-!
# Types that are found

The rules for types wait for each other.  Still nothing is left without a type unless the pass over
missing types says so: what it does not look at gets a type as soon as its operands have types.
-/

namespace BlFront

open List CompilationUnit Reactor

variable {attr target : Attribute} {expected : Option Expected} {n : NodeId} {name : String}
  {owner source : Owner} {part : Part} {r : Reactor} {s : SymbolId} {type : Ty} {v : Value}
  {a a₁ a₂ a₃ : Analysis} {unit : CompilationUnit}

open Names

theorem CompilationUnit.expr_induction {motive : Expr → Prop}
    (step : ∀ e expected, .expr e expected ∈ unit.entered →
      (∀ child inner, (child, inner) ∈ e.operands expected → motive child) → motive e)
    {e : Expr} (entered : .expr e expected ∈ unit.entered) : motive e := by
  have all : ∀ b : Branch, ∀ e expected, b = .expr e expected → .expr e expected ∈ unit.entered →
      motive e := by
    intro b
    induction b using Branch.induction with
    | step b ih =>
      rintro e expected rfl entered
      exact step e expected entered fun child inner mem => ih (.expr child inner)
        (mem_map.mpr ⟨(child, inner), mem, rfl⟩) child inner rfl (operand_entered entered mem)
  exact all _ e expected rfl entered

namespace Analysis

/-! ### What has a value -/

/-- Whether an attribute has a value. -/
def Valued (r : Reactor) (attr : Attribute) : Prop := ∃ v, r.get? attr = some v

/-- The value of an attribute that has one. -/
def valueAt (r : Reactor) (attr : Attribute) : Value := (r.get? attr).getD (.flag false)

theorem valueAt_eq (h : r.get? attr = some v) : valueAt r attr = v := by
  rw [valueAt, h]
  rfl

theorem Valued.get? (h : Valued r attr) : r.get? attr = some (valueAt r attr) := by
  obtain ⟨v, hv⟩ := h
  rw [hv, valueAt_eq hv]

theorem getAs?_iff {α : Type} {kind : Kind α} {wrap : α → Value}
    (exact_ : ∀ v x, kind.extract v = some x ↔ v = wrap x) {x : α} :
    r.getAs? kind attr = some x ↔ r.get? attr = some (wrap x) := by
  cases h : r.get? attr <;> simp [getAs?, h, exact_]

theorem getAs?_type : r.getAs? Kind.type attr = some type ↔ r.get? attr = some (.type type) :=
  getAs?_iff fun v x => by cases v <;> simp [Kind.type]

theorem getAs?_symbol : r.getAs? Kind.symbol attr = some s ↔ r.get? attr = some (.symbol s) :=
  getAs?_iff fun v x => by cases v <;> simp [Kind.symbol]

theorem getAs?_scope {id : ScopeId} :
    r.getAs? Kind.scope attr = some id ↔ r.get? attr = some (.scope id) :=
  getAs?_iff fun v x => by cases v <;> simp [Kind.scope]

theorem hasType_iff :
    a.typing.HasType owner type ↔ a.reactor.get? (typeOf owner) = some (.type type) :=
  getAs?_type

theorem means_iff : a.typing.Means n s ↔ a.reactor.get? (AttrName.symbol.of n) = some (.symbol s) :=
  getAs?_symbol

/-- The type of a node or symbol that has one. -/
def typeAt (a : Analysis) (owner : Owner) : Ty := (valueAt a.reactor (typeOf owner)).asType

end Analysis

open Analysis

namespace Typing.HasType

variable (h : a.typing.HasType owner type)

include h

theorem valued : Valued a.reactor (typeOf owner) := ⟨_, hasType_iff.mp h⟩

theorem valueAt_eq : valueAt a.reactor (typeOf owner) = .type type :=
  Analysis.valueAt_eq (hasType_iff.mp h)

theorem typeAt_eq : a.typeAt owner = type := by
  rw [typeAt, h.valueAt_eq]
  rfl

end Typing.HasType

namespace Analysis

/-! ### What the rules for types have left -/

theorem Ran.hasType {phase : Phase} (ran : Ran phase a₁ a₂)
    (valued : Valued a₂.reactor (typeOf owner)) : a₂.typing.HasType owner (a₂.typeAt owner) := by
  obtain ⟨same, _⟩ := Fits.asType (ran.settled.healthy.holds valued.get?) rfl
  exact hasType_iff.mpr (valued.get?.trans (congrArg some same))

theorem Ran.recorded (ran : Ran .resolveTypes a₁ a₂) (named : Named unit a₁)
    (entered : part ∈ unit.entered) {rule : Rule} {values : Attribute → Value}
    (mem : .register rule ∈ Types.partRequests a₁.reactor (table unit) part)
    (held : ∀ d ∈ rule.deps, a₂.reactor.get? d = some (values d)) {effect : Effect}
    (computes : rule.Computes (table unit) values [effect]) : a₂.reactor.Recorded effect := by
  have passed := ran.passed
  rw [ran.symbols_eq, named.plan_eq] at passed
  exact passed.computed (mem_flatMap.mpr ⟨part, mem_left.mpr entered, mem⟩) held computes _ (.head _)

section Typed

variable (h : Typed unit a₁ a₂)

include h

theorem Typed.typing_table : a₂.typing.table = table unit := h.symbols_eq

theorem Typed.hasType (valued : Valued a₂.reactor (typeOf owner)) :
    a₂.typing.HasType owner (a₂.typeAt owner) := h.ran.hasType valued

theorem Typed.typeAt_coherent (owner : Owner) : (a₂.typeAt owner).Coherent (table unit) := by
  unfold typeAt valueAt
  cases held : a₂.reactor.get? (typeOf owner) with
  | none => trivial
  | some v => exact (Fits.asType (h.settled.healthy.holds held) rfl).2

/-- What nodes are bound to stays the same. -/
theorem Typed.symbolAt_eq (bound : a₁.reactor.get? (AttrName.symbol.of n) = some (.symbol s)) :
    symbolAt a₂.reactor n = s :=
  Names.symbolAt_eq (h.passed.keeps.get? bound)

variable (entered : part ∈ unit.entered)

include entered

theorem Typed.seeded (mem : .seed attr v ∈ Types.partRequests a₁.reactor (table unit) part) :
    a₂.reactor.get? attr = some v :=
  h.passed.seeded (mem_flatMap.mpr ⟨part, mem_left.mpr entered, mem⟩)

theorem Typed.not_rejected {error : SemanticError} {affected : List Attribute} :
    .reject error affected ∉ Types.partRequests a₁.reactor (table unit) part := fun mem =>
  h.passed.not_rejected h.clean (mem_flatMap.mpr ⟨part, mem_left.mpr entered, mem⟩)

variable {rule : Rule} (mem : .register rule ∈ Types.partRequests a₁.reactor (table unit) part)

include mem

section Rule

variable (held : ∀ d ∈ rule.deps, Valued a₂.reactor d)

include held

/-- A rule of a part has run as soon as its dependencies have values. -/
theorem Typed.valued : ∀ x ∈ rule.exports, Valued a₂.reactor x :=
  Reactor.Passed.valued (M := outlook (table unit)) h.passed h.settled h.clean
    (mem_flatMap.mpr ⟨part, mem_left.mpr entered, mem⟩)
    (Types.partRequests_decided h.named.done entered (fun _ _ _ => trivial) _ mem).admitted held

/-- A rule that has run has found no error. -/
theorem Typed.results {result : Except SemanticError Value}
    (computes : rule.Computes (table unit) (valueAt a₂.reactor) [.write target (.ofResult result)]) :
    ∃ v, result = .ok v ∧ a₂.reactor.get? target = some v := by
  have recorded := h.ran.recorded h.named entered mem (fun d hd => (held d hd).get?) computes
  cases result with
  | ok v => exact ⟨v, rfl, recorded⟩
  | error e =>
    have reported : e ∈ a₂.reactor.rootErrors := recorded.2
    rw [h.clean] at reported
    cases reported

theorem Typed.written
    (computes : rule.Computes (table unit) (valueAt a₂.reactor) [.write target (.value v)]) :
    a₂.reactor.get? target = some v := by
  have found : ∃ w, Except.ok v = .ok w ∧ a₂.reactor.get? target = some w :=
    h.results entered mem held computes
  obtain ⟨_, ⟨⟩, written⟩ := found
  exact written

end Rule

omit mem

theorem Typed.mapped {f : Ty → SymbolTable → Except SemanticError Value}
    (mem : .register (.map name Kind.type (typeOf source) target f) ∈
      Types.partRequests a₁.reactor (table unit) part) (typed : a₂.typing.HasType source type) :
    ∃ v, f type (table unit) = .ok v ∧ a₂.reactor.get? target = some v :=
  h.results entered mem (forall_mem_singleton.mpr typed.valued)
    (Rule.map_computes name (by rw [typed.valueAt_eq]; rfl) target f)

theorem Typed.copied {target : Owner} (mem : .register (.copy name (typeOf source) (typeOf target)) ∈
      Types.partRequests a₁.reactor (table unit) part) (typed : a₂.typing.HasType source type) :
    a₂.typing.HasType target type := by
  have written := h.written entered mem (forall_mem_singleton.mpr typed.valued)
    (Rule.copy_computes name (typeOf source) (typeOf target))
  exact hasType_iff.mpr (written.trans (congrArg some typed.valueAt_eq))

section Members

omit entered

variable {α : Type} {xs : List α} {node : α → NodeId}
  (valued : ∀ n ∈ xs.map node, Valued a₂.reactor (typeOf (symbolAt a₁.reactor n)))

include valued

theorem Typed.members_typed (name : α → String) :
    ∀ m ∈ Types.typedMembers (xs.map name) ((xs.map node).map (symbolAt a₁.reactor)),
      a₂.reactor.get? m.2 = some (.type (valueAt a₂.reactor m.2).asType) := by
  rw [Types.typedMembers_map]
  exact forall_mem_map.mpr fun x hx => hasType_iff.mp (h.hasType (valued _ (mem_map_of_mem hx)))

theorem Typed.declares (bound : ∀ n ∈ xs.map node,
      a₁.reactor.get? (AttrName.symbol.of n) = some (.symbol (symbolAt a₁.reactor n)))
    (name : α → String) : a₂.typing.Declares (xs.map fun x => (name x, node x))
      ((Types.typedMembers (xs.map name) ((xs.map node).map (symbolAt a₁.reactor))).map
        fun m => ⟨m.1, (valueAt a₂.reactor m.2).asType⟩) := by
  rw [Types.typedMembers_map, map_map]
  refine forall₂_map_left_iff.mpr (forall₂_map_right_iff.mpr
    (forall₂_same.mpr fun x hx => ⟨rfl, _, ?_, h.hasType (valued _ (mem_map_of_mem hx))⟩))
  exact means_iff.mpr (h.passed.keeps.get? (bound _ (mem_map_of_mem hx)))

end Members

end Typed

/-! ### Nothing is missing -/

/-- The types that the pass over missing types looks at are known. -/
def Inspected (unit : CompilationUnit) (r : Reactor) : Prop :=
  ∀ part ∈ unit.entered, ∀ owner ∈ Inferred.wanted r part, Valued r (typeOf owner)

/-- The pass over missing types is accepted exactly if nothing that it looks at is open. -/
theorem Typed.checkInferred_iff (h : Typed unit a₁ a₂) :
    (∃ b, a₂.step .checkInferred = .ok b) ↔ Inspected unit a₂.reactor := by
  obtain ⟨b, ran⟩ := h.ready.exists_ran
  have requests : Inferred.plan unit a₂.reactor = [] ↔ Inspected unit a₂.reactor :=
    Inferred.plan_eq_nil h.bindings
  rw [← requests]
  constructor
  · rintro ⟨c, step⟩
    obtain ⟨rfl, clean⟩ := ran.step_eq_ok.mp step
    have passed := ran.passed
    rw [h.plan_eq] at passed
    refine eq_nil_iff_forall_not_mem.mpr fun q hq => ?_
    obtain ⟨e, rfl⟩ := Inferred.mem_plan h.bindings hq
    exact passed.not_rejected clean hq
  · intro nothing
    refine ⟨b, ran.step_eq_ok.mpr ⟨rfl, ?_⟩⟩
    obtain ⟨r, pass, errors⟩ := h.settled.resting.runPass (table unit)
    have advanced := ran.advanced
    simp only [advance, h.plan_eq, nothing, pass, Except.map] at advanced
    cases advanced
    have clean := h.clean
    rwa [rootErrors, ← errors] at clean

section Known

variable (h : Known unit a₁ a₂ a₃)

include h

theorem Known.get?_eq (attr : Attribute) : a₃.reactor.get? attr = a₂.reactor.get? attr := by
  simp only [Reactor.get?, h.slot?_eq]

theorem Known.bound : Bindings unit a₁.reactor := h.typed.named.done.bindings

theorem Known.looked (entered : part ∈ unit.entered) (wanted : owner ∈ Inferred.wanted a₂.reactor part) :
    a₂.typing.HasType owner (a₂.typeAt owner) :=
  h.typed.hasType (h.typed.checkInferred_iff.mp ⟨a₃, h.ran.step_eq_ok.mpr ⟨rfl, h.clean⟩⟩
    part entered owner wanted)

theorem Known.type_typed {written : TypeExpr} (entered : .type written ∈ unit.entered) :
    a₂.typing.HasType written.id (a₂.typeAt written.id) := by
  induction written with
  | named tag name => exact h.looked entered (.tail _ (.head _))
  | array tag element ih =>
    have typed := ih (child_entered entered (.head _))
    exact h.typed.hasType (h.typed.valued entered (.head _)
      (forall_mem_singleton.mpr typed.valued) _ (.head _))

/-- A parameter or field has the type with which it is declared. -/
theorem Known.name_typed {p : TypedName} (entered : .param p ∈ unit.entered ∨ .field p ∈ unit.entered) :
    a₂.typing.HasType p.type.id (a₂.typeAt p.type.id) ∧
      a₂.typing.HasType (symbolAt a₁.reactor p.tag.id) (a₂.typeAt p.type.id) := by
  rcases entered with entered | entered
  · have typed := h.type_typed (child_entered entered (.head _))
    have requests := Types.param_requests h.bound entered (table unit)
    exact ⟨typed, h.typed.copied entered (requests ▸ mem_singleton_self _) typed⟩
  · have typed := h.type_typed (child_entered entered (.head _))
    have requests := Types.field_requests h.bound entered (table unit)
    exact ⟨typed, h.typed.copied entered (requests ▸ mem_singleton_self _) typed⟩

theorem Known.symbol_typed (present : (table unit).hasSymbol s = true) :
    a₂.typing.HasType s (a₂.typeAt s) := by
  rcases hasSymbol_cases present with builtin | ⟨part, declared⟩
  · obtain ⟨type, typed⟩ := h.typed.named.done.builtins s builtin
    exact h.typed.hasType ⟨_, h.typed.passed.keeps.get? typed⟩
  · obtain ⟨entered, isDeclaration⟩ := entered_of_mem_declarations declared
    have bound : ∀ {n}, part.id? = some n → symbolAt a₂.reactor n = s := fun node =>
      Names.symbolAt_eq (h.typed.bindings.declared _ declared _ node)
    have named : ∀ {p : TypedName}, .param p ∈ unit.entered ∨ .field p ∈ unit.entered →
        part.id? = some p.tag.id → a₂.typing.HasType s (a₂.typeAt s) := by
      intro p entered node
      have typed := (h.name_typed entered).2
      rw [Names.symbolAt_eq (h.bound.declared _ declared _ node)] at typed
      exact h.typed.hasType typed.valued
    cases part with
    | function decl => exact bound rfl ▸ h.looked entered (.head _)
    | structDecl decl => exact bound rfl ▸ h.looked entered (.head _)
    | classDecl decl => exact bound rfl ▸ h.looked entered (.head _)
    | varDecl decl => exact bound rfl ▸ h.looked entered (.head _)
    | param decl => exact named (.inl entered) rfl
    | field decl => exact named (.inr entered) rfl
    | _ => cases isDeclaration

/-- What a node is bound to after the first pass, it still means, and that has a type. -/
theorem Known.bound_typed (bound : a₁.reactor.get? (AttrName.symbol.of n) = some (.symbol s)) :
    a₂.typing.Means n s ∧ a₂.typing.HasType s (a₂.typeAt s) := by
  have kept := h.typed.passed.keeps.get? bound
  have fits : Fits (table unit) (AttrName.symbol.of n) (.symbol s) := h.typed.settled.healthy.holds kept
  obtain ⟨_, same, present⟩ := fits.symbol rfl
  cases same
  exact ⟨means_iff.mpr kept, h.symbol_typed present⟩

/-! ### Expressions -/

theorem Known.method_bound {tag : Tag} {receiver : Expr} {method : String} {args : List Expr}
    (entered : .expr (.methodCall tag receiver method args) expected ∈ unit.entered)
    (typed : Valued a₂.reactor (typeOf receiver.id)) : Valued a₂.reactor (AttrName.symbol.of tag.id) :=
  h.typed.valued entered (.head _) (forall_mem_singleton.mpr typed) _ (.head _)

theorem Known.expr_typed {e : Expr} (entered : .expr e expected ∈ unit.entered) :
    a₂.typing.HasType e.id (a₂.typeAt e.id) := by
  refine expr_induction (motive := fun e => a₂.typing.HasType e.id (a₂.typeAt e.id))
    (fun e expected entered typed => ?_) entered
  -- most rules wait for one operand
  have single : ∀ {rule : Rule} {child : Expr} {inner : Option Expected},
      .register rule ∈ Types.partRequests a₁.reactor (table unit) (.expr e expected) →
      (child, inner) ∈ e.operands expected → rule.deps = [typeOf child.id] →
      rule.exports = [typeOf e.id] → a₂.typing.HasType e.id (a₂.typeAt e.id) := by
    intro rule child inner mem operand reads writes
    refine h.typed.hasType (h.typed.valued entered mem ?_ _ (writes ▸ .head _))
    rw [reads]
    exact forall_mem_singleton.mpr (typed _ _ operand).valued
  cases e with
  | literal tag value => exact h.typed.hasType ⟨_, h.typed.seeded entered (.head _)⟩
  | array tag elements => exact h.looked entered (.head _)
  | reference tag name => exact h.looked entered (.tail _ (.head _))
  | selfRef tag =>
    obtain ⟨around, site⟩ := exists_site entered
    obtain ⟨decl, nearest, requests⟩ := Types.self_requests h.bound site (table unit)
    have enclosing : .classDecl decl ∈ unit.entered :=
      around_entered site (mem_of_find?_eq_some nearest)
    have copied := h.typed.copied entered (requests ▸ mem_singleton_self _)
      (h.bound_typed (h.bound.symbolAt enclosing rfl rfl).2).2
    exact h.typed.hasType copied.valued
  | unary tag op child => exact single (.head _) (.head _) rfl rfl
  | binary tag op left right =>
    exact h.typed.hasType (h.typed.valued entered (.head _)
      (forall_mem_cons.mpr ⟨(typed _ _ (.head _)).valued,
        forall_mem_singleton.mpr (typed _ _ (.tail _ (.head _))).valued⟩) _ (.head _))
  | assign tag target value => exact single (.head _) (.tail _ (.head _)) rfl rfl
  | call tag callee args => exact single (.head _) (.head _) rfl rfl
  | methodCall tag receiver method args =>
    have first := (typed _ _ (.head _)).valued
    exact h.typed.hasType (h.typed.valued entered (.tail _ (.head _))
      (forall_mem_cons.mpr ⟨first, forall_mem_singleton.mpr (h.method_bound entered first)⟩)
      _ (.head _))
  | select tag object field => exact single (.head _) (.head _) rfl rfl
  | index tag object position => exact single (.head _) (.head _) rfl rfl

theorem Known.child_typed {e : Expr} (entered : .expr e expected ∈ unit.entered) (child : Expr)
    (mem : child ∈ e.children) : a₂.typing.HasType child.id (a₂.typeAt child.id) := by
  obtain ⟨inner, mem⟩ := e.mem_operands mem expected
  exact h.expr_typed (operand_entered entered mem)

end Known

end Analysis

end BlFront
