import BlFront.Proofs.Analysis.Soundness

/-!
# Types as values

The name of a type is an expression like any other and has the type that it names.  Whether a call
makes an instance depends on the type of what is called and on nothing else: the name of a struct or
class makes instances of it, and so does any of its instances.
-/

namespace BlFront

open List SymbolTable

/-- The struct or class that a type is. -/
def Ty.nominal? : Ty → Option SymbolId
  | .struct symbol _ _ => some symbol
  | .object own _ => some own.symbol
  | _ => none

namespace SymbolTable

/-- The type that a symbol names. -/
inductive Names (t : SymbolTable) (s : SymbolId) : Ty → Prop
  | primitive {symbol : Symbol} {type : Ty} (held : t.symbol? s = some symbol)
      (kind : symbol.kind = .primitiveType) (known : Ty.primitive? symbol.name = some type) :
      Names t s type
  | struct {members : ScopeId} {name : String} {fields : List Member}
      (kind : t.kind? s = some (.structType members)) : Names t s (.struct s name fields)
  | object {members : ScopeId} {superclass : Option String} {own : ClassRow} {supers : List ClassRow}
      (kind : t.kind? s = some (.classType members superclass)) (same : own.symbol = s) :
      Names t s (.object own supers)

/-- What the type of a symbol can be, by what the symbol is. -/
inductive Gives (t : SymbolTable) (s : SymbolId) : Ty → Prop
  | named {type : Ty} (isType : t.hasKind (·.isType) s = true) (names : t.Names s type) :
      Gives t s type
  | callable {params : List Member} {result : Ty} (callable : t.hasKind (·.isCallable) s = true) :
      Gives t s (.function params result)
  | held {type : Ty} (storage : t.hasKind (fun kind => kind.isVar || kind.isField) s = true) :
      Gives t s type

variable {t : SymbolTable} {s : SymbolId} {type : Ty}

theorem isAtom_of_primitive? {name : String} (known : Ty.primitive? name = some type) :
    type.isAtom = true := by
  have atoms : ∀ p ∈ Ty.primitives, p.2.isAtom = true := by decide
  obtain ⟨_, _, same, _⟩ := lookup_eq_some_iff.mp known
  exact atoms (name, type) (same ▸ by simp)

/-- What a type name makes when it is called is an instance of the type. -/
theorem Names.calls {params : List Member} {result : Ty} (h : t.Names s type)
    (calls : type.Calls params result) : type.nominal? = some s ∧ result = type := by
  cases h with
  | primitive held kind known =>
    have atom := isAtom_of_primitive? known
    cases calls <;> cases atom
  | struct kind =>
    cases calls
    exact ⟨rfl, rfl⟩
  | object kind same =>
    cases calls
    exact ⟨congrArg some same, rfl⟩

theorem Names.nominal {n : SymbolId} (h : t.Names s type) (nominal : type.nominal? = some n) :
    n = s := by
  cases h with
  | primitive held kind known =>
    have atom := isAtom_of_primitive? known
    cases type <;> cases atom <;> cases nominal
  | struct kind => exact (Option.some.inj nominal).symm
  | object kind same => exact (Option.some.inj nominal).symm.trans same

/-- A symbol whose type is a struct or class is that struct or class, or holds an instance. -/
theorem Gives.nominal {n : SymbolId} (h : t.Gives s type) (nominal : type.nominal? = some n) :
    s = n ∧ t.Names n type ∨ t.hasKind (fun kind => kind.isVar || kind.isField) s = true := by
  cases h with
  | named isType names =>
    obtain rfl := names.nominal nominal
    exact .inl ⟨rfl, names⟩
  | callable callable => cases nominal
  | held storage => exact .inr storage

theorem not_storage_of_isType (isType : t.hasKind (·.isType) s = true) :
    t.hasKind (fun kind => kind.isVar || kind.isField) s = false := by
  obtain ⟨symbol, held, kind⟩ := hasKind_iff.mp isType
  rw [hasKind, kind?, held]
  cases hk : symbol.kind <;>
    simp [hk, SymbolKind.isType, SymbolKind.isVar, SymbolKind.isField] at kind ⊢

theorem not_callable_of_isType (isType : t.hasKind (·.isType) s = true) :
    t.hasKind (·.isCallable) s = false := by
  obtain ⟨symbol, held, kind⟩ := hasKind_iff.mp isType
  rw [hasKind, kind?, held]
  cases hk : symbol.kind <;> simp [hk, SymbolKind.isType, SymbolKind.isCallable] at kind ⊢

theorem Gives.names (h : t.Gives s type) (isType : t.hasKind (·.isType) s = true) : t.Names s type := by
  cases h with
  | named isType names => exact names
  | callable callable => simp [not_callable_of_isType isType] at callable
  | held storage => simp [not_storage_of_isType isType] at storage

end SymbolTable

namespace Typing

variable {given : Typing} {unit : CompilationUnit}

/-- Calls and type names in a unit, by the types of the callees and by what the names stand for. -/
structure CallsByType (given : Typing) (unit : CompilationUnit) : Prop where
  typed : ∀ {near tag callee args}, unit.HasExpr near (.call tag callee args) →
    ∃ called, given.HasType callee.id called
  /-- What has a struct or class type makes instances of it from its fields. -/
  makes : ∀ {near tag callee args called s}, unit.HasExpr near (.call tag callee args) →
    given.HasType callee.id called → called.nominal? = some s →
    given.HasType tag.id called ∧ ∃ fields, called.Calls fields called ∧ given.Accepts fields args
  /-- Whatever else is called has a function type. -/
  functions : ∀ {near tag callee args called}, unit.HasExpr near (.call tag callee args) →
    given.HasType callee.id called → called.nominal? = none →
    ∃ params result, called = .function params result ∧ given.HasType tag.id result ∧
      given.Accepts params args
  /-- A name that makes instances is that of the very struct or class, or holds an instance. -/
  callees : ∀ {near tag ref name args called s},
    unit.HasExpr near (.call tag (.reference ref name) args) → given.HasType ref.id called →
    called.nominal? = some s →
    given.Means ref.id s ∧ given.table.Names s called ∨
      ∃ v, given.Means ref.id v ∧ given.HasType v called ∧
        given.table.hasKind (fun kind => kind.isVar || kind.isField) v = true
  /-- A type name is an expression of the type that it names. -/
  names : ∀ {near tag name s}, unit.HasExpr near (.reference tag name) → given.Means tag.id s →
    given.table.hasKind (·.isType) s = true →
    ∃ type, given.table.Names s type ∧ given.HasType s type ∧ given.HasType tag.id type
  /-- A type name that is called is that of a struct or class and makes its instances. -/
  constructors : ∀ {near tag ref name args s},
    unit.HasExpr near (.call tag (.reference ref name) args) → given.Means ref.id s →
    given.table.hasKind (·.isType) s = true →
    ∃ type, given.table.Names s type ∧ type.nominal? = some s ∧ given.HasType tag.id type
  /-- Nothing is assigned to a type name. -/
  targets : ∀ {near tag ref name value s},
    unit.HasExpr near (.assign tag (.reference ref name) value) → given.Means ref.id s →
    given.table.hasKind (·.isType) s = false

theorem HasType.unique {owner : Owner} {type type' : Ty} (h : given.HasType owner type)
    (h' : given.HasType owner type') : type = type' := Option.some.inj (h.symm.trans h')

theorem WellTyped.call {near : Surroundings} {tag : Tag} {callee : Expr} {args : List Expr}
    {called : Ty} (h : given.WellTyped unit) (has : unit.HasExpr near (.call tag callee args))
    (typed : given.HasType callee.id called) : ∃ params type, called.Calls params type ∧
      given.HasType tag.id type ∧ given.Accepts params args := by
  obtain ⟨type, hasType, rule⟩ := h.exprs has
  cases rule with
  | call typed' calls accepts =>
    obtain rfl := typed.unique typed'
    exact ⟨_, type, calls, hasType, accepts⟩

theorem WellTyped.reference {near : Surroundings} {tag : Tag} {name : String}
    (h : given.WellTyped unit) (has : unit.HasExpr near (.reference tag name)) :
    ∃ s type, given.Means tag.id s ∧ given.HasType s type ∧ given.HasType tag.id type := by
  obtain ⟨type, hasType, rule⟩ := h.exprs has
  cases rule with
  | reference means typed => exact ⟨_, type, means, typed, hasType⟩

/-- In a well typed unit calls go by types, if the types of symbols are of the forms that go with what
the symbols are. -/
theorem WellTyped.callsByType (h : given.WellTyped unit)
    (gives : ∀ {n s type}, given.Means n s → given.HasType s type → given.table.Gives s type) :
    given.CallsByType unit where
  typed has := by
    obtain ⟨type, _, rule⟩ := h.exprs has
    cases rule with
    | call typed _ _ => exact ⟨_, typed⟩
  makes has typed nominal := by
    obtain ⟨params, type, calls, hasType, accepts⟩ := h.call has typed
    cases calls with
    | function => cases nominal
    | struct => exact ⟨hasType, _, .struct, accepts⟩
    | object => exact ⟨hasType, _, .object, accepts⟩
  functions has typed nominal := by
    obtain ⟨params, type, calls, hasType, accepts⟩ := h.call has typed
    cases calls with
    | function => exact ⟨params, type, rfl, hasType, accepts⟩
    | struct => cases nominal
    | object => cases nominal
  callees has typed nominal := by
    obtain ⟨v, type, means, typedSymbol, typed'⟩ := h.reference (has.operand (.head _))
    obtain rfl := typed.unique typed'
    rcases (gives means typedSymbol).nominal nominal with ⟨rfl, names⟩ | storage
    · exact .inl ⟨means, names⟩
    · exact .inr ⟨v, means, typedSymbol, storage⟩
  names has means isType := by
    obtain ⟨v, type, means', typedSymbol, typed⟩ := h.reference has
    obtain rfl := Option.some.inj (means.symm.trans means')
    exact ⟨type, (gives means typedSymbol).names isType, typedSymbol, typed⟩
  constructors has means isType := by
    obtain ⟨v, called, means', typedSymbol, typed⟩ := h.reference (has.operand (.head _))
    obtain rfl := Option.some.inj (means.symm.trans means')
    have names := (gives means typedSymbol).names isType
    obtain ⟨params, type, calls, hasType, _⟩ := h.call has typed
    obtain ⟨nominal, rfl⟩ := names.calls calls
    exact ⟨type, names, nominal, hasType⟩
  targets has means := by
    obtain ⟨type, hasType, rule⟩ := h.exprs has
    cases rule with
    | assign isTarget typedTarget typedValue fills =>
      cases isTarget with
      | reference means' storage =>
        obtain rfl := Option.some.inj (means.symm.trans means')
        by_contra isType
        rw [Bool.not_eq_false] at isType
        rw [not_storage_of_isType isType] at storage
        cases storage

end Typing

namespace Analysis

variable {unit : CompilationUnit} {a₁ a₂ : Analysis} {s : SymbolId} {type : Ty}

open Names

/-- Primitive types are builtin, and have the types that they are known by. -/
theorem Typed.primitive? (h : Typed unit a₁ a₂) {symbol : Symbol}
    (held : (table unit).symbol? s = some symbol) (kind : symbol.kind = .primitiveType)
    (typed : a₂.typing.HasType s type) : Ty.primitive? symbol.name = some type := by
  have known : ∀ p ∈ builtinTypes, ∀ symbol ∈ initial.symbol? p.1,
      symbol.kind = .primitiveType →
        (Ty.primitive? symbol.name).any (fun type => p.2.isAtom && type.same p.2) = true := by
    decide
  rcases hasSymbol_cases (hasSymbol_of_symbol? held) with builtin | ⟨part, declared⟩
  · obtain ⟨type', listed⟩ := mem_builtinTypes builtin
    have same : type' = type := by
      have kept := h.passed.keeps.get? (h.named.types _ listed)
      exact Value.type.inj (Option.some.inj (kept.symm.trans (hasType_iff.mp typed)))
    obtain ⟨symbol', held'⟩ := Option.isSome_iff_exists.mp builtin
    obtain rfl := Option.some.inj (((table_grows unit).symbol? held').symm.trans held)
    obtain ⟨type'', found, atom⟩ := (Option.any_eq_true _ _).mp (known _ listed _ held' kind)
    rw [Bool.and_eq_true] at atom
    rw [found, (Ty.same_atom atom.1).mp atom.2, same]
  · obtain ⟨_, held', declares⟩ := hasKind_iff.mp (hasKind_of_mem_declarations declared)
    obtain rfl := Option.some.inj (held.symm.trans held')
    rw [kind] at declares
    cases part <;> cases declares

/-- The type of a symbol is of the form that goes with what the symbol is. -/
theorem Typed.gives (h : Typed unit a₁ a₂) {n : NodeId} (means : a₂.typing.Means n s)
    (typed : a₂.typing.HasType s type) : (table unit).Gives s type := by
  have bound : Fits (table unit) _ _ := h.settled.healthy.holds (means_iff.mp means)
  obtain ⟨_, same, present⟩ := bound.symbol rfl
  cases same
  obtain ⟨symbol, held⟩ := Option.isSome_iff_exists.mp present
  have fits : Fits (table unit) _ _ := h.settled.healthy.holds (hasType_iff.mp typed)
  have describes := fits.2.2 s rfl
  have kind? : (table unit).kind? s = some symbol.kind := by rw [kind?, held]; rfl
  have hasKind : ∀ wanted, wanted symbol.kind = true → (table unit).hasKind wanted s = true :=
    fun wanted yes => hasKind_iff.mpr ⟨symbol, held, yes⟩
  rw [SymbolTable.Describes, kind?] at describes
  cases hk : symbol.kind with
  | primitiveType =>
    have names : (table unit).Names s type := .primitive held hk (h.primitive? held hk typed)
    exact .named (hasKind _ (by rw [hk]; rfl)) names
  | var => exact .held (hasKind _ (by rw [hk]; rfl))
  | field => exact .held (hasKind _ (by rw [hk]; rfl))
  | function members =>
    rw [hk] at describes
    obtain ⟨params, result, rfl⟩ := describes
    exact .callable (hasKind _ (by rw [hk]; rfl))
  | method members =>
    rw [hk] at describes
    obtain ⟨params, result, rfl⟩ := describes
    exact .callable (hasKind _ (by rw [hk]; rfl))
  | structType members =>
    rw [hk] at describes kind?
    obtain ⟨name, fields, rfl⟩ := describes
    exact .named (hasKind _ (by rw [hk]; rfl)) (.struct kind?)
  | classType members superclass =>
    rw [hk] at describes kind?
    obtain ⟨own, supers, rfl, same⟩ := describes
    exact .named (hasKind _ (by rw [hk]; rfl)) (.object kind? same)

end Analysis

/-- In an accepted unit, whether a call makes an instance depends on the type of what is called, and
the name of a type is an expression of that type. -/
theorem calls_go_by_types (unit : CompilationUnit) (a : Analysis) (h : analyze unit = .ok a) :
    a.typing.CallsByType unit := by
  obtain ⟨a₁, a₂, a₃, a₄, stage⟩ := accepted_of_analyze h
  have typed := stage.checked.known.typed
  rw [stage.typing_eq]
  refine stage.checked.wellTyped.callsByType fun means hasType => ?_
  rw [typed.typing_table]
  exact typed.gives means hasType

/-- An instance, the name of a struct and a constructor: the first and the last are called, the second
is passed on. -/
def overused : CompilationUnit :=
  (Parser.ofText ("struct P \x7b x: Int \x7d fun f(p: P) -> Unit " ++
    "\x7b p(1); f(P); P(1); \x7d").toList).unit

theorem calls_go_by_types_overused :
    ∃ a, analyze overused = .ok a ∧ a.typing.CallsByType overused := by
  obtain ⟨a, accepted⟩ : ∃ a, analyze overused = .ok a := exists_of_isOk (by decide +kernel)
  exact ⟨a, accepted, calls_go_by_types overused a accepted⟩

/-- The node of the name that a part calls. -/
def Part.calledName? : Part → Option NodeId
  | .expr (.call _ (.reference tag _) _) _ => some tag.id
  | _ => none

/-- The node of a part that is a name. -/
def Part.nameNode? : Part → Option NodeId
  | .expr (.reference tag _) _ => some tag.id
  | _ => none

theorem exists_of_calledName? (unit : CompilationUnit) (n : NodeId)
    (h : unit.entered.any (·.calledName? == some n) = true) :
    ∃ near tag ref name args, unit.HasExpr near (.call tag (.reference ref name) args) ∧
      ref.id = n := by
  obtain ⟨part, entered, found⟩ := any_eq_true.mp h
  rw [beq_iff_eq] at found
  unfold Part.calledName? at found
  split at found
  · obtain ⟨⟨near, has⟩, _⟩ := CompilationUnit.stands_of_entered entered
    exact ⟨near, _, _, _, _, has, Option.some.inj found⟩
  · cases found

theorem exists_of_nameNode? (unit : CompilationUnit) (n : NodeId)
    (h : unit.entered.any (·.nameNode? == some n) = true) :
    ∃ near ref name, unit.HasExpr near (.reference ref name) ∧ ref.id = n := by
  obtain ⟨part, entered, found⟩ := any_eq_true.mp h
  rw [beq_iff_eq] at found
  unfold Part.nameNode? at found
  split at found
  · obtain ⟨⟨near, has⟩, _⟩ := CompilationUnit.stands_of_entered entered
    exact ⟨near, _, _, has, Option.some.inj found⟩
  · cases found

/-- An accepted unit calls an instance, and uses the name of a struct that it does not call. -/
theorem instance_called_and_type_name_used : ∃ a, analyze overused = .ok a ∧
    (∃ near tag ref name args called s,
      overused.HasExpr near (.call tag (.reference ref name) args) ∧
        a.typing.HasType ref.id called ∧ called.nominal? = some s ∧ ¬a.typing.Means ref.id s) ∧
    ∃ near ref name s, overused.HasExpr near (.reference ref name) ∧
      a.typing.Means ref.id s ∧ a.typing.table.hasKind (·.isType) s = true ∧
        ∀ near' tag args, ¬overused.HasExpr near' (.call tag (.reference ref name) args) := by
  have found : (analyze overused).toOption.any (fun a =>
      (a.typeOf? (.node ⟨6⟩)).any (·.nominal? == some ⟨15⟩) && a.symbolOf? ⟨6⟩ == some ⟨18⟩ &&
        a.symbolOf? ⟨11⟩ == some ⟨15⟩ && a.symbols.hasKind (·.isType) ⟨15⟩) = true := by
    decide +kernel
  have uncalled : overused.entered.all (·.calledName? != some ⟨11⟩) = true := by decide +kernel
  obtain ⟨near, tag, callee, name, args, called, node⟩ :=
    exists_of_calledName? overused ⟨6⟩ (by decide +kernel)
  obtain ⟨near', passed, name', used, node'⟩ :=
    exists_of_nameNode? overused ⟨11⟩ (by decide +kernel)
  cases accepted : analyze overused with
  | error e => simp [accepted, Except.toOption] at found
  | ok a =>
    rw [accepted, Except.toOption, Option.any_some] at found
    simp only [Bool.and_eq_true, beq_iff_eq] at found
    obtain ⟨⟨⟨typed, holds⟩, names⟩, isType⟩ := found
    obtain ⟨type, hasType, nominal⟩ := (Option.any_eq_true _ _).mp typed
    refine ⟨a, rfl, ⟨near, tag, callee, name, args, type, ⟨15⟩, called, node ▸ hasType,
      beq_iff_eq.mp nominal, fun means => ?_⟩, near', passed, name', ⟨15⟩, used, node' ▸ names, isType,
      fun near'' tag' args' has => ?_⟩
    · cases holds.symm.trans (node ▸ means)
    · obtain ⟨expected, entered⟩ := has.entered
      have other := all_eq_true.mp uncalled _ entered
      simp [Part.calledName?, node'] at other

end BlFront
