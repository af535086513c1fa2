import BlFront.Proofs.Analysis.Flows

/-!
# Nothing stays open

Nothing is left without a type unless the pass over missing types says so.  A unit that is accepted
has all its names bound and all its types known.
-/

namespace BlFront

open List CompilationUnit Reactor

variable {attr : Attribute} {n : NodeId} {r : Reactor} {s : SymbolId}

open Names

namespace Analysis

variable {a : Analysis}

theorem exists_typeOf? {t : SymbolTable} (settled : a.reactor.Settled (outlook t)) {owner : Owner} :
    (∃ type, a.typeOf? owner = some type) ↔ Valued a.reactor (typeOf owner) := by
  constructor
  · rintro ⟨type, typed⟩
    exact ⟨_, getAs?_type.mp typed⟩
  · rintro ⟨v, hv⟩
    obtain ⟨type, rfl, _⟩ := (settled.healthy.holds hv).type rfl
    exact ⟨type, getAs?_type.mpr hv⟩

end Analysis

/-! ### Everything is bound and typed -/

/-- The nodes that stand for a symbol. -/
inductive CompilationUnit.NeedsSymbol (unit : CompilationUnit) : NodeId → Prop
  | function {near : Surroundings} {decl : FunctionDecl} (h : unit.HasStmt near (.funDecl decl)) :
      NeedsSymbol unit decl.tag.id
  | struct {near : Surroundings} {decl : StructDecl} (h : unit.HasStmt near (.structDecl decl)) :
      NeedsSymbol unit decl.tag.id
  | class_ {near : Surroundings} {decl : ClassDecl} (h : unit.HasStmt near (.classDecl decl)) :
      NeedsSymbol unit decl.tag.id
  | var {near : Surroundings} {decl : VarDecl} (h : unit.HasStmt near (.varDecl decl)) :
      NeedsSymbol unit decl.tag.id
  | param {p : TypedName} (h : unit.HasParam p) : NeedsSymbol unit p.tag.id
  | field {f : TypedName} (h : unit.HasField f) : NeedsSymbol unit f.tag.id
  | reference {near : Surroundings} {tag : Tag} {name : String}
      (h : unit.HasExpr near (.reference tag name)) : NeedsSymbol unit tag.id
  | named {tag : Tag} {name : String} (h : unit.HasTypeExpr (.named tag name)) :
      NeedsSymbol unit tag.id
  | methodCall {near : Surroundings} {tag : Tag} {receiver : Expr} {method : String}
      {args : List Expr} (h : unit.HasExpr near (.methodCall tag receiver method args)) :
      NeedsSymbol unit tag.id

namespace Analysis

structure FullyTyped (unit : CompilationUnit) (a : Analysis) : Prop where
  exprs : ∀ {near e}, unit.HasExpr near e → ∃ type, a.typeOf? e.id = some type
  types : ∀ {written}, unit.HasTypeExpr written → ∃ type, a.typeOf? written.id = some type
  symbols : ∀ {s}, a.symbols.hasSymbol s = true → ∃ type, a.typeOf? (.symbol s) = some type

/-- Everything is bound and typed, and nothing has failed. -/
structure Complete (unit : CompilationUnit) (a : Analysis) : Prop where
  scopes : ∀ {n}, unit.HasNode n → ∃ scope, a.scopeOf? n = some scope
  symbols : ∀ {n}, unit.NeedsSymbol n → ∃ symbol, a.symbolOf? n = some symbol
  functions : ∀ {near tag value}, unit.HasStmt near (.returnStmt tag value) →
    ∃ symbol, a.get? tag.id .containingFunction = some (.symbol symbol)
  classes : ∀ {near tag}, unit.HasExpr near (.selfRef tag) →
    ∃ symbol, a.get? tag.id .containingClass = some (.symbol symbol)
  typed : a.FullyTyped unit
  flows : ∀ {near s}, unit.HasStmt near s → s.contributes = true →
    ∃ flow, a.get? s.id .returnType = some (.flow flow)
  flags : ∀ {near s}, unit.HasStmt near s → s.contributes = true →
    ∃ flag, a.get? s.id .returns = some (.flag flag)
  errorFree : ∀ attr, a.reactor.errorOf? attr = none

variable {unit : CompilationUnit} {a₁ a₂ a₃ a₄ a₅ : Analysis}

theorem Typed.symbol_present (h : Typed unit a₁ a₂)
    (bound : a₂.reactor.get? (AttrName.symbol.of n) = some (.symbol s)) :
    a₂.symbols.hasSymbol (symbolAt a₂.reactor n) = true := by
  have fits : Fits (table unit) (AttrName.symbol.of n) (.symbol s) := h.settled.healthy.holds bound
  obtain ⟨id, same, present⟩ := fits.symbol rfl
  cases same
  rw [Names.symbolAt_eq bound, h.symbols_eq]
  exact present

theorem Known.fullyTyped (h : Known unit a₁ a₂ a₃) : a₂.FullyTyped unit := by
  refine ⟨fun has => ?_, fun has => ?_, fun present => ?_⟩
  · obtain ⟨expected, entered⟩ := has.entered
    exact ⟨_, h.expr_typed entered⟩
  · exact ⟨_, h.type_typed has.entered⟩
  · rw [h.typed.symbols_eq] at present
    exact ⟨_, h.symbol_typed present⟩

theorem FullyTyped.inspected (typed : a₂.FullyTyped unit) (h : Typed unit a₁ a₂) :
    Inspected unit a₂.reactor := by
  intro part entered owner wanted
  have stands := stands_of_entered entered
  have declared : isDeclaration part = true → ∀ n, part.id? = some n →
      Valued a₂.reactor (typeOf (symbolAt a₂.reactor n)) := fun declares n node =>
    (exists_typeOf? h.settled).mp
      (typed.symbols (h.symbol_present (h.bindings.symbolAt entered declares node).2))
  have named : ∀ tag name, named? part = some (tag, name) →
      Valued a₂.reactor (typeOf (symbolAt a₂.reactor tag.id)) := fun tag name named =>
    (exists_typeOf? h.settled).mp
      (typed.symbols (h.symbol_present (h.bindings.symbolAt_named entered named)))
  cases part with
  | function decl => exact mem_singleton.mp wanted ▸ declared rfl _ rfl
  | structDecl decl => exact mem_singleton.mp wanted ▸ declared rfl _ rfl
  | classDecl decl => exact mem_singleton.mp wanted ▸ declared rfl _ rfl
  | varDecl decl => exact mem_singleton.mp wanted ▸ declared rfl _ rfl
  | expr e expected =>
    obtain ⟨⟨near, has⟩, _⟩ := stands
    have node := (exists_typeOf? h.settled).mp (typed.exprs has)
    cases e with
    | reference tag name =>
      rcases mem_pair.mp wanted with rfl | rfl
      · exact named tag name rfl
      · exact node
    | array tag elements => exact mem_singleton.mp wanted ▸ node
    | _ => cases wanted
  | type written =>
    have node := (exists_typeOf? h.settled).mp (typed.types stands)
    cases written with
    | named tag name =>
      rcases mem_pair.mp wanted with rfl | rfl
      · exact named tag name rfl
      · exact node
    | array tag element => cases wanted
  | _ => cases wanted

theorem Accepted.needsSymbol (h : Accepted unit a₁ a₂ a₃ a₄ a₅) (needs : unit.NeedsSymbol n) :
    Valued a₅.reactor (AttrName.symbol.of n) := by
  have declared : ∀ {part : Part}, part ∈ unit.entered → isDeclaration part = true →
      part.id? = some n → Valued a₅.reactor (AttrName.symbol.of n) := fun entered declares node =>
    ⟨_, (h.bindings.symbolAt entered declares node).2⟩
  have named : ∀ {part : Part} {tag name}, part ∈ unit.entered → named? part = some (tag, name) →
      Valued a₅.reactor (AttrName.symbol.of tag.id) := fun entered named =>
    ⟨_, h.bindings.symbolAt_named entered named⟩
  cases needs with
  | function has => exact declared has.entered rfl rfl
  | struct has => exact declared has.entered rfl rfl
  | class_ has => exact declared has.entered rfl rfl
  | var has => exact declared has.entered rfl rfl
  | param has => exact declared has.entered rfl rfl
  | field has => exact declared has.entered rfl rfl
  | reference has =>
    obtain ⟨expected, entered⟩ := has.entered
    exact named entered rfl
  | named has => exact named has.entered rfl
  | methodCall has =>
    obtain ⟨expected, entered⟩ := has.entered
    obtain ⟨v, bound⟩ := h.checked.known.method_bound entered
      (h.checked.known.expr_typed (operand_entered entered (.head _))).valued
    exact ⟨v, h.keeps.get? bound⟩

theorem Accepted.complete (h : Accepted unit a₁ a₂ a₃ a₄ a₅) : a₅.Complete unit where
  scopes needs := by
    rcases CompilationUnit.HasNode.mem_ids needs with rfl | ⟨part, entered, node⟩
    · obtain ⟨id, placed⟩ := h.bindings.unit_scope
      exact ⟨id, getAs?_scope.mpr placed⟩
    · obtain ⟨id, placed⟩ := h.bindings.scope part entered _ node
      exact ⟨id, getAs?_scope.mpr placed⟩
  symbols needs := by
    obtain ⟨v, hv⟩ := h.needsSymbol needs
    have fits : Fits (table unit) _ v := h.settled.healthy.holds hv
    obtain ⟨id, rfl, _⟩ := fits.symbol rfl
    exact ⟨id, getAs?_symbol.mpr hv⟩
  functions has := by
    obtain ⟨around, site⟩ := exists_site has.entered
    obtain ⟨_, s, _, _, inside⟩ := h.bindings.inFunction site
    exact ⟨s, inside⟩
  classes has := by
    obtain ⟨_, _, _, site⟩ := has.site
    obtain ⟨_, s, _, _, inside⟩ := h.bindings.inClass site
    exact ⟨s, inside⟩
  typed := by
    have typed := h.checked.known.fullyTyped
    have keeps : ∀ {owner}, (∃ type, a₂.typeOf? owner = some type) →
        ∃ type, a₅.typeOf? owner = some type := by
      rintro owner ⟨type, found⟩
      exact ⟨type, getAs?_type.mpr (h.keeps.get? (getAs?_type.mp found))⟩
    refine ⟨fun has => keeps (typed.exprs has), fun has => keeps (typed.types has), fun present => ?_⟩
    rw [h.symbols_eq, ← h.checked.known.typed.symbols_eq] at present
    exact keeps (typed.symbols present)
  flows has contributes := by
    obtain ⟨flow, found, _⟩ := h.checked.known.flow contributes has.entered
    exact ⟨flow, h.keeps.get? found⟩
  flags has contributes := by
    obtain ⟨flag, found, _⟩ := h.checked.flag_iff h.ran contributes has.entered
    exact ⟨flag, found⟩
  errorFree := h.settled.errorOf? h.clean

end Analysis

/-- Missing types are reported exactly if some expression, type or symbol has no type.  A unit that
is accepted has all its names bound and all its types known. -/
theorem analyze_leaves_nothing_open (unit : CompilationUnit) :
    (∀ a, analyzeUntil unit .resolveTypes = .ok a →
      ((∃ b, analyzeUntil unit .checkInferred = .ok b) ↔ a.FullyTyped unit)) ∧
    ∀ a, analyze unit = .ok a → a.Complete unit := by
  constructor
  · intro a typed
    obtain ⟨_, a₁, stage⟩ := typed_of_analyzeUntil typed
    rw [analyzeUntil_eq .resolveTypes rfl, typed]
    constructor
    · rintro ⟨b, step⟩
      obtain ⟨ran, clean⟩ := stage.ready.ran_of_step step
      exact Analysis.Known.fullyTyped ⟨stage, ran, clean⟩
    · exact fun full => stage.checkInferred_iff.mpr (full.inspected stage)
  · intro a accepted
    obtain ⟨a₁, a₂, a₃, a₄, stage⟩ := accepted_of_analyze accepted
    exact stage.complete

/-- A function whose return type depends on itself. -/
def endless : CompilationUnit := (Parser.ofText "fun f() \x7b return f(); \x7d".toList).unit

theorem sample_accepted : ∃ a, analyze sample = .ok a := exists_of_isOk (by decide +kernel)

theorem analyze_leaves_nothing_open_sample :
    (∃ a, analyze sample = .ok a ∧ a.Complete sample) ∧
      ∃ a, analyzeUntil endless .resolveTypes = .ok a ∧ ¬a.FullyTyped endless := by
  obtain ⟨a, accepted⟩ := sample_accepted
  obtain ⟨b, typed⟩ : ∃ b, analyzeUntil endless .resolveTypes = .ok b :=
    exists_of_isOk (by decide +kernel)
  have refused : (analyzeUntil endless .checkInferred).isOk = false := by decide +kernel
  refine ⟨⟨a, accepted, (analyze_leaves_nothing_open sample).2 a accepted⟩, b, typed, fun full => ?_⟩
  obtain ⟨c, known⟩ := ((analyze_leaves_nothing_open endless).1 b typed).mpr full
  rw [known] at refused
  cases refused

end BlFront
