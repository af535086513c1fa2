import BlFront.Proofs.Analysis.Resolving
import BlFront.Proofs.Syntax.Reading.Unit

/-!
# Names are scoped lexically

After the pass over names, each name is bound to a declaration around it: to the latest one before it
in the innermost region that has one, or else to what it means in the complete table, which is then
no variable.  Where the unit was parsed, a name that is bound to a variable stands behind it.  One error
is reported for each node at fault, and the unit is rejected if there is one.
-/

namespace BlFront

open List

variable {d : Declaration} {part : Part} {name : String}

open Names

namespace Names

variable {unit : CompilationUnit} {before after : List Visit}

/-- A place in a unit where a name is used. -/
structure Uses (unit : CompilationUnit) (before : List Visit) (part : Part) (tag : Tag)
    (name : String) : Prop where
  entered : ∃ after, unit.tour = before ++ .enter part :: after
  named : named? part = some (tag, name)

/-- How a name is bound to a declaration: the declaration is in a scope around the place, and it is
the nearest one among those made before or, if there is none, the one that the complete table has. -/
structure Binds (unit : CompilationUnit) (a : Analysis) (before : List Visit) (tag : Tag)
    (name : String) (d : Declaration) : Prop where
  bound : a.reactor.get? (AttrName.symbol.of tag.id) = some (.symbol d.symbol)
  declared : d ∈ declaredBy unit.tour
  visible : ∃ symbol scope scopes, a.symbols.symbol? d.symbol = some symbol ∧ symbol.name = name ∧
    a.reactor.get? (AttrName.scope.of tag.id) = some (.scope scope) ∧
    a.symbols.Chain scope scopes ∧ symbol.scope ∈ scopes ∧
    (nearest? (declaredBy before) (regionsOf (openAfter before)) name = some d ∨
      nearest? (declaredBy before) (regionsOf (openAfter before)) name = none ∧
        a.symbols.lookup? scope name = some d.symbol ∧
        a.symbols.hasKind (·.isVar) d.symbol = false)

/-- The scopes and symbols of a unit are those of its regions and declarations. -/
structure Mirrors (unit : CompilationUnit) (a : Analysis) : Prop where
  apart : ∀ r ∈ regionsIn unit, ∀ r' ∈ regionsIn unit,
    (places unit).scope r = (places unit).scope r' → r = r'
  placed : ∀ before part after, unit.tour = before ++ .enter part :: after →
    ∀ n : NodeId, part.id? = some n → a.reactor.get? (AttrName.scope.of n) =
      some (.scope ((places unit).scope (regionOf (openAfter before)))) ∧
    a.symbols.Chain ((places unit).scope (regionOf (openAfter before)))
      ((regionsOf (openAfter before)).map (places unit).scope)
  declared : ∀ d ∈ declaredBy unit.tour, ∃ symbol, a.symbols.symbol? d.symbol = some symbol ∧
    d.Describes (places unit) symbol ∧ ∀ part, d.origin = some part →
      a.reactor.get? (AttrName.symbol.of part.node) = some (.symbol d.symbol)

/-- The root errors of a unit: one for each node at fault. -/
structure Reports (unit : CompilationUnit) (errors : List SemanticError)
    (faults : List (Part × SemanticError)) : Prop where
  once : (faults.map (·.1.node)).Nodup
  exact : ∀ part e, (part, e) ∈ faults ↔ ∃ before after,
    unit.tour = before ++ .enter part :: after ∧ Fault unit before part e
  errors : errors.Perm (faults.map Prod.snd)

theorem Reports.rejects_iff {errors : List SemanticError} {faults : List (Part × SemanticError)}
    (h : Reports unit errors faults) : errors ≠ [] ↔ ∃ before part after e,
      unit.tour = before ++ .enter part :: after ∧ Fault unit before part e := by
  have empty : errors = [] ↔ faults = [] := by
    rw [← length_eq_zero_iff, h.errors.length_eq, length_map, length_eq_zero_iff]
  rw [Ne, empty]
  constructor
  · intro some
    obtain ⟨⟨part, e⟩, mem⟩ := exists_mem_of_ne_nil faults some
    obtain ⟨before, after, split, fault⟩ := (h.exact part e).mp mem
    exact ⟨before, part, after, e, split, fault⟩
  · rintro ⟨before, part, after, e, split, fault⟩
    exact ne_nil_of_mem ((h.exact part e).mpr ⟨before, after, split, fault⟩)

/-! ### Declarations and their nodes -/

/-- Declarations are numbered in the order of the tour. -/
theorem declarations_eq (unit : CompilationUnit) : declarations unit =
    ((declaredFrom [] unit.tour).zipIdx SymbolTable.initial.symbols.length).map
      fun e => (e.1.1, ⟨e.2⟩) := by
  rw [declarations, declarationsFrom, ← map_fst_pickedFrom Visit.declaring? [] unit.tour,
    zipIdx_map, map_map]
  rfl

theorem mem_declarations_of_mem_zipIdx {e : (Part × List Part) × Nat}
    (mem : e ∈ (declaredFrom [] unit.tour).zipIdx SymbolTable.initial.symbols.length) :
    (e.1.1, ⟨e.2⟩) ∈ declarations unit := by
  rw [declarations_eq]
  exact mem_map.mpr ⟨e, mem, rfl⟩

theorem node_bound {r r' : Reactor}
    (passed : Reactor.Passed (table unit) (plan unit .initial).2 r r')
    (mem : d ∈ declaredBy unit.tour) (origin : d.origin = some part) :
    r'.get? (AttrName.symbol.of part.node) = some (.symbol d.symbol) := by
  rcases mem_declaredBy.mp mem with builtin | ⟨e, he, rfl⟩
  · obtain ⟨_, _, rfl⟩ := mem_map.mp builtin
    cases origin
  · cases origin
    obtain ⟨n, node, bound, _⟩ := (walk_run unit).declared _ (mem_declarations_of_mem_zipIdx he)
    have same : n = e.1.1.node := by
      rw [Part.node, node]
      rfl
    exact same ▸ passed.seeded (mem_append_left _ bound)

/-- A variable is declared when it is left. -/
theorem eq_leave_of_declaring? {v : Visit} (declaring : v.declaring? = some part)
    (isVariable : part.isVariable = true) : v = .leave part := by
  rcases (declaring?_eq_some declaring).2 with rfl | rfl
  · cases part <;> cases declaring <;> cases isVariable
  · rfl

theorem leave_mem_of_isVar (mem : d ∈ declaredBy before) (isVar : d.isVar = true) :
    ∃ part, d.origin = some part ∧ .leave part ∈ before ∧ part.isVariable = true := by
  rcases mem_declaredBy.mp mem with builtin | ⟨e, he, rfl⟩
  · obtain ⟨_, _, rfl⟩ := mem_map.mp builtin
    cases isVar
  · obtain ⟨earlier, v, later, rfl, declaring, _⟩ := mem_pickedFrom (mem_zipIdx_declaredFrom he)
    have isVariable : e.1.1.isVariable = true := isVar
    rw [eq_leave_of_declaring? declaring isVariable]
    exact ⟨e.1.1, rfl, mem_append_right _ (.head _), isVariable⟩

/-! ### Bindings -/

theorem meaning?_eq_some (means : meaning? unit before name = some d) :
    nearest? (declaredBy before) (regionsOf (openAfter before)) name = some d ∨
      nearest? (declaredBy before) (regionsOf (openAfter before)) name = none ∧
        nearest? (declaredBy unit.tour) (regionsOf (openAfter before)) name = some d ∧
        d.isVar = false := by
  rw [meaning?] at means
  cases first : nearest? (declaredBy before) (regionsOf (openAfter before)) name with
  | some d' =>
    rw [first, Option.some_or] at means
    exact .inl means
  | none =>
    rw [first, Option.none_or, Option.filter_eq_some_iff] at means
    exact .inr ⟨rfl, means.1, by simpa using means.2⟩

theorem declaredBy_subset (split : unit.tour = before ++ after) :
    declaredBy before ⊆ declaredBy unit.tour := by
  intro d mem
  rw [declaredBy] at mem ⊢
  rw [split, declaredFrom, pickedFrom_append, zipIdx_append, map_append]
  rcases mem_append.mp mem with builtin | mem
  · exact mem_append_left _ builtin
  · exact mem_append_right _ (mem_append_left _ mem)

/-- What a name means is declared around it, under that name. -/
theorem mem_of_meaning? (split : unit.tour = before ++ after)
    (means : meaning? unit before name = some d) :
    d ∈ declaredBy unit.tour ∧ d.region ∈ regionsOf (openAfter before) ∧ d.name = name := by
  rcases meaning?_eq_some means with early | ⟨_, late, _⟩
  · obtain ⟨mem, region, named⟩ := mem_of_nearest? early
    exact ⟨declaredBy_subset split mem, region, named⟩
  · exact mem_of_nearest? late

end Names

namespace Analysis

variable {unit : CompilationUnit} {a b : Analysis}

theorem Begun.passed (h : Begun unit a) (ran : Ran .resolveReferences a b) :
    Reactor.Passed (table unit) (Names.plan unit .initial).2 a.reactor b.reactor := by
  have passed := ran.passed
  rwa [ran.symbols_eq, h.plan_eq] at passed

theorem Begun.symbols_after (h : Begun unit a) (ran : Ran .resolveReferences a b) :
    b.symbols = table unit := by
  rw [ran.symbols_eq, h.plan_eq]
  rfl

theorem Begun.mirrors (h : Begun unit a) (numbered : unit.WellNumbered)
    (ran : Ran .resolveReferences a b) : Mirrors unit b where
  apart r mem r' mem' := scope_inj numbered mem mem'
  placed before part after split n node := by
    rw [h.symbols_after ran]
    exact ⟨placed_of_passed (h.passed ran) numbered split n node,
      (walkTo_chain numbered split).extend (walkTo_grows split)⟩
  declared d mem := by
    rw [h.symbols_after ran]
    obtain ⟨symbol, held, describes⟩ := describes_of_mem numbered mem
    exact ⟨symbol, held, describes, fun part origin => node_bound (h.passed ran) mem origin⟩

theorem Begun.binds (h : Begun unit a) (numbered : unit.WellNumbered)
    (ran : Ran .resolveReferences a b) {before : List Visit} {tag : Tag}
    (uses : Uses unit before part tag name) (means : meaning? unit before name = some d) :
    Binds unit b before tag name d := by
  obtain ⟨⟨after, split⟩, named⟩ := uses
  obtain ⟨mem, region, same⟩ := mem_of_meaning? split means
  obtain ⟨symbol, held, describes⟩ := describes_of_mem numbered mem
  have bound := bound_of_passed (h.passed ran) numbered split named
  have placed := (h.mirrors numbered ran).placed before part after split _ (id?_of_named? named)
  rw [means] at bound
  refine ⟨bound, mem, symbol, _, _, ?_, describes.name.trans same, placed.1, placed.2, ?_, ?_⟩
  · rw [h.symbols_after ran]
    exact held
  · rw [describes.scope]
    exact mem_map_of_mem region
  · rw [h.symbols_after ran, lookup?_table numbered split, hasKind_isVar numbered mem]
    rcases meaning?_eq_some means with early | ⟨none, late, other⟩
    · exact .inl early
    · exact .inr ⟨none, by rw [late]; rfl, other⟩

/-- A name that is bound to a variable of a parsed unit stands behind it. -/
theorem Begun.behind (h : Begun unit a) (numbered : unit.WellNumbered)
    (ran : Ran .resolveReferences a b) {source : List Char}
    (parsed : unit = (Parser.ofText source).unit) {before : List Visit} {tag : Tag}
    (uses : Uses unit before part tag name) {s : SymbolId}
    (bound : b.reactor.get? (AttrName.symbol.of tag.id) = some (.symbol s))
    (isVar : b.symbols.hasKind (·.isVar) s = true) :
    ∃ symbol span, b.symbols.symbol? s = some symbol ∧ symbol.span = some span ∧
      span.stop ≤ tag.span.start := by
  obtain ⟨⟨after, split⟩, named⟩ := uses
  rw [bound_of_passed (h.passed ran) numbered split named] at bound
  obtain ⟨d, means, same⟩ := Option.map_eq_some_iff.mp bound
  cases same
  obtain ⟨mem, _, _⟩ := mem_of_meaning? split means
  obtain ⟨symbol, held, describes⟩ := describes_of_mem numbered mem
  rw [h.symbols_after ran] at isVar ⊢
  rw [hasKind_isVar numbered mem] at isVar
  rcases meaning?_eq_some means with early | ⟨_, _, other⟩
  · obtain ⟨q, origin, left, isVariable⟩ := leave_mem_of_isVar (mem_of_nearest? early).1 isVar
    have place : part.span = tag.span := by
      cases part with
      | expr e expected =>
        cases e with
        | reference tag name => cases named; rfl
        | _ => cases named
      | type t =>
        cases t with
        | named tag name => cases named; rfl
        | array tag element => cases named
      | _ => cases named
    refine ⟨symbol, q.span, held, by rw [describes.span, origin]; rfl, ?_⟩
    rw [← place]
    rw [parsed] at split
    exact Parser.stop_le_start split left isVariable
  · rw [other] at isVar
    cases isVar

theorem Begun.reports (h : Begun unit a) (numbered : unit.WellNumbered)
    (ran : Ran .resolveReferences a b) : Reports unit b.reactor.rootErrors (faults unit) where
  once := nodup_faults numbered
  exact _ _ := mem_faults numbered
  errors := h.rootErrors_perm numbered ran

/-- After the pass over names. -/
structure Scoped (unit : CompilationUnit) (a : Analysis) : Prop where
  mirrors : Mirrors unit a
  named : ∀ before part tag name, Uses unit before part tag name →
    (∃ d, meaning? unit before name = some d ∧ Binds unit a before tag name d) ∨
      meaning? unit before name = none ∧ a.reactor.get? (AttrName.symbol.of tag.id) = none
  behind : ∀ source, unit = (Parser.ofText source).unit → ∀ before part tag name s,
    Uses unit before part tag name →
      a.reactor.get? (AttrName.symbol.of tag.id) = some (.symbol s) →
      a.symbols.hasKind (·.isVar) s = true →
      ∃ symbol span, a.symbols.symbol? s = some symbol ∧ symbol.span = some span ∧
        span.stop ≤ tag.span.start
  reports : ∃ faults, Reports unit a.reactor.rootErrors faults

theorem Begun.lexical (h : Begun unit a) (numbered : unit.WellNumbered)
    (ran : Ran .resolveReferences a b) : Scoped unit b where
  mirrors := h.mirrors numbered ran
  named before part tag name uses := by
    cases means : meaning? unit before name with
    | some d => exact .inl ⟨d, rfl, h.binds numbered ran uses means⟩
    | none =>
      obtain ⟨⟨after, split⟩, named⟩ := uses
      have bound := bound_of_passed (h.passed ran) numbered split named
      rw [means] at bound
      exact .inr ⟨rfl, bound⟩
  behind source parsed before part tag name s uses := h.behind numbered ran parsed uses
  reports := ⟨faults unit, h.reports numbered ran⟩

end Analysis

/-- Names are scoped lexically.  A unit whose nodes are numbered twice is not analyzed at all; any
other reaches the end of the pass over names, where each name is bound as its place says, and it is
rejected exactly if some node is at fault. -/
theorem names_are_lexically_scoped (unit : CompilationUnit) :
    (¬unit.WellNumbered ∧ ∃ e, analyzeUntil unit .resolveReferences = .error (.internal e)) ∨
      ∃ a, Analysis.Scoped unit a ∧
        analyzeUntil unit .resolveReferences = (if a.reactor.rootErrors.isEmpty then .ok a
          else .error (.rejected .resolveReferences a.reactor.rootErrors)) ∧
        (a.reactor.rootErrors ≠ [] ↔ ∃ before part after e,
          unit.tour = before ++ .enter part :: after ∧ Fault unit before part e) := by
  rcases analyzeUntil_names unit with failed | ⟨a₀, a, numbered, begun, ran, same⟩
  · exact .inl failed
  · exact .inr ⟨a, begun.lexical numbered ran, same, (begun.reports numbered ran).rejects_iff⟩

end BlFront
