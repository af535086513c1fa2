import BlFront.Proofs.Analysis.Naming
import BlFront.Proofs.Syntax.Nodes

/-!
# Names are bound

If the pass over names leaves no errors, every node has a scope, every declaration and every use of
a name a symbol, and every return and every `self` the nearest function or class around it.
-/

namespace BlFront.Names

open List SymbolTable CompilationUnit Reactor

variable {decl : ClassDecl} {around : List Part} {part : Part} {d : Part × SymbolId} {s : SymbolId}
  {w : Walk}

/-! ### What an accepted pass leaves -/

/-- Whether a part declares a symbol. -/
def isDeclaration : Part → Bool
  | .function _ | .param _ | .structDecl _ | .classDecl _ | .field _ | .varDecl _ => true
  | _ => false

theorem map_fst_declarations (unit : CompilationUnit) :
    (declarations unit).map Prod.fst = unit.tour.filterMap Visit.declaring? := by
  unfold declarations declarationsFrom
  simp [map_map, Function.comp_def]

variable {unit : CompilationUnit}

theorem mem_declarations (entered : part ∈ unit.entered)
    (declares : isDeclaration part = true) : ∃ s, (part, s) ∈ declarations unit := by
  have enters := mem_entered.mp entered
  have leaves := leave_mem_tour.mpr entered
  have declaring : part ∈ unit.tour.filterMap Visit.declaring? := by
    rw [mem_filterMap]
    cases part with
    | function decl => exact ⟨_, enters, rfl⟩
    | structDecl decl => exact ⟨_, enters, rfl⟩
    | classDecl decl => exact ⟨_, enters, rfl⟩
    | param decl => exact ⟨_, leaves, rfl⟩
    | field decl => exact ⟨_, leaves, rfl⟩
    | varDecl decl => exact ⟨_, leaves, rfl⟩
    | _ => cases declares
  rw [← map_fst_declarations, mem_map] at declaring
  obtain ⟨⟨_, s⟩, hd, rfl⟩ := declaring
  exact ⟨s, hd⟩

theorem declaring?_eq_some {v : Visit} (h : v.declaring? = some part) :
    isDeclaration part = true ∧ (v = .enter part ∨ v = .leave part) := by
  cases v with
  | enter q => cases q <;> cases h <;> exact ⟨rfl, .inl rfl⟩
  | leave q => cases q <;> cases h <;> exact ⟨rfl, .inr rfl⟩

theorem entered_of_mem_declarations (h : d ∈ declarations unit) :
    d.1 ∈ unit.entered ∧ isDeclaration d.1 = true := by
  have declaring : d.1 ∈ (declarations unit).map Prod.fst := mem_map_of_mem h
  rw [map_fst_declarations, mem_filterMap] at declaring
  obtain ⟨v, hv, hd⟩ := declaring
  obtain ⟨isDecl, rfl | rfl⟩ := declaring?_eq_some hd
  · exact ⟨mem_entered.mpr hv, isDecl⟩
  · exact ⟨leave_mem_tour.mp hv, isDecl⟩

theorem hasKind_of_mem_declarations (h : d ∈ declarations unit) :
    (table unit).hasKind d.1.declares d.2 = true := by
  obtain ⟨_, _, _, kind⟩ := (walk_run unit).declared d h
  exact kind

/-- Every symbol is a builtin or is declared by a part. -/
theorem hasSymbol_cases (h : (table unit).hasSymbol s = true) :
    initial.hasSymbol s = true ∨ ∃ part, (part, s) ∈ declarations unit := by
  have length : (table unit).symbols.length =
      initial.symbols.length + (declarations unit).length := (walk_run unit).length
  rw [hasSymbol_iff, length] at h
  by_cases builtin : s.index < initial.symbols.length
  · exact .inl (hasSymbol_iff.mpr builtin)
  · have index : s.index ∈ (declarations unit).map fun d => d.2.index := by
      rw [map_snd_declarations, mem_range'_1]
      omega
    obtain ⟨⟨part, s'⟩, hd, same⟩ := mem_map.mp index
    obtain rfl : s' = s := by
      cases s
      cases s'
      exact congrArg SymbolId.mk same
    exact .inr ⟨part, hd⟩

/-- The names of a unit are bound. -/
structure Bindings (unit : CompilationUnit) (r : Reactor) : Prop where
  unit_scope : ∃ id, r.get? (AttrName.scope.of unit.tag.id) = some (.scope id)
  scope : ∀ part ∈ unit.entered, ∀ n, part.id? = some n →
    ∃ id, r.get? (AttrName.scope.of n) = some (.scope id)
  declared : ∀ d ∈ declarations unit, ∀ n, d.1.id? = some n →
    r.get? (AttrName.symbol.of n) = some (.symbol d.2)
  named : ∀ part ∈ unit.entered, ∀ tag name, named? part = some (tag, name) →
    ∃ s, r.get? (AttrName.symbol.of tag.id) = some (.symbol s)
  inFunction : ∀ {tag value around}, (Part.returnStmt tag value, around) ∈ unit.sites →
    ∃ decl s, around.find? Part.isFunction = some (.function decl) ∧
      r.get? (AttrName.symbol.of decl.tag.id) = some (.symbol s) ∧
      r.get? (AttrName.containingFunction.of tag.id) = some (.symbol s)
  inClass : ∀ {tag expected around}, (Part.expr (.selfRef tag) expected, around) ∈ unit.sites →
    ∃ decl s, around.find? Part.isClass = some (.classDecl decl) ∧
      r.get? (AttrName.symbol.of decl.tag.id) = some (.symbol s) ∧
      r.get? (AttrName.containingClass.of tag.id) = some (.symbol s)

theorem Bindings.extend {r r' : Reactor} (h : Bindings unit r)
    (keeps : r.Extends r') : Bindings unit r' where
  unit_scope := by
    obtain ⟨id, hid⟩ := h.unit_scope
    exact ⟨id, keeps.get? hid⟩
  scope part hp n hn := by
    obtain ⟨id, hid⟩ := h.scope part hp n hn
    exact ⟨id, keeps.get? hid⟩
  declared d hd n hn := keeps.get? (h.declared d hd n hn)
  named part hp tag name hn := by
    obtain ⟨s, hs⟩ := h.named part hp tag name hn
    exact ⟨s, keeps.get? hs⟩
  inFunction hs := by
    obtain ⟨decl, s, found, bound, inside⟩ := h.inFunction hs
    exact ⟨decl, s, found, keeps.get? bound, keeps.get? inside⟩
  inClass hs := by
    obtain ⟨decl, s, found, bound, inside⟩ := h.inClass hs
    exact ⟨decl, s, found, keeps.get? bound, keeps.get? inside⟩

variable {unit : CompilationUnit} {r r' : Reactor} {name : String}

theorem lateMeaning_eq_ok {span : Span} {scope : ScopeId} {t : SymbolTable}
    {v : Value} (h : Walk.lateMeaning name span scope t = .ok v) : ∃ s, v = .symbol s := by
  unfold Walk.lateMeaning at h
  split at h
  · split at h <;> cases h
    exact ⟨_, rfl⟩
  · cases h

theorem picks_function : Picks (·.isCallable) Part.isFunction where
  others part hp := by cases part <;> first | rfl | cases hp
  blocks _ := rfl
  owners part kind hp hk := by
    cases part <;> cases kind <;>
      simp [Part.opens, Part.declares, Part.isFunction, SymbolKind.isCallable] at hp hk ⊢

theorem picks_class : Picks (·.isClass) Part.isClass where
  others part hp := by cases part <;> first | rfl | cases hp
  blocks _ := rfl
  owners part kind hp hk := by
    cases part <;> cases kind <;>
      simp [Part.opens, Part.declares, Part.isClass, SymbolKind.isCallable, SymbolKind.isClass] at hp hk ⊢

/-- The nearest owner around a scope, as the tour finds it. -/
theorem Walk.Tracks.nearest (h : w.Tracks around) {wanted : SymbolKind → Bool}
    {isNearest : Part → Bool} (picks : Picks wanted isNearest)
    (inside : (w.table.enclosing w.scope).findSome? (w.table.ownerOfKind? wanted) = some s) :
    ∃ part n, around.find? isNearest = some part ∧ part.id? = some n ∧
        binding n s ∈ w.requests := by
  obtain ⟨ids, hids, present⟩ := h.scope
  have frames := h.frames
  rw [hids] at frames
  have nearest := frames.nearest h.closed picks (hasScope_iff.mp present)
  rw [show w.table.chainFrom w.table.scopes.length w.scope = w.table.enclosing w.scope from rfl,
    inside] at nearest
  cases hpart : around.find? isNearest with
  | none =>
    rw [hpart] at nearest
    exact nearest.elim
  | some part =>
    rw [hpart] at nearest
    obtain ⟨n, hn, bound⟩ := nearest
    exact ⟨part, n, rfl, hn, bound⟩

theorem Walk.Tracks.nearest_function (h : w.Tracks around)
    (inside : w.table.containingFunction? w.scope = some s) :
    ∃ decl : FunctionDecl, around.find? Part.isFunction = some (.function decl) ∧
      binding decl.tag.id s ∈ w.requests := by
  obtain ⟨part, n, found, hn, bound⟩ := h.nearest picks_function inside
  have isIt := List.find?_some found
  cases part with
  | function decl =>
    cases hn
    exact ⟨decl, found, bound⟩
  | _ => cases isIt

theorem Walk.Tracks.nearest_class (h : w.Tracks around)
    (inside : w.table.containingClass? w.scope = some s) :
    ∃ decl : ClassDecl, around.find? Part.isClass = some (.classDecl decl) ∧
      binding decl.tag.id s ∈ w.requests := by
  obtain ⟨part, n, found, hn, bound⟩ := h.nearest picks_class inside
  have isIt := List.find?_some found
  cases part with
  | classDecl decl =>
    cases hn
    exact ⟨decl, found, bound⟩
  | _ => cases isIt

theorem bindings_of_passed
    (passed : Reactor.Passed (table unit) (plan unit .initial).2 r r')
    (clean : r'.rootErrors = []) : Bindings unit r' := by
  have run := walk_run unit
  have walked : ∀ q ∈ (walk unit .initial).requests, q ∈ (plan unit .initial).2 :=
    fun q hq => mem_append_left _ hq
  have site : ∀ part ∈ unit.entered, ∃ w : Walk, ∀ q ∈ w.asks (.enter part),
      q ∈ (plan unit .initial).2 := by
    intro part hp
    rw [← unit.map_fst_sites, mem_map] at hp
    obtain ⟨⟨_, around⟩, hs, rfl⟩ := hp
    obtain ⟨w, _, _, _, asked⟩ := run.sites _ hs
    exact ⟨w, fun q hq => walked q (asked hq)⟩
  have scope : ∀ part ∈ unit.entered, ∀ n, part.id? = some n →
      ∃ id, r'.get? (AttrName.scope.of n) = some (.scope id) := by
    intro part hp n hn
    obtain ⟨w, asked⟩ := site part hp
    exact ⟨w.scope, passed.seeded (asked _ (placed_mem_asks hn))⟩
  refine ⟨?_, scope, ?_, ?_, ?_, ?_⟩
  · exact ⟨_, passed.seeded (walked _ (run.asked (.head _)))⟩
  · intro d hd n hn
    obtain ⟨n', hn', bound, _⟩ := run.declared d hd
    obtain rfl : n' = n := Option.some.inj (hn'.symm.trans hn)
    exact passed.seeded (walked _ bound)
  · intro part hp tag name hnamed
    obtain ⟨w, asked⟩ := site part hp
    rcases named_mem_asks (w := w) hnamed with ⟨s, hs⟩ | later
    · exact ⟨s, passed.seeded (asked _ hs)⟩
    · have node : part.id? = some tag.id := id?_of_named? hnamed
      obtain ⟨id, hid⟩ := scope part hp tag.id node
      have computes : (lateRule tag name).Computes (table unit) (fun _ => .scope id) _ :=
        Rule.map_computes _ rfl _ _
      have held : ∀ d ∈ (lateRule tag name).deps, r'.get? d = some (.scope id) := by
        intro d hd
        rw [mem_singleton.mp hd]
        exact hid
      have recorded := passed.computed (asked _ later) held computes
      obtain ⟨v, meaning, hv⟩ := (recorded _ (.head _)).ofResult clean
      obtain ⟨s, rfl⟩ := lateMeaning_eq_ok meaning
      exact ⟨s, hv⟩
  · intro tag value around hs
    obtain ⟨w, tracks, _, more, asked⟩ := run.sites _ hs
    cases inside : w.table.containingFunction? w.scope with
    | none =>
      exact absurd (walked _ (asked (mem_containing.mpr (.inr (.inr ⟨inside, rfl⟩)))))
        (passed.not_rejected clean)
    | some s =>
      obtain ⟨decl, found, bound⟩ := tracks.nearest_function inside
      refine ⟨decl, s, found, passed.seeded (walked _ (more bound)), passed.seeded (walked _ ?_)⟩
      exact asked (mem_containing.mpr (.inr (.inl ⟨s, inside, rfl⟩)))
  · intro tag expected around hs
    obtain ⟨w, tracks, _, more, asked⟩ := run.sites _ hs
    cases inside : w.table.containingClass? w.scope with
    | none =>
      exact absurd (walked _ (asked (mem_containing.mpr (.inr (.inr ⟨inside, rfl⟩)))))
        (passed.not_rejected clean)
    | some s =>
      obtain ⟨decl, found, bound⟩ := tracks.nearest_class inside
      refine ⟨decl, s, found, passed.seeded (walked _ (more bound)), passed.seeded (walked _ ?_)⟩
      exact asked (mem_containing.mpr (.inr (.inl ⟨s, inside, rfl⟩)))

theorem declarations_inj {d' : Part × SymbolId} (h : d ∈ declarations unit)
    (h' : d' ∈ declarations unit) (same : d.2 = d'.2) : d = d' :=
  inj_on_of_nodup_map (symbols_nodup unit) h h' same

theorem superclassName?_of_mem_declarations (h : (.classDecl decl, s) ∈ declarations unit) :
    (table unit).superclassName? s = decl.superclass.map (·.name) := by
  obtain ⟨symbol, hs, hk⟩ := hasKind_iff.mp (hasKind_of_mem_declarations h)
  unfold superclassName? kind?
  rw [hs]
  cases hkind : symbol.kind <;> simp [Part.declares, hkind] at hk ⊢
  exact hk

/-- A class that names no superclass gets none. -/
theorem slot?_superclass_of_passed
    (passed : Reactor.Passed (table unit) (plan unit .initial).2 r r')
    (fresh : ∀ s : SymbolId, r.slot? (AttrName.superclass.of s) = none)
    (h : (.classDecl decl, s) ∈ declarations unit) (unwritten : decl.superclass = none) :
    r'.slot? (AttrName.superclass.of s) = none := by
  cases hslot : r'.slot? (AttrName.superclass.of s) with
  | none => rfl
  | some slot =>
    rcases passed.only hslot with old | target
    · rw [fresh s] at old
      cases old
    · rcases mem_targets_plan target with he | ⟨part, _, hp⟩ | ⟨decl', s', hd, hsuper, he⟩
      · cases he
      · obtain ⟨_, _, hown, _⟩ := Part.mem_attrs.mp hp
        cases hown
      · cases he
        cases declarations_inj h hd rfl
        exact absurd unwritten hsuper

/-- The superclass of a class is the one that the table says. -/
theorem superclass_of_passed (passed : Reactor.Passed (table unit) (plan unit .initial).2 r r')
    (clean : r'.rootErrors = []) (fresh : ∀ s : SymbolId, r.slot? (AttrName.superclass.of s) = none)
    (h : (.classDecl decl, s) ∈ declarations unit) :
    r'.getAs? Kind.symbol (AttrName.superclass.of s) = (table unit).superclass? s := by
  cases written : decl.superclass with
  | none =>
    have name := superclassName?_of_mem_declarations h
    have slot := slot?_superclass_of_passed passed fresh h written
    simp [superclass?, name, written, getAs?, get?, slot]
  | some superclass =>
    have asked : ∀ q ∈ superclassRequests (table unit) s decl, q ∈ (plan unit .initial).2 := by
      intro q hq
      refine mem_append_right _ (mem_flatMap.mpr ⟨(s, decl), ?_, hq⟩)
      rw [classes_walk]
      exact mem_filterMap.mpr ⟨_, h, rfl⟩
    unfold superclassRequests at asked
    rw [written] at asked
    dsimp only at asked
    cases found : (table unit).superclass? s with
    | none =>
      rw [found] at asked
      exact absurd (asked _ (.head _)) (passed.not_rejected clean)
    | some parent =>
      rw [found] at asked
      dsimp only at asked
      split at asked
      · exact absurd (asked _ (.head _)) (passed.not_rejected clean)
      · have bound := passed.seeded (asked _ (.head _))
        simp [getAs?, bound, Kind.symbol]

/-- Whether an attribute is asked for before any pass runs, or by the pass over names. -/
def Touched (unit : CompilationUnit) (attr : Attribute) : Prop :=
  (∃ s, attr = typeOf (.symbol s) ∧ initial.hasSymbol s = true) ∨
    attr ∈ (plan unit .initial).2.flatMap Request.targets

/-- What holds of a reactor once the pass over names is accepted. -/
structure Done (unit : CompilationUnit) (r : Reactor) : Prop where
  settled : r.Settled (outlook (table unit))
  clean : r.rootErrors = []
  bindings : Bindings unit r
  superclass : ∀ {decl s}, (.classDecl decl, s) ∈ declarations unit →
    r.getAs? Kind.symbol (AttrName.superclass.of s) = (table unit).superclass? s
  builtins : ∀ s : SymbolId, initial.hasSymbol s = true →
    ∃ type, r.get? (typeOf s) = some (.type type)
  only : ∀ {attr slot}, r.slot? attr = some slot → Touched unit attr

/-- The symbol that a node is bound to. -/
def symbolAt (r : Reactor) (node : NodeId) : SymbolId :=
  (r.getAs? Kind.symbol (AttrName.symbol.of node)).getD ⟨0⟩

theorem symbolAt_eq {node : NodeId} (h : r.get? (AttrName.symbol.of node) = some (.symbol s)) :
    symbolAt r node = s := by
  simp [symbolAt, getAs?, h, Kind.symbol]

theorem Bindings.symbolAt (h : Bindings unit r) (entered : part ∈ unit.entered)
    (declares : isDeclaration part = true) {n : NodeId} (node : part.id? = some n) :
    (part, symbolAt r n) ∈ declarations unit ∧
      r.get? (AttrName.symbol.of n) = some (.symbol (symbolAt r n)) := by
  obtain ⟨s, hd⟩ := mem_declarations entered declares
  have bound := h.declared _ hd n node
  rw [symbolAt_eq bound]
  exact ⟨hd, bound⟩

theorem Bindings.symbolAt_named (h : Bindings unit r) (entered : part ∈ unit.entered) {tag : Tag}
    (named : named? part = some (tag, name)) :
    r.get? (AttrName.symbol.of tag.id) = some (.symbol (Names.symbolAt r tag.id)) := by
  obtain ⟨s, hs⟩ := h.named part entered tag name named
  rwa [symbolAt_eq hs]

/-- The symbols of some parts that are right inside another. -/
theorem Bindings.symbolsAt {α : Type} (h : Bindings unit r) (entered : part ∈ unit.entered)
    {xs : List α} (member : α → Part) {id : α → NodeId}
    (children : ∀ x ∈ xs, member x ∈ part.children)
    (declares : ∀ x, isDeclaration (member x) = true) (node : ∀ x, (member x).id? = some (id x)) :
    ∀ n : NodeId, n ∈ xs.map id →
      r.get? (AttrName.symbol.of n) = some (.symbol (Names.symbolAt r n)) := by
  intro n hn
  obtain ⟨x, hx, rfl⟩ := mem_map.mp hn
  exact (h.symbolAt (child_entered entered (children x hx)) (declares x) (node x)).2

end BlFront.Names
