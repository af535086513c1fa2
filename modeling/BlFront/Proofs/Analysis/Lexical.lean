import BlFront.Proofs.Analysis.Regions
import BlFront.Proofs.Symbol.Cycles

/-!
# Lexical scoping

What a name means at a place is told from the syntax: the latest declaration before the place in the
innermost region around it that has one, or, if there is none, what the name means when all
declarations are made, unless that is a variable.  The look-ups of the tour and of the complete table
give these meanings.
-/

namespace BlFront.Names

open List SymbolTable

variable {d : Declaration} {r : Region}

/-! ### Declarations -/

structure Declaration where
  symbol : SymbolId
  /-- The part that declares it; a builtin has none. -/
  origin : Option Part
  /-- The regions around it, the innermost first. -/
  regions : List Region
  name : String

namespace Declaration

def region (d : Declaration) : Region := d.regions.headD .builtin

def isVar (d : Declaration) : Bool := d.origin.any Part.isVariable

def class? (d : Declaration) : Option ClassDecl := d.origin.bind classOf?

def isIn (region : Region) (name : String) (d : Declaration) : Bool :=
  d.region == region && d.name == name

/-- The declaration that a part makes. -/
def ofPart (declared : Part × List Part) (symbol : SymbolId) : Declaration :=
  ⟨symbol, some declared.1, regionsOf declared.2, declared.1.declaredName⟩

def ofBuiltin (entry : SymbolId × Symbol) : Declaration := ⟨entry.1, none, [.builtin], entry.2.name⟩

theorem region_ofPart (declared : Part × List Part) (symbol : SymbolId) :
    (ofPart declared symbol).region = regionOf declared.2 := by
  obtain ⟨outer, regions⟩ := regionsOf_eq_cons declared.2
  simp [region, ofPart, regions]

end Declaration

def builtinDeclarations : List Declaration :=
  (initial.entries.filter fun e => e.2.scope == builtinScope).map
    Declaration.ofBuiltin

/-- The declarations that are made when a tour has made some visits, in their order. -/
def declaredBy (visits : List Visit) : List Declaration :=
  builtinDeclarations ++ ((declaredFrom [] visits).zipIdx initial.symbols.length).map
    fun e => .ofPart e.1 ⟨e.2⟩

/-- The latest declaration of a name in the innermost of some regions that has one. -/
def nearest? (declared : List Declaration) (regions : List Region) (name : String) :
    Option Declaration :=
  regions.findSome? fun region => (declared.filter (·.isIn region name)).getLast?

/-- What a name means where a tour has made some visits. -/
def meaning? (unit : CompilationUnit) (before : List Visit) (name : String) : Option Declaration :=
  (nearest? (declaredBy before) (regionsOf (openAfter before)) name).or
    ((nearest? (declaredBy unit.tour) (regionsOf (openAfter before)) name).filter (!·.isVar))

/-- The superclass of a class, which may be declared behind it. -/
def superclassOf? (unit : CompilationUnit) (d : Declaration) : Option Declaration :=
  (d.class?.bind (·.superclass)).bind fun written =>
    (nearest? (declaredBy unit.tour) d.regions written.name).filter (·.class?.isSome)

theorem mem_of_nearest? {declared : List Declaration} {regions : List Region} {name : String}
    (h : nearest? declared regions name = some d) :
    d ∈ declared ∧ d.region ∈ regions ∧ d.name = name := by
  obtain ⟨region, mem, found⟩ := exists_of_findSome?_eq_some h
  have here := mem_of_getLast? found
  simp only [mem_filter, Declaration.isIn, Bool.and_eq_true, beq_iff_eq] at here
  exact ⟨here.1, here.2.1 ▸ mem, here.2.2⟩

/-! ### Entries of the table -/

variable {unit : CompilationUnit} {before after : List Visit}

theorem mem_pickedFrom {pick : Visit → Option Part} {visits : List Visit} {picked : Part × List Part}
    {around : List Part} (mem : picked ∈ pickedFrom pick around visits) :
    ∃ before v after, visits = before ++ v :: after ∧ pick v = some picked.1 ∧
      picked.2 = v.outside (before.foldl Visit.open around) := by
  induction visits generalizing around with
  | nil => cases mem
  | cons v visits ih =>
    rcases mem_append.mp mem with mem | mem
    · obtain ⟨part, found, rfl⟩ := mem_map.mp mem
      exact ⟨[], v, visits, rfl, Option.mem_toList.mp found, rfl⟩
    · obtain ⟨before, v', after, rfl, found, same⟩ := ih mem
      exact ⟨v :: before, v', after, rfl, found, same⟩

theorem mem_zipIdx_declaredFrom {before : List Visit} {e : (Part × List Part) × Nat}
    (mem : e ∈ (declaredFrom [] before).zipIdx initial.symbols.length) :
    e.1 ∈ declaredFrom [] before := by
  have here : e.1 ∈ ((declaredFrom [] before).zipIdx initial.symbols.length).map Prod.fst :=
    mem_map_of_mem mem
  rwa [zipIdx_map_fst] at here

theorem around_entered_of_mem_declaredFrom (split : unit.tour = before ++ after)
    {d : Part × List Part} (mem : d ∈ declaredFrom [] before) :
    ∀ part ∈ d.2, .enter part ∈ unit.tour := by
  obtain ⟨earlier, v, later, rfl, _, around⟩ := mem_pickedFrom mem
  intro part inside
  have opened : part ∈ openAfter earlier := by
    rw [around] at inside
    cases v with
    | enter q => exact inside
    | leave q => exact mem_of_mem_tail inside
  rw [split]
  exact mem_append_left _ (mem_append_left _ (enter_mem_of_mem_openAfter opened))

theorem regionOf_mem_regionsIn (split : unit.tour = before ++ after) {d : Part × List Part}
    (mem : d ∈ declaredFrom [] before) : regionOf d.2 ∈ regionsIn unit :=
  regionsOf_subset (around_entered_of_mem_declaredFrom split mem) (regionOf_mem_regionsOf _)

theorem entries_walkTo (numbered : unit.WellNumbered) (split : unit.tour = before ++ after) :
    (walkTo unit before).table.entries = initial.entries ++
      ((declaredFrom [] before).zipIdx initial.symbols.length).map fun e =>
        (⟨e.2⟩, (places unit).entry e.1) := by
  have symbols : (walkTo unit before).table.symbols = initial.symbols ++
      (declaredFrom [] before).map (places unit).entry := (walkTo_lays numbered split).symbols
  rw [entries_append _ symbols, zipIdx_map, map_map]
  rfl

/-- The builtins of a region are those of its scope. -/
theorem builtins_in_scope (numbered : unit.WellNumbered) (mem : r ∈ regionsIn unit) (name : String) :
    (initial.entries.filter fun e =>
        e.2.scope == (places unit).scope r && e.2.name == name).map Prod.fst =
      (builtinDeclarations.filter (·.isIn r name)).map (·.symbol) := by
  rw [builtinDeclarations, filter_map, map_map, filter_filter]
  refine congrArg (List.map Prod.fst) (filter_congr fun e he => ?_)
  have old : e.2.scope.index < initial.scopes.length :=
    hasScope_iff.mp (initial_sound.closed.scope (mem_entries.mp he))
  -- a scope of the unit is younger than those of the builtins
  have young : ∀ s : ScopeId, initial.scopes.length ≤ s.index → (e.2.scope == s) = false := by
    intro s le
    refine beq_false_of_ne fun same => ?_
    rw [same] at old
    omega
  rcases scope_of_mem_regionsIn numbered mem with ⟨rfl, at_⟩ | ⟨rfl, at_⟩ | ⟨e', he', rfl, at_⟩
  · rw [at_]
    simp [Declaration.isIn, Declaration.ofBuiltin, Declaration.region, Bool.and_comm]
  · rw [at_, young initial.nextScope (Nat.le_refl _)]
    rfl
  · rw [at_, young _ (Nat.le_of_lt (lt_index_of_mem_openings he'))]
    rfl

/-- The declarations in a region are those in its scope. -/
theorem declared_in_scope (numbered : unit.WellNumbered) (split : unit.tour = before ++ after)
    (mem : r ∈ regionsIn unit) (name : String) :
    ((((declaredFrom [] before).zipIdx initial.symbols.length).map fun e =>
        ((⟨e.2⟩ : SymbolId), (places unit).entry e.1)).filter fun e =>
          e.2.scope == (places unit).scope r && e.2.name == name).map Prod.fst =
      ((((declaredFrom [] before).zipIdx initial.symbols.length).map fun e =>
        Declaration.ofPart e.1 ⟨e.2⟩).filter (·.isIn r name)).map (·.symbol) := by
  rw [filter_map, filter_map, map_map, map_map]
  refine congrArg (List.map fun e : (Part × List Part) × Nat => (⟨e.2⟩ : SymbolId))
    (filter_congr fun e he => ?_)
  have inside := regionOf_mem_regionsIn split (mem_zipIdx_declaredFrom he)
  have same : ((places unit).scope (regionOf e.1.2) == (places unit).scope r) =
      (regionOf e.1.2 == r) := by
    rw [Bool.eq_iff_iff, beq_iff_eq, beq_iff_eq]
    exact ⟨scope_inj numbered inside mem, congrArg _⟩
  simp only [Function.comp_apply, Places.entry, Declaration.isIn, Declaration.region_ofPart, same]
  rfl

theorem get?_declaredIn_scope (numbered : unit.WellNumbered) (split : unit.tour = before ++ after)
    (mem : r ∈ regionsIn unit) (name : String) :
    ((walkTo unit before).table.declaredIn ((places unit).scope r)).get? name =
      ((declaredBy before).filter (·.isIn r name)).getLast?.map (·.symbol) := by
  rw [get?_declaredIn, ← List.getLast?_map, ← List.getLast?_map,
    entries_walkTo numbered split, declaredBy, filter_append, filter_append,
    map_append, map_append, builtins_in_scope numbered mem,
    declared_in_scope numbered split mem]

/-- A look-up finds the nearest declaration. -/
theorem lookup?_eq_nearest? (numbered : unit.WellNumbered) (split : unit.tour = before ++ after)
    {scope : ScopeId} {regions : List Region} (inside : regions ⊆ regionsIn unit)
    (chain : (walkTo unit before).table.Chain scope (regions.map (places unit).scope))
    (name : String) : (walkTo unit before).table.lookup? scope name =
      (nearest? (declaredBy before) regions name).map (·.symbol) := by
  rw [chain.lookup?_eq (walkTo_tracks split).closed (walkTo_lays numbered split).faithful,
    List.findSome?_map, nearest?, map_findSome?]
  exact findSome?_congr fun r mem => get?_declaredIn_scope numbered split (inside mem) name

theorem lookup?_walkTo (numbered : unit.WellNumbered) (split : unit.tour = before ++ after)
    (name : String) : (walkTo unit before).table.lookup? (walkTo unit before).scope name =
      (nearest? (declaredBy before) (regionsOf (openAfter before)) name).map (·.symbol) := by
  rw [walkTo_scope numbered split]
  exact lookup?_eq_nearest? numbered split (regionsOf_openAfter_subset split)
    (walkTo_chain numbered split) name

theorem lookup?_table (numbered : unit.WellNumbered) (split : unit.tour = before ++ after)
    (name : String) :
    (table unit).lookup? ((places unit).scope (regionOf (openAfter before))) name =
      (nearest? (declaredBy unit.tour) (regionsOf (openAfter before)) name).map (·.symbol) :=
  lookup?_eq_nearest? numbered (append_nil _).symm (regionsOf_openAfter_subset split)
    ((walkTo_chain numbered split).extend (walkTo_grows split)) name

/-! ### What the table says of a declaration -/

/-- The symbol of a declaration. -/
structure Declaration.Describes (p : Places) (d : Declaration) (symbol : Symbol) : Prop where
  name : symbol.name = d.name
  scope : symbol.scope = p.scope d.region
  isVar : symbol.kind.isVar = d.isVar
  isClass : symbol.kind.isClass = d.class?.isSome
  span : symbol.span = d.origin.map Part.span

theorem describes_ofPart (p : Places) {declared : Part × List Part}
    (declares : isDeclaration declared.1 = true) (id : SymbolId) :
    (Declaration.ofPart declared id).Describes p (p.entry declared) where
  name := rfl
  scope := by rw [Declaration.region_ofPart, Places.entry]
  isVar := by
    obtain ⟨part, around⟩ := declared
    cases part with
    | function decl => simp only [Places.entry, Part.symbolKind]; split <;> rfl
    | _ => first | rfl | cases declares
  isClass := by
    obtain ⟨part, around⟩ := declared
    cases part with
    | function decl => simp only [Places.entry, Part.symbolKind]; split <;> rfl
    | _ => rfl
  span := rfl

theorem mem_declaredBy : d ∈ declaredBy before ↔ d ∈ builtinDeclarations ∨
    ∃ e ∈ (declaredFrom [] before).zipIdx initial.symbols.length,
      d = .ofPart e.1 ⟨e.2⟩ := by
  simp only [declaredBy, mem_append, mem_map, eq_comm]

theorem isDeclaration_of_mem_declaredFrom {around : List Part} {visits : List Visit}
    {d : Part × List Part} (mem : d ∈ declaredFrom around visits) : isDeclaration d.1 = true := by
  obtain ⟨_, _, _, _, declaring, _⟩ := mem_pickedFrom mem
  exact (declaring?_eq_some declaring).1

/-- The builtins that can be named are neither variables nor classes. -/
theorem describes_builtin (unit : CompilationUnit) :
    ∀ d ∈ builtinDeclarations, ∃ symbol, initial.symbol? d.symbol = some symbol ∧
      d.Describes (places unit) symbol := by
  have plain : ∀ e ∈ initial.entries, e.2.scope = builtinScope →
      e.2.kind.isVar = false ∧ e.2.kind.isClass = false ∧ e.2.span = none := by decide
  intro d mem
  obtain ⟨e, he, rfl⟩ := mem_map.mp mem
  rw [mem_filter, beq_iff_eq] at he
  obtain ⟨noVar, noClass, noSpan⟩ := plain e he.1 he.2
  exact ⟨e.2, mem_entries.mp he.1, rfl, he.2, noVar, noClass, noSpan⟩

theorem symbol?_of_mem_zipIdx (numbered : unit.WellNumbered) {e : (Part × List Part) × Nat}
    (mem : e ∈ (declaredFrom [] unit.tour).zipIdx initial.symbols.length) :
    (table unit).symbol? ⟨e.2⟩ = some ((places unit).entry e.1) := by
  have entry : ((⟨e.2⟩ : SymbolId), (places unit).entry e.1) ∈ (table unit).entries := by
    rw [table_eq, entries_walkTo numbered (append_nil _).symm]
    exact mem_append_right _ (mem_map.mpr ⟨e, mem, rfl⟩)
  exact mem_entries.mp entry

theorem describes_of_mem (numbered : unit.WellNumbered) (mem : d ∈ declaredBy unit.tour) :
    ∃ symbol, (table unit).symbol? d.symbol = some symbol ∧ d.Describes (places unit) symbol := by
  rcases mem_declaredBy.mp mem with builtin | ⟨e, he, rfl⟩
  · obtain ⟨symbol, held, describes⟩ := describes_builtin unit d builtin
    exact ⟨symbol, (table_grows unit).symbol? held, describes⟩
  · exact ⟨_, symbol?_of_mem_zipIdx numbered he, describes_ofPart (places unit)
      (isDeclaration_of_mem_declaredFrom (mem_zipIdx_declaredFrom he)) _⟩

theorem hasKind_isVar (numbered : unit.WellNumbered) (mem : d ∈ declaredBy unit.tour) :
    (table unit).hasKind (·.isVar) d.symbol = d.isVar := by
  obtain ⟨symbol, held, describes⟩ := describes_of_mem numbered mem
  simp [hasKind, kind?, held, describes.isVar]

theorem hasKind_isClass (numbered : unit.WellNumbered) (mem : d ∈ declaredBy unit.tour) :
    (table unit).hasKind (·.isClass) d.symbol = d.class?.isSome := by
  obtain ⟨symbol, held, describes⟩ := describes_of_mem numbered mem
  simp [hasKind, kind?, held, describes.isClass]

/-- A symbol has one declaration. -/
theorem declaredBy_inj {d' : Declaration} (mem : d ∈ declaredBy before)
    (mem' : d' ∈ declaredBy before) (same : d.symbol = d'.symbol) : d = d' := by
  have old : ∀ d ∈ builtinDeclarations, d.symbol.index < initial.symbols.length := by
    intro d mem
    obtain ⟨symbol, held, _⟩ := describes_builtin ⟨default, []⟩ d mem
    exact hasSymbol_iff.mp (Option.isSome_iff_exists.mpr ⟨symbol, held⟩)
  have young : ∀ e ∈ (declaredFrom [] before).zipIdx initial.symbols.length,
      initial.symbols.length ≤ e.2 := fun e he =>
    (mk_mem_zipIdx_iff_le_and_getElem?_sub.mp he).1
  rcases mem_declaredBy.mp mem with builtin | ⟨e, he, rfl⟩ <;>
  rcases mem_declaredBy.mp mem' with builtin' | ⟨e', he', rfl⟩
  · obtain ⟨e, he, rfl⟩ := mem_map.mp builtin
    obtain ⟨e', he', rfl⟩ := mem_map.mp builtin'
    have held := mem_entries.mp (mem_of_mem_filter he)
    have held' := mem_entries.mp (mem_of_mem_filter he')
    have ids : e.1 = e'.1 := same
    rw [ids, held'] at held
    rw [show e = e' from Prod.ext ids (Option.some.inj held.symm)]
  · have lt := old d builtin
    rw [same] at lt
    exact absurd (young e' he') (Nat.not_le.mpr lt)
  · have lt := old d' builtin'
    rw [← same] at lt
    exact absurd (young e he) (Nat.not_le.mpr lt)
  · have index : e.2 = e'.2 := congrArg SymbolId.index same
    obtain ⟨_, at_⟩ := mk_mem_zipIdx_iff_le_and_getElem?_sub.mp he
    obtain ⟨_, at'⟩ := mk_mem_zipIdx_iff_le_and_getElem?_sub.mp he'
    rw [index, at'] at at_
    rw [index, Option.some.inj at_]

/-! ### Superclasses -/

/-- A class is declared when it is entered. -/
theorem exists_entered_of_class? {decl : ClassDecl} (mem : d ∈ declaredBy unit.tour)
    (isClass : d.class? = some decl) :
    ∃ earlier later, unit.tour = earlier ++ .enter (.classDecl decl) :: later ∧
      ∃ e ∈ (declaredFrom [] unit.tour).zipIdx initial.symbols.length,
        e.1 = (.classDecl decl, openAfter earlier) ∧ d = .ofPart e.1 ⟨e.2⟩ := by
  rcases mem_declaredBy.mp mem with builtin | ⟨e, he, rfl⟩
  · obtain ⟨_, _, rfl⟩ := mem_map.mp builtin
    cases isClass
  · obtain ⟨earlier, v, later, split, declaring, around⟩ :=
      mem_pickedFrom (mem_zipIdx_declaredFrom he)
    have part : e.1.1 = .classDecl decl := by
      have found : classOf? e.1.1 = some decl := isClass
      cases h : e.1.1 <;> rw [h] at found <;> cases found
      rfl
    rw [part] at declaring
    obtain rfl : v = .enter (.classDecl decl) := by
      rcases (declaring?_eq_some declaring).2 with same | same
      · exact same
      · rw [same] at declaring
        cases declaring
    exact ⟨earlier, later, split, e, he, Prod.ext part around, rfl⟩

theorem superclass?_eq (numbered : unit.WellNumbered) (mem : d ∈ declaredBy unit.tour) :
    (table unit).superclass? d.symbol = (superclassOf? unit d).map (·.symbol) := by
  cases isClass : d.class? with
  | none =>
    have other := hasKind_isClass numbered mem
    rw [isClass] at other
    rw [superclass?_eq_none other, superclassOf?, isClass]
    rfl
  | some decl =>
    obtain ⟨earlier, later, split, e, he, at_, rfl⟩ := exists_entered_of_class? mem isClass
    have held := symbol?_of_mem_zipIdx numbered he
    have name : (table unit).superclassName? ⟨e.2⟩ = decl.superclass.map (·.name) := by
      simp [superclassName?, kind?, held, at_, Places.entry, Part.symbolKind]
    have written : (Declaration.ofPart e.1 ⟨e.2⟩).class?.bind (·.superclass) = decl.superclass := by
      rw [isClass]
      rfl
    rw [superclassOf?, written]
    change (table unit).superclass? ⟨e.2⟩ = _
    rw [superclass?, name, held]
    cases decl.superclass with
    | none => rfl
    | some written =>
      have scope : ((places unit).entry e.1).scope =
          (places unit).scope (regionOf (openAfter earlier)) := by rw [at_, Places.entry]
      have regions : (Declaration.ofPart e.1 ⟨e.2⟩).regions = regionsOf (openAfter earlier) := by
        rw [at_]
        rfl
      simp only [Option.map_some, Option.bind_eq_bind, Option.bind_some, scope,
        lookup?_table numbered split, regions]
      cases found : nearest? (declaredBy unit.tour) (regionsOf (openAfter earlier))
          written.name with
      | none => rfl
      | some parent =>
        simp only [Option.map_some, Option.bind_some,
          hasKind_isClass numbered (mem_of_nearest? found).1, Option.filter_some]
        cases parent.class? <;> rfl

/-- One class extends another. -/
def Inherits (unit : CompilationUnit) (d parent : Declaration) : Prop :=
  superclassOf? unit d = some parent

theorem Inherits.mem {parent : Declaration} (h : Inherits unit d parent) :
    parent ∈ declaredBy unit.tour := by
  obtain ⟨written, _, found⟩ := Option.bind_eq_some_iff.mp h
  exact (mem_of_nearest? (Option.filter_eq_some_iff.mp found).1).1

/-- The superclasses of a class lead back to it. -/
theorem isCyclic_iff_transGen (numbered : unit.WellNumbered) (mem : d ∈ declaredBy unit.tour) :
    (table unit).isCyclic d.symbol = true ↔ Relation.TransGen (Inherits unit) d d := by
  obtain ⟨symbol, held, _⟩ := describes_of_mem numbered mem
  rw [isCyclic_iff (Option.isSome_iff_exists.mpr ⟨symbol, held⟩)]
  have step : ∀ {a : Declaration} {s : SymbolId}, a ∈ declaredBy unit.tour →
      ((table unit).Extends a.symbol s ↔ ∃ b, Inherits unit a b ∧ b.symbol = s) := by
    intro a s ha
    rw [SymbolTable.Extends, superclass?_eq numbered ha, Option.map_eq_some_iff]
    rfl
  constructor
  · intro cyclic
    have lifted : ∀ {s}, Relation.TransGen (table unit).Extends d.symbol s →
        ∃ b, Relation.TransGen (Inherits unit) d b ∧ b ∈ declaredBy unit.tour ∧ b.symbol = s := by
      intro s path
      induction path with
      | single move =>
        obtain ⟨b, inherits, same⟩ := (step mem).mp move
        exact ⟨b, .single inherits, inherits.mem, same⟩
      | tail _ move ih =>
        obtain ⟨b, path, hb, rfl⟩ := ih
        obtain ⟨c, inherits, same⟩ := (step hb).mp move
        exact ⟨c, path.tail inherits, inherits.mem, same⟩
    obtain ⟨b, path, hb, same⟩ := lifted cyclic
    exact declaredBy_inj hb mem same ▸ path
  · intro cyclic
    have dropped : ∀ {b}, Relation.TransGen (Inherits unit) d b →
        Relation.TransGen (table unit).Extends d.symbol b.symbol ∧ b ∈ declaredBy unit.tour := by
      intro b path
      induction path with
      | single inherits => exact ⟨.single ((step mem).mpr ⟨_, inherits, rfl⟩), inherits.mem⟩
      | tail _ inherits ih =>
        exact ⟨ih.1.tail ((step ih.2).mpr ⟨_, inherits, rfl⟩), inherits.mem⟩
    exact (dropped cyclic).1

end BlFront.Names
