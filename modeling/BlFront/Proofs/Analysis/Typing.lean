import BlFront.Proofs.Analysis.Bindings
import BlFront.Proofs.Analysis.TypeRules

/-!
# What the pass over types asks for

Once names are bound, the pass over types finds every symbol that it looks for.  It asks for the
type of each node and of each declared symbol once, and its rules stay within what fits.
-/

namespace BlFront

open List SymbolTable CompilationUnit Reactor

variable {expected : Option Expected} {part : Part} {name : String} {tag : Tag}

namespace Reactor

variable {r : Reactor}

theorem withSymbol_eq {attr : Attribute} {s : SymbolId} (h : r.get? attr = some (.symbol s))
    (requests : SymbolId → List Request) : r.withSymbol attr requests = requests s := by
  simp [withSymbol, getAs?, h, Kind.symbol]

theorem withSymbols_eq {nodes : List NodeId} {symbols : NodeId → SymbolId}
    (h : ∀ n ∈ nodes, r.get? (AttrName.symbol.of n) = some (.symbol (symbols n)))
    (requests : List SymbolId → List Request) :
    r.withSymbols nodes requests = requests (nodes.map symbols) := by
  induction nodes generalizing requests with
  | nil => rfl
  | cons n nodes ih =>
    rw [withSymbols, withSymbol_eq (h n (by simp)), ih fun m hm => h m (by simp [hm])]
    rfl

end Reactor

namespace Types

open Names

variable {unit : CompilationUnit} {r : Reactor} {G : ClassRow → List ClassRow → Prop}

/-! ### Requests of bound parts -/

/-- What is asked for about the node of a part. -/
def typing : Part → List AttrName
  | .block _ | .ifElse _ _ _ _ | .returnStmt _ _ => [.returnType]
  | .expr (.methodCall _ _ _ _) _ => [.symbol, .type]
  | .expr _ _ | .type _ => [.type]
  | _ => []

theorem function_requests (h : Bindings unit r) {decl : FunctionDecl}
    (entered : .function decl ∈ unit.entered) (t : SymbolTable) :
    partRequests r t (.function decl) = [.register (functionRule decl (symbolAt r decl.tag.id)
      ((decl.params.map (·.tag.id)).map (symbolAt r)))] := by
  rw [partRequests, withSymbol_eq (h.symbolAt entered rfl rfl).2,
    withSymbols_eq (h.symbolsAt entered .param
      (fun p hp => by simp [Part.children, hp]) (fun _ => rfl) fun _ => rfl)]

theorem struct_requests (h : Bindings unit r) {decl : StructDecl}
    (entered : .structDecl decl ∈ unit.entered) (t : SymbolTable) :
    partRequests r t (.structDecl decl) = [.register (structRule t decl (symbolAt r decl.tag.id)
      ((decl.fields.map (·.tag.id)).map (symbolAt r)))] := by
  rw [partRequests, withSymbol_eq (h.symbolAt entered rfl rfl).2,
    withSymbols_eq (h.symbolsAt entered .field
      (fun p hp => by simp [Part.children, hp]) (fun _ => rfl) fun _ => rfl)]

variable {decl : ClassDecl}

theorem class_requests (h : Bindings unit r)
    (entered : .classDecl decl ∈ unit.entered) (t : SymbolTable) :
    partRequests r t (.classDecl decl) = [.register (classRule t decl (symbolAt r decl.tag.id)
      (r.getAs? Kind.symbol (AttrName.superclass.of (symbolAt r decl.tag.id)))
      ((decl.fields.map (·.tag.id)).map (symbolAt r))
      ((decl.methods.map (·.tag.id)).map (symbolAt r)))] := by
  rw [partRequests, withSymbol_eq (h.symbolAt entered rfl rfl).2,
    withSymbols_eq (h.symbolsAt entered .field
      (fun p hp => by simp [Part.children, hp]) (fun _ => rfl) fun _ => rfl),
    withSymbols_eq (h.symbolsAt entered .function
      (fun p hp => by simp [Part.children, hp]) (fun _ => rfl) fun _ => rfl)]

theorem param_requests (h : Bindings unit r) {decl : TypedName}
    (entered : .param decl ∈ unit.entered) (t : SymbolTable) :
    partRequests r t (.param decl) = [.register (.copy "type parameter" (typeOf decl.type.id)
      (typeOf (symbolAt r decl.tag.id)))] := by
  rw [partRequests, withSymbol_eq (h.symbolAt entered rfl rfl).2]

theorem field_requests (h : Bindings unit r) {decl : TypedName}
    (entered : .field decl ∈ unit.entered) (t : SymbolTable) :
    partRequests r t (.field decl) = [.register (.copy "type field" (typeOf decl.type.id)
      (typeOf (symbolAt r decl.tag.id)))] := by
  rw [partRequests, withSymbol_eq (h.symbolAt entered rfl rfl).2]

theorem variable_requests (h : Bindings unit r) {decl : VarDecl}
    (entered : .varDecl decl ∈ unit.entered) (inferred : decl.type = none) (t : SymbolTable) :
    partRequests r t (.varDecl decl) = [.register (.copy "type inferred variable"
      (typeOf decl.initializer.id) (typeOf (symbolAt r decl.tag.id)))] := by
  rw [partRequests, inferred]
  exact withSymbol_eq (h.symbolAt entered rfl rfl).2 _

variable {written : TypeExpr}

theorem annotation_requests (h : Bindings unit r) {decl : VarDecl}
    (entered : .typed decl written ∈ unit.entered) (t : SymbolTable) :
    partRequests r t (.typed decl written) = [.register (.copy "type annotated variable"
      (typeOf written.id) (typeOf (symbolAt r decl.tag.id)))] := by
  obtain ⟨variable_, _⟩ := annotated_entered entered
  rw [partRequests, withSymbol_eq (h.symbolAt variable_ rfl rfl).2]

theorem reference_requests (h : Bindings unit r)
    (entered : .expr (.reference tag name) expected ∈ unit.entered) (t : SymbolTable) :
    partRequests r t (.expr (.reference tag name) expected) =
      [.register (.copy "type reference" (typeOf (symbolAt r tag.id)) (typeOf tag.id))] :=
  withSymbol_eq (h.symbolAt_named entered rfl) _

theorem self_requests (h : Bindings unit r) {around : List Part}
    (site : (.expr (.selfRef tag) expected, around) ∈ unit.sites) (t : SymbolTable) :
    ∃ decl, around.find? Part.isClass = some (.classDecl decl) ∧
      partRequests r t (.expr (.selfRef tag) expected) =
        [.register (.copy "type self" (typeOf (symbolAt r decl.tag.id)) (typeOf tag.id))] := by
  obtain ⟨decl, s, nearest, bound, inside⟩ := h.inClass site
  rw [← symbolAt_eq bound] at inside
  exact ⟨decl, nearest, withSymbol_eq inside _⟩

theorem named_requests (h : Bindings unit r) (entered : .type (.named tag name) ∈ unit.entered)
    (t : SymbolTable) :
    partRequests r t (.type (.named tag name)) =
      if t.hasKind (·.isType) (symbolAt r tag.id) then
        [.register (.copy "type named type" (typeOf (symbolAt r tag.id)) (typeOf tag.id))]
      else [.reject ⟨tag.span, name ++ " is not a type"⟩ [typeOf tag.id]] :=
  withSymbol_eq (h.symbolAt_named entered rfl) _

/-! ### Targets -/

/-- The types of the symbols that a part declares. -/
def declaredTypes (r : Reactor) (part : Part) : List Attribute :=
  part.declared?.toList.map fun n => typeOf (.symbol (symbolAt r n))

theorem targets_partRequests (h : Bindings unit r) (entered : part ∈ unit.entered) (t : SymbolTable) :
    (partRequests r t part).flatMap Request.targets =
      part.attrs (typing part) ++ declaredTypes r part := by
  cases part with
  | function decl => rw [function_requests h entered]; rfl
  | structDecl decl => rw [struct_requests h entered]; rfl
  | classDecl decl => rw [class_requests h entered]; rfl
  | param decl => rw [param_requests h entered]; rfl
  | field decl => rw [field_requests h entered]; rfl
  | varDecl decl =>
    cases hd : decl.type with
    | none =>
      rw [variable_requests h entered hd]
      simp [declaredTypes, Part.declared?, hd, typing, Part.attrs, Part.id?]
      rfl
    | some written => simp [partRequests, hd, declaredTypes, Part.declared?, typing, Part.attrs, Part.id?]
  | typed decl written => rw [annotation_requests h entered]; rfl
  | returnStmt tag value => cases value <;> rfl
  | expr e expected =>
    cases e with
    | reference tag name => rw [reference_requests h entered]; rfl
    | selfRef tag =>
      obtain ⟨around, site⟩ := exists_site entered
      obtain ⟨decl, _, requests⟩ := self_requests h site t
      rw [requests]
      rfl
    | array tag elements =>
      cases elements with
      | nil => cases expected <;> rfl
      | cons e es => rfl
    | _ => rfl
  | type written =>
    cases written with
    | named tag name =>
      rw [named_requests h entered]
      split <;> rfl
    | array tag element => rfl
  | _ => rfl

theorem targets_plan_perm (h : Bindings unit r) (t : SymbolTable) :
    ((plan unit t r).flatMap Request.targets).Perm
      ((unit.left.flatMap fun part => part.attrs (typing part)) ++
        (unit.left.filterMap Part.declared?).map fun n => typeOf (.symbol (symbolAt r n))) := by
  have each : (plan unit t r).flatMap Request.targets =
      unit.left.flatMap fun part => part.attrs (typing part) ++ declaredTypes r part := by
    rw [plan, flatMap_assoc]
    exact flatMap_congr fun part hp =>
      targets_partRequests h (mem_left.mp hp) t
  have symbols : (unit.left.filterMap Part.declared?).map
      (fun n => typeOf (.symbol (symbolAt r n))) = unit.left.flatMap (declaredTypes r) := by
    rw [filterMap_eq_flatMap_toList, map_flatMap]
    rfl
  rw [each, symbols]
  exact (flatMap_append_perm _ _ _).symm

variable {n : NodeId}

/-- Where a symbol gets a type, a part around declares it. -/
theorem declares_of_declared? (entered : part ∈ unit.entered)
    (declared : part.declared? = some n) :
    ∃ owner ∈ unit.entered, isDeclaration owner = true ∧ owner.id? = some n := by
  cases part with
  | typed decl written =>
    cases declared
    exact ⟨_, (annotated_entered entered).1, rfl, rfl⟩
  | varDecl decl =>
    refine ⟨_, entered, rfl, ?_⟩
    rw [Part.declared?] at declared
    split at declared
    · cases declared
    · exact declared
  | function decl => exact ⟨_, entered, rfl, declared⟩
  | structDecl decl => exact ⟨_, entered, rfl, declared⟩
  | classDecl decl => exact ⟨_, entered, rfl, declared⟩
  | param decl => exact ⟨_, entered, rfl, declared⟩
  | field decl => exact ⟨_, entered, rfl, declared⟩
  | _ => cases declared

theorem mem_declarations_of_declared? (h : Bindings unit r)
    (declared : n ∈ unit.left.filterMap Part.declared?) :
    ∃ owner, owner.id? = some n ∧ (owner, symbolAt r n) ∈ declarations unit := by
  obtain ⟨part, hp, hn⟩ := mem_filterMap.mp declared
  obtain ⟨owner, entered, declares, node⟩ :=
    declares_of_declared? (mem_left.mp hp) hn
  exact ⟨owner, node, (h.symbolAt entered declares node).1⟩

theorem nodup_plan (h : Bindings unit r) (numbered : unit.WellNumbered) (t : SymbolTable) :
    ((plan unit t r).flatMap Request.targets).Nodup := by
  rw [(targets_plan_perm h t).nodup_iff, nodup_append]
  refine ⟨nodup_flatMap_attrs numbered.left fun part => ?_, ?_, ?_⟩
  · cases part with
    | expr e expected => cases e <;> simp [typing]
    | _ => simp [typing]
  · refine List.Nodup.map_on (fun n hn m hm same => ?_) numbered.declared
    obtain ⟨owner, node, declared⟩ := mem_declarations_of_declared? h hn
    obtain ⟨owner', node', declared'⟩ := mem_declarations_of_declared? h hm
    have symbols : symbolAt r n = symbolAt r m := Owner.symbol.inj (congrArg Attribute.owner same)
    have parts : owner = owner' := congrArg Prod.fst (declarations_inj declared declared' symbols)
    exact Option.some.inj (node.symm.trans (parts ▸ node'))
  · rintro a ha _ hb rfl
    obtain ⟨part, _, ha⟩ := mem_flatMap.mp ha
    obtain ⟨n, _, owner, _⟩ := Part.mem_attrs.mp ha
    obtain ⟨m, _, rfl⟩ := mem_map.mp hb
    cases owner

theorem typing_disjoint (part : Part) : ∀ name ∈ typing part, name ∉ entering part ++ leaving part := by
  cases part with
  | expr e expected => cases e <;> simp [typing, entering, leaving]
  | type written => cases written <;> simp [typing, entering, leaving]
  | _ => simp [typing, entering, leaving]

theorem scope_not_typing (part : Part) : AttrName.scope ∉ typing part := by
  cases part with
  | expr e expected => cases e <;> simp [typing]
  | _ => simp [typing]

theorem returns_not_typing (part : Part) : AttrName.returns ∉ typing part := by
  cases part with
  | expr e expected => cases e <;> simp [typing]
  | _ => simp [typing]

/-- What the pass asks for has no slot before it. -/
theorem fresh_plan (h : Done unit r) (numbered : unit.WellNumbered) (t : SymbolTable) :
    ∀ attr ∈ (plan unit t r).flatMap Request.targets, r.slot? attr = none := by
  intro attr hattr
  cases hslot : r.slot? attr with
  | none => rfl
  | some slot =>
    exfalso
    have touched := h.only hslot
    rcases mem_append.mp ((targets_plan_perm h.bindings t).mem_iff.mp hattr) with node | symbol
    · obtain ⟨part, hp, hattr⟩ := mem_flatMap.mp node
      obtain ⟨n, hn, owner, name⟩ := Part.mem_attrs.mp hattr
      rcases touched with ⟨s, rfl, _⟩ | target
      · cases owner
      rcases mem_targets_plan target with rfl | ⟨other, ho, hattr'⟩ | ⟨_, _, _, _, rfl⟩
      · exact scope_not_typing part name
      · obtain ⟨m, hm, owner', name'⟩ := Part.mem_attrs.mp hattr'
        obtain rfl : n = m := Owner.node.inj (owner.symm.trans owner')
        obtain rfl := numbered.unique (mem_left.mp hp) ho hn hm
        exact typing_disjoint part _ name name'
      · cases owner
    · obtain ⟨n, hn, rfl⟩ := mem_map.mp symbol
      obtain ⟨owner, _, declared⟩ := mem_declarations_of_declared? h.bindings hn
      rcases touched with ⟨s, same, builtin⟩ | target
      · cases same
        have index : (symbolAt r n).index ∈ (declarations unit).map fun d => d.2.index :=
          mem_map_of_mem declared
        rw [map_snd_declarations, mem_range'_1] at index
        have below := hasSymbol_iff.mp builtin
        omega
      · rcases mem_targets_plan target with same | ⟨part, _, hattr⟩ | ⟨_, _, _, _, same⟩
        · cases same
        · obtain ⟨_, _, owned, _⟩ := Part.mem_attrs.mp hattr
          cases owned
        · cases same

/-! ### Rules stay within what fits -/

theorem decides_copyToSymbol {t : SymbolTable} {owner : Owner} {symbol : SymbolId}
    (simple : t.hasKind (fun kind => kind.members?.isNone) symbol = true) :
    (outlook t G).Decides (Rule.copy name (typeOf owner) (typeOf (.symbol symbol))) := by
  obtain ⟨s, hs, none⟩ := hasKind_iff.mp simple
  refine decides_copy fun v hv => ?_
  obtain ⟨type, rfl, coherent, _⟩ := hv.type rfl
  have kind : t.kind? symbol = some s.kind := by simp [kind?, hs]
  exact fits_symbol_type coherent
    (describes_of_members?_eq_none kind (by simpa using none) type)

variable {q : Request}

theorem exprRequests_decided (h : Done unit r) {e : Expr}
    (entered : .expr e expected ∈ unit.entered)
    (hq : q ∈ partRequests r (table unit) (.expr e expected)) : q.Decided (table unit) G := by
  have bound := h.bindings
  cases e with
  | literal tag value =>
    cases mem_singleton.mp hq
    exact fits_node_type (by cases value <;> trivial)
  | array tag elements =>
    cases elements with
    | nil =>
      cases mem_singleton.mp hq
      exact emptyArrayRequest_decided tag expected
    | cons e es =>
      cases mem_singleton.mp hq
      exact arrayRule_decides tag (e :: es)
  | reference tag name =>
    rw [reference_requests bound entered] at hq
    cases mem_singleton.mp hq
    exact decides_copyType
  | selfRef tag =>
    obtain ⟨around, site⟩ := exists_site entered
    obtain ⟨decl, _, requests⟩ := self_requests bound site (table unit)
    rw [requests] at hq
    cases mem_singleton.mp hq
    exact decides_copyType
  | unary tag op operand =>
    cases mem_singleton.mp hq
    exact unaryRule_decides tag op operand
  | binary tag op left right =>
    cases mem_singleton.mp hq
    exact binaryRule_decides tag op left right
  | assign tag target value =>
    cases mem_singleton.mp hq
    exact decides_copyType
  | call tag callee args =>
    cases mem_singleton.mp hq
    exact callRule_decides tag callee
  | methodCall tag receiver method args =>
    obtain ⟨rule, hrule, rfl⟩ := mem_map.mp hq
    exact methodRules_decide tag receiver method rule hrule
  | select tag object field =>
    cases mem_singleton.mp hq
    exact selectRule_decides tag object field
  | index tag object position =>
    cases mem_singleton.mp hq
    exact indexRule_decides tag object

theorem typeRequests_decided (h : Done unit r)
    (entered : .type written ∈ unit.entered)
    (hq : q ∈ partRequests r (table unit) (.type written)) : q.Decided (table unit) G := by
  cases written with
  | named tag name =>
    rw [named_requests h.bindings entered] at hq
    split at hq
    · cases mem_singleton.mp hq
      exact decides_copyType
    · cases mem_singleton.mp hq
      exact fun _ _ => trivial
  | array tag element =>
    cases mem_singleton.mp hq
    refine decides_mapType fun type coherent w hw => ?_
    cases hw
    exact fits_node_type coherent

theorem class_isClass (h : Bindings unit r)
    (entered : .classDecl decl ∈ unit.entered) :
    (table unit).hasKind (·.isClass) (symbolAt r decl.tag.id) = true := by
  have declared := (h.symbolAt entered rfl rfl).1
  refine hasKind_imp (hasKind_of_mem_declarations declared) fun k hk => ?_
  cases k <;> first | rfl | cases hk

/-- Only the rule for a class makes a class type. -/
theorem partRequests_decided (h : Done unit r) (entered : part ∈ unit.entered)
    (every : part.isClass = true → ∀ row rows, G row rows) :
    ∀ q ∈ partRequests r (table unit) part, q.Decided (table unit) G := by
  have bound := h.bindings
  have kind : ∀ {part n}, part ∈ unit.entered → isDeclaration part = true → part.id? = some n →
      (table unit).hasKind part.declares (symbolAt r n) = true := fun entered declares node =>
    hasKind_of_mem_declarations (bound.symbolAt entered declares node).1
  have varKind : ∀ {k : SymbolKind}, k.isVar = true → k.members?.isNone = true := by
    intro k hk
    cases k <;> first | rfl | cases hk
  have fieldKind : ∀ {k : SymbolKind}, k.isField = true → k.members?.isNone = true := by
    intro k hk
    cases k <;> first | rfl | cases hk
  intro q hq
  cases part with
  | function decl =>
    rw [function_requests bound entered] at hq
    cases mem_singleton.mp hq
    exact functionRule_decides (kind entered rfl rfl)
  | structDecl decl =>
    rw [struct_requests bound entered] at hq
    cases mem_singleton.mp hq
    obtain ⟨⟨_, _, k, _⟩, hs, hk⟩ := hasKind_iff.mp (kind entered rfl rfl)
    cases k <;> cases hk
    exact structRule_decides (by simp [kind?, hs]; rfl)
  | classDecl decl =>
    have declared := (bound.symbolAt entered rfl rfl).1
    rw [class_requests bound entered, h.superclass declared] at hq
    cases mem_singleton.mp hq
    exact classRule_decides (class_isClass bound entered) (every rfl)
  | param decl =>
    rw [param_requests bound entered] at hq
    cases mem_singleton.mp hq
    exact decides_copyToSymbol (hasKind_imp (kind entered rfl rfl) fun _ => varKind)
  | field decl =>
    rw [field_requests bound entered] at hq
    cases mem_singleton.mp hq
    exact decides_copyToSymbol (hasKind_imp (kind entered rfl rfl) fun _ => fieldKind)
  | varDecl decl =>
    cases hd : decl.type with
    | some written => simp [partRequests, hd] at hq
    | none =>
      rw [variable_requests bound entered hd] at hq
      cases mem_singleton.mp hq
      exact decides_copyToSymbol (hasKind_imp (kind entered rfl rfl) fun _ => varKind)
  | typed decl written =>
    obtain ⟨variable_, _⟩ := annotated_entered entered
    rw [annotation_requests bound entered] at hq
    cases mem_singleton.mp hq
    exact decides_copyToSymbol (hasKind_imp (kind variable_ rfl rfl) fun _ => varKind)
  | block body =>
    cases mem_singleton.mp hq
    exact blockRule_decides body
  | ifElse tag condition thenBranch elseBranch =>
    cases mem_singleton.mp hq
    exact ifRule_decides tag thenBranch elseBranch
  | whileLoop tag condition => cases hq
  | exprStmt tag => cases hq
  | returnStmt tag value =>
    cases mem_singleton.mp hq
    exact returnRequest_decided tag value
  | expr e expected => exact exprRequests_decided h entered hq
  | type written => exact typeRequests_decided h entered hq

end Types

end BlFront
