import BlFront.Proofs.Analysis.Kinds
import Mathlib.Data.List.Zip

/-!
# Rules that find types

What each rule of the pass over types computes from the types that it reads, and that the outcome
fits the table.
-/

namespace BlFront

open List SymbolTable

variable {decl : FunctionDecl} {fields methods : List SymbolId} {superclass : Option SymbolId}
  {span : Span} {method : String} {symbol : SymbolId} {table : SymbolTable} {tag : Tag}
  {result : Ty} {v w : Value} {view : View}

/-- The type that a value is. -/
def Value.asType : Value → Ty
  | .type found => found
  | _ => .any

variable {t : SymbolTable} {G : ClassRow → List ClassRow → Prop} {values : Attribute → Value}

theorem Fits.asType {attr : Attribute} (h : Fits t attr v G) (name : attr.name = .type) :
    v = .type v.asType ∧ v.asType.Coherent t G := by
  obtain ⟨type, rfl, coherent, _⟩ := h.type name
  exact ⟨rfl, coherent⟩

theorem mapM_extract {α : Type} {kind : Kind α} {attrs : List Attribute} {as : Attribute → α}
    (held : ∀ d ∈ attrs, kind.extract (values d) = some (as d)) :
    attrs.mapM (fun d => kind.extract (values d)) = some (attrs.map as) := by
  induction attrs with
  | nil => rfl
  | cons d attrs ih =>
    rw [mapM_cons, held d (by simp), ih fun d hd => held d (by simp [hd])]
    rfl

namespace Types

/-! ### Declarations -/

theorem memberTypes_eq_ok {typed : List (String × Attribute)} {types : Attribute → Ty}
    (declared : ∀ m ∈ typed, m.2 ∈ view.deps)
    (found : ∀ m ∈ typed, view.lookup m.2 = some (.type (types m.2))) :
    memberTypes view typed = .ok (typed.map fun m => ⟨m.1, types m.2⟩) := by
  induction typed with
  | nil => rfl
  | cons m typed ih =>
    have first : view.get Kind.type m.2 = .ok (types m.2) :=
      View.get_eq_ok (declared m (by simp)) (found m (by simp)) rfl
    have rest := ih (fun d hd => declared d (by simp [hd])) fun d hd => found d (by simp [hd])
    obtain ⟨name, attr⟩ := m
    simp only [memberTypes, first, rest, map_cons]
    rfl

/-- Members with the attributes that hold their types. -/
def typedMembers (names : List String) (symbols : List SymbolId) : List (String × Attribute) :=
  names.zip (typesOf symbols)

/-- The attribute that tells the return type of a function. -/
def resultAttr (decl : FunctionDecl) : Attribute :=
  match decl.returnType with
  | some written => typeOf written.id
  | none => AttrName.returnType.of decl.body.tag.id

/-- The return type of a function, given what its rule reads. -/
def Results (decl : FunctionDecl) (v : Value) (result : Ty) : Prop :=
  if decl.returnType.isSome then v = .type result
  else ∃ flow, v = .flow flow ∧ result = flow.type.getD .unit

theorem resultType_eq_ok (declared : resultAttr decl ∈ view.deps)
    (found : view.lookup (resultAttr decl) = some v) (returns : Results decl v result) :
    resultType view decl.returnType.isSome (resultAttr decl) = .ok result := by
  unfold Results at returns
  unfold resultType
  split
  · next annotated =>
      rw [if_pos annotated] at returns
      exact View.get_eq_ok declared found (by rw [returns]; rfl)
  · next unannotated =>
      rw [if_neg unannotated] at returns
      obtain ⟨flow, hv, rfl⟩ := returns
      have read : view.get Kind.flow (resultAttr decl) = .ok flow :=
        View.get_eq_ok declared found (by rw [hv]; rfl)
      rw [read]
      rfl

variable {params : List SymbolId}

theorem functionRule_computes (types : Attribute → Ty)
    (typed : ∀ m ∈ typedMembers (decl.params.map (·.name)) params, values m.2 = .type (types m.2))
    (returns : Results decl (values (resultAttr decl)) result) :
    (functionRule decl symbol params).Computes t values
      [.write (typeOf symbol) (.value (.type (.function
        ((typedMembers (decl.params.map (·.name)) params).map fun m => ⟨m.1, types m.2⟩) result)))] := by
  refine Rule.computing_computes fun view _ declared found => ?_
  have members : memberTypes view (typedMembers (decl.params.map (·.name)) params) =
      .ok ((typedMembers (decl.params.map (·.name)) params).map fun m => ⟨m.1, types m.2⟩) := by
    refine memberTypes_eq_ok (fun m hm => declared _ ?_) (fun m hm => ?_)
    · exact mem_append_left _ (mem_map_of_mem hm)
    · rw [found m.2 (mem_append_left _ (mem_map_of_mem hm)), typed m hm]
  have last : resultAttr decl ∈
      (typedMembers (decl.params.map (·.name)) params).map Prod.snd ++ [resultAttr decl] := by
    simp
  have read := resultType_eq_ok (declared _ last) (found _ last) returns
  change (memberTypes view (typedMembers (decl.params.map (·.name)) params) >>= fun params =>
    resultType view decl.returnType.isSome (resultAttr decl) >>= fun result => _) = _
  rw [members, read]
  rfl

/-- Members have types that fit where their rule reads types that do. -/
theorem typed_of_fits {names : List String} {symbols : List SymbolId}
    (held : ∀ d ∈ (names.zip (typesOf symbols)).map Prod.snd, Fits t d (values d) G) :
    (∀ m ∈ names.zip (typesOf symbols), values m.2 = .type (values m.2).asType) ∧
      membersCoherent t G ((names.zip (typesOf symbols)).map fun m => ⟨m.1, (values m.2).asType⟩) := by
  have each : ∀ m ∈ names.zip (typesOf symbols),
      values m.2 = .type (values m.2).asType ∧ (values m.2).asType.Coherent t G := by
    intro m hm
    obtain ⟨s, _, hs⟩ := mem_map.mp (of_mem_zip (a := m.1) (b := m.2) hm).2
    exact (held m.2 (mem_map_of_mem hm)).asType (by rw [← hs]; rfl)
  refine ⟨fun m hm => (each m hm).1, membersCoherent_iff.mpr fun x hx => ?_⟩
  obtain ⟨m, hm, rfl⟩ := mem_map.mp hx
  exact (each m hm).2

theorem results_of_fits (h : Fits t (resultAttr decl) v G) :
    ∃ result, Results decl v result ∧ result.Coherent t G := by
  unfold Results
  unfold resultAttr at h
  cases annotated : decl.returnType with
  | some written =>
    rw [annotated] at h
    obtain ⟨type, rfl, coherent, _⟩ := h.type rfl
    exact ⟨type, rfl, coherent⟩
  | none =>
    rw [annotated] at h
    obtain ⟨flow, rfl, coherent⟩ := h.flow rfl
    refine ⟨flow.type.getD .unit, ⟨flow, rfl, rfl⟩, ?_⟩
    cases hf : flow.type with
    | none => trivial
    | some type => exact coherent type hf

theorem functionRule_decides
    (callable : t.hasKind (·.isCallable) symbol = true) :
    (outlook t G).Decides (functionRule decl symbol params) := by
  refine decides_computing fun values held => ?_
  obtain ⟨typed, members⟩ := typed_of_fits fun d hd => held d (mem_append_left _ hd)
  obtain ⟨result, returns, coherent⟩ : ∃ result, Results decl (values (resultAttr decl)) result ∧
      result.Coherent t G :=
    results_of_fits (held _ (mem_append_right _ (.head _)))
  refine ⟨_, functionRule_computes (fun d => (values d).asType) typed returns, rfl, ?_⟩
  intro attr v hw
  cases mem_singleton.mp hw
  exact fits_symbol_type ⟨members, coherent⟩ ((describes_callable callable).mpr ⟨_, _, rfl⟩)

theorem structRule_computes {decl : StructDecl} (types : Attribute → Ty)
    (typed : ∀ d ∈ typesOf fields, values d = .type (types d)) :
    (structRule table decl symbol fields).Computes t values
      [.write (typeOf symbol) (.value (.type (.struct symbol (table.qualifiedName symbol "_")
        ((decl.fields.map (·.name)).zipWith Member.mk ((typesOf fields).map types)))))] :=
  Rule.flatMap_computes _ (mapM_extract fun d hd => by rw [typed d hd]; rfl) _ _

theorem structRule_decides {decl : StructDecl} {members : ScopeId}
    (isStruct : t.kind? symbol = some (.structType members)) :
    (outlook t G).Decides (structRule table decl symbol fields) := by
  refine decides_flatMap (Ty.Coherent t G) ?_ ?_
  · intro d hd
    obtain ⟨s, _, rfl⟩ := mem_map.mp hd
    exact extract_type rfl
  · intro types coherent w hw
    cases hw
    have present : t.hasSymbol symbol = true := by
      obtain ⟨s, hs, _⟩ := Option.map_eq_some_iff.mp isStruct
      exact hasSymbol_of_symbol? hs
    refine fits_symbol_type ⟨present, membersCoherent_iff.mpr fun m hm => ?_⟩ ?_
    · rw [← map_uncurry_zip_eq_zipWith] at hm
      obtain ⟨⟨name, type⟩, hzip, rfl⟩ := mem_map.mp hm
      exact coherent type (of_mem_zip hzip).2
    · simp [SymbolTable.Describes, isStruct]

/-- The attribute that holds the type of a superclass. -/
def above (superclass : Option SymbolId) : Option Attribute :=
  superclass.map fun s => typeOf (.symbol s)

/-- The superclasses of a class, given what its rule reads. -/
def Supers (values : Attribute → Value) : Option SymbolId → List ClassRow → Prop
  | none, rows => rows = []
  | some superclass, rows => ∃ own supers,
      values (typeOf superclass) = .type (.object own supers) ∧ rows = own :: supers

variable {rows : List ClassRow}

theorem superChain_eq_ok
    (declared : ∀ d ∈ (above superclass).toList, d ∈ view.deps)
    (found : ∀ d ∈ (above superclass).toList, view.lookup d = some (values d))
    (supers : Supers values superclass rows) : superChain view (above superclass) = .ok rows := by
  cases superclass with
  | none =>
    cases supers
    rfl
  | some s =>
    obtain ⟨own, rest, held, rfl⟩ := supers
    have read : view.get Kind.type (typeOf (.symbol s)) = .ok (.object own rest) :=
      View.get_eq_ok (declared _ (by simp [above])) (found _ (by simp [above]))
        (by rw [held]; rfl)
    simp only [above, Option.map_some, superChain, read]
    rfl

theorem classRule_eq (table : SymbolTable) (decl : ClassDecl) (symbol : SymbolId)
    (superclass : Option SymbolId) (fields methods : List SymbolId) :
    classRule table decl symbol superclass fields methods =
      .computing "type class"
        ((typedMembers (decl.fields.map (·.name)) fields ++
          typedMembers (decl.methods.map (·.name)) methods).map Prod.snd ++
          (above superclass).toList) [typeOf symbol] fun view => do
        let fields ← memberTypes view (typedMembers (decl.fields.map (·.name)) fields)
        let methods ← memberTypes view (typedMembers (decl.methods.map (·.name)) methods)
        let supers ← superChain view (above superclass)
        return [.write (typeOf symbol) (.value (.type (.object
          ⟨symbol, table.qualifiedName symbol "_", fields, methods⟩ supers)))] := by
  cases superclass <;> rfl

theorem classRule_computes {decl : ClassDecl} (types : Attribute → Ty)
    (typedFields : ∀ m ∈ typedMembers (decl.fields.map (·.name)) fields,
      values m.2 = .type (types m.2))
    (typedMethods : ∀ m ∈ typedMembers (decl.methods.map (·.name)) methods,
      values m.2 = .type (types m.2))
    (supers : Supers values superclass rows) :
    (classRule table decl symbol superclass fields methods).Computes t values
      [.write (typeOf symbol) (.value (.type (.object
        ⟨symbol, table.qualifiedName symbol "_",
          (typedMembers (decl.fields.map (·.name)) fields).map fun m => ⟨m.1, types m.2⟩,
          (typedMembers (decl.methods.map (·.name)) methods).map fun m => ⟨m.1, types m.2⟩⟩
        rows)))] := by
  rw [classRule_eq]
  refine Rule.computing_computes fun view _ declared found => ?_
  have member : ∀ m ∈ typedMembers (decl.fields.map (·.name)) fields ++
      typedMembers (decl.methods.map (·.name)) methods,
      m.2 ∈ view.deps ∧ view.lookup m.2 = some (values m.2) := by
    intro m hm
    have dep := mem_append_left (above superclass).toList (mem_map_of_mem (f := Prod.snd) hm)
    exact ⟨declared _ dep, found _ dep⟩
  have fieldTypes := memberTypes_eq_ok
    (fun m hm => (member m (mem_append_left _ hm)).1)
    fun m hm => (typedFields m hm) ▸ (member m (mem_append_left _ hm)).2
  have methodTypes := memberTypes_eq_ok
    (fun m hm => (member m (mem_append_right _ hm)).1)
    fun m hm => (typedMethods m hm) ▸ (member m (mem_append_right _ hm)).2
  have chain := superChain_eq_ok (fun d hd => declared d (mem_append_right _ hd))
    (fun d hd => found d (mem_append_right _ hd)) supers
  rw [fieldTypes, methodTypes, chain]
  rfl

theorem supers_of_fits (isClass : ∀ s, superclass = some s → t.hasKind (·.isClass) s = true)
    (held : ∀ d ∈ (above superclass).toList, Fits t d (values d) G) :
    ∃ rows, Supers values superclass rows ∧ rowsCoherent t G rows ∧
      ∀ symbol, t.superclass? symbol = superclass → t.Line symbol (rows.map (·.symbol)) := by
  cases superclass with
  | none => exact ⟨[], rfl, trivial, fun symbol h => h⟩
  | some s =>
    obtain ⟨type, hv, coherent, describes⟩ := (held (typeOf (.symbol s)) (by simp [above])).type rfl
    obtain ⟨own, supers, rfl, rfl⟩ :=
      (describes_class (isClass s rfl)).mp (describes s rfl)
    obtain ⟨_, line, rows⟩ := Ty.coherent_object.mp coherent
    exact ⟨own :: supers, ⟨own, supers, hv, rfl⟩, rows, fun symbol h => ⟨h, line⟩⟩

/-- The rule for a class makes one class type, which fits if what is asked of class types holds of
it. -/
theorem classRule_writes {decl : ClassDecl} (isClass : t.hasKind (·.isClass) symbol = true)
    (held : ∀ d ∈ (classRule table decl symbol (t.superclass? symbol) fields methods).deps,
      Fits t d (values d) G) : ∃ own supers, own.symbol = symbol ∧
    (classRule table decl symbol (t.superclass? symbol) fields methods).Computes t values
      [.write (typeOf symbol) (.value (.type (.object own supers)))] ∧
    (G own supers → Fits t (typeOf symbol) (.type (.object own supers)) G) := by
  rw [classRule_eq] at held
  have dep : ∀ d ∈ (typedMembers (decl.fields.map (·.name)) fields ++
      typedMembers (decl.methods.map (·.name)) methods).map Prod.snd, Fits t d (values d) G :=
    fun d hd => held d (mem_append_left _ hd)
  rw [map_append] at dep
  obtain ⟨typedFields, fieldsFit⟩ := typed_of_fits fun d hd => dep d (mem_append_left _ hd)
  obtain ⟨typedMethods, methodsFit⟩ := typed_of_fits fun d hd => dep d (mem_append_right _ hd)
  obtain ⟨rows, supers, rowsFit, line⟩ := supers_of_fits
    (fun s hs => superclass?_isClass hs) fun d hd => held d (mem_append_right _ hd)
  refine ⟨_, rows, rfl,
    classRule_computes (fun d => (values d).asType) typedFields typedMethods supers, fun good => ?_⟩
  refine fits_symbol_type ?_ ((describes_class isClass).mpr ⟨_, _, rfl, rfl⟩)
  exact Ty.coherent_object.mpr ⟨isClass, line symbol rfl, fieldsFit, methodsFit, good, rowsFit⟩

theorem classRule_decides {decl : ClassDecl} (isClass : t.hasKind (·.isClass) symbol = true)
    (every : ∀ row rows, G row rows) :
    (outlook t G).Decides (classRule table decl symbol (t.superclass? symbol) fields methods) := by
  refine ⟨⟨_, rfl⟩, fun values held => ?_⟩
  obtain ⟨own, supers, _, computes, fits⟩ := classRule_writes isClass held
  refine ⟨_, computes, rfl, fun w hw => ?_⟩
  cases mem_singleton.mp hw
  exact fits (every own supers)

/-! ### Statements -/

theorem blockRule_computes {block : Block} (flows : Attribute → ReturnFlow)
    (held : ∀ d ∈ AttrName.returnType.ofNodes (contributing block.statements),
      values d = .flow (flows d)) :
    (blockRule block).Computes t values
      [.write (AttrName.returnType.of block.tag.id) (.value (.flow (.sequence
        ((AttrName.returnType.ofNodes (contributing block.statements)).map flows))))] :=
  Rule.flatMap_computes _ (mapM_extract fun d hd => by rw [held d hd]; rfl) _ _

theorem blockRule_decides (block : Block) : (outlook t G).Decides (blockRule block) := by
  refine decides_flatMap (ReturnFlow.Coherent t G) ?_ ?_
  · intro d hd
    obtain ⟨n, _, rfl⟩ := mem_map.mp hd
    exact extract_flow rfl
  · intro flows coherent w hw
    cases hw
    exact ⟨rfl, ReturnFlow.sequenceFrom_coherent (by simp) coherent⟩

/-- The flow of a branch, given what its rule reads. -/
def Branches (values : Attribute → Value) : Option Attribute → ReturnFlow → Prop
  | some attr, flow => values attr = .flow flow
  | none, flow => flow = .fallsThrough

variable {branch : Option Attribute}

theorem branchFlow_eq_ok {flow : ReturnFlow}
    (declared : ∀ d ∈ branch.toList, d ∈ view.deps)
    (found : ∀ d ∈ branch.toList, view.lookup d = some (values d))
    (branches : Branches values branch flow) : branchFlow view branch = .ok flow := by
  cases branch with
  | none =>
    cases branches
    rfl
  | some attr =>
    exact View.get_eq_ok (declared attr (by simp)) (found attr (by simp))
      (by rw [show values attr = .flow flow from branches]; rfl)

theorem ifRule_computes {thenBranch : Stmt} {elseBranch : Option Stmt} {first second : ReturnFlow}
    (hfirst : Branches values (flowOf? thenBranch) first)
    (hsecond : Branches values (elseBranch.bind flowOf?) second) :
    (ifRule tag thenBranch elseBranch).Computes t values
      [.write (AttrName.returnType.of tag.id)
        (.value (.flow (.branch elseBranch.isSome first second)))] := by
  refine Rule.computing_computes fun view _ declared found => ?_
  have readFirst := branchFlow_eq_ok (fun d hd => declared d (mem_append_left _ hd))
    (fun d hd => found d (mem_append_left _ hd)) hfirst
  have readSecond := branchFlow_eq_ok (fun d hd => declared d (mem_append_right _ hd))
    (fun d hd => found d (mem_append_right _ hd)) hsecond
  rw [readFirst, readSecond]
  rfl

theorem branches_of_fits
    (name : ∀ d ∈ branch.toList, d.name = .returnType)
    (held : ∀ d ∈ branch.toList, Fits t d (values d) G) :
    ∃ flow, Branches values branch flow ∧ flow.Coherent t G := by
  cases branch with
  | none => exact ⟨_, rfl, ReturnFlow.fallsThrough_coherent⟩
  | some attr =>
    obtain ⟨flow, hv, coherent⟩ := (held attr (by simp)).flow (name attr (by simp))
    exact ⟨flow, hv, coherent⟩

theorem name_of_mem_flowOf? {branch : Stmt} {d : Attribute} (h : d ∈ (flowOf? branch).toList) :
    d.name = .returnType := by
  unfold flowOf? at h
  split at h
  · rw [mem_singleton.mp h]
    rfl
  · cases h

theorem ifRule_decides (tag : Tag) (thenBranch : Stmt) (elseBranch : Option Stmt) :
    (outlook t G).Decides (ifRule tag thenBranch elseBranch) := by
  refine decides_computing fun values held => ?_
  obtain ⟨first, hfirst, coherent⟩ := branches_of_fits (fun d hd => name_of_mem_flowOf? hd)
    fun d hd => held d (mem_append_left _ hd)
  have elseName : ∀ d ∈ (elseBranch.bind flowOf?).toList, d.name = .returnType := by
    cases elseBranch with
    | none => simp
    | some branch => exact fun d hd => name_of_mem_flowOf? hd
  obtain ⟨second, hsecond, coherent'⟩ := branches_of_fits elseName
    fun d hd => held d (mem_append_right _ hd)
  refine ⟨_, ifRule_computes hfirst hsecond, rfl, ?_⟩
  intro attr v hw
  cases mem_singleton.mp hw
  exact ⟨rfl, ReturnFlow.branch_coherent coherent coherent'⟩

theorem returnRequest_decided (tag : Tag) (value : Option Expr) :
    (returnRequest tag value).Decided t G := by
  cases value with
  | none => exact ⟨rfl, ReturnFlow.returning_coherent trivial⟩
  | some e =>
    refine decides_mapType fun type coherent w hw => ?_
    cases hw
    exact ⟨rfl, ReturnFlow.returning_coherent coherent⟩

/-! ### Expressions -/

theorem problemAt_eq_ok {result : Except TypeProblem Ty} :
    problemAt span result = .ok v ↔ ∃ type, result = .ok type ∧ v = .type type := by
  cases result <;> simp [problemAt, eq_comm]

theorem unaryResult_coherent {op : UnaryOp} {operand : Ty} (h : op.result operand = .ok result) :
    result.Coherent t G := by
  unfold UnaryOp.result at h
  split at h <;> cases h <;> trivial

variable {op : BinaryOp}

theorem binaryResult_coherent {left right : Ty}
    (h : op.result left right = .ok result) : result.Coherent t G := by
  unfold BinaryOp.result at h
  split at h
  · split at h <;> cases h <;> trivial
  · cases h
    trivial

theorem unaryRule_decides (tag : Tag) (op : UnaryOp) (operand : Expr) :
    (outlook t G).Decides (unaryRule tag op operand) := by
  refine decides_mapType fun type _ w hw => ?_
  obtain ⟨result, hresult, rfl⟩ := problemAt_eq_ok.mp hw
  exact fits_node_type (unaryResult_coherent hresult)

theorem binaryRule_computes {left right : Expr} {a b : Ty}
    (hleft : values (typeOf left.id) = .type a) (hright : values (typeOf right.id) = .type b) :
    (binaryRule tag op left right).Computes t values
      [.write (typeOf tag.id) (.ofResult (problemAt tag.span (op.result a b)))] := by
  refine Rule.computing_computes fun view _ declared found => ?_
  have readLeft : view.get Kind.type (typeOf left.id) = .ok a :=
    View.get_eq_ok (declared _ (by simp)) (found _ (by simp)) (by rw [hleft]; rfl)
  have readRight : view.get Kind.type (typeOf right.id) = .ok b :=
    View.get_eq_ok (declared _ (by simp)) (found _ (by simp)) (by rw [hright]; rfl)
  rw [readLeft, readRight]
  rfl

theorem binaryRule_decides (tag : Tag) (op : BinaryOp) (left right : Expr) :
    (outlook t G).Decides (binaryRule tag op left right) := by
  refine decides_computing fun values held => ?_
  obtain ⟨hleft, _⟩ := (held (typeOf left.id) (by simp)).asType rfl
  obtain ⟨hright, _⟩ := (held (typeOf right.id) (by simp)).asType rfl
  refine ⟨_, binaryRule_computes hleft hright, rfl, fits_ofResult fun w hw => ?_⟩
  obtain ⟨result, hresult, rfl⟩ := problemAt_eq_ok.mp hw
  exact fits_node_type (binaryResult_coherent hresult)

theorem callRule_decides (tag : Tag) (callee : Expr) :
    (outlook t G).Decides (callRule tag callee) := by
  refine decides_mapType fun type coherent w hw => ?_
  cases type with
  | function params result =>
    cases hw
    exact fits_node_type coherent.2
  | struct symbol name fields =>
    cases hw
    exact fits_node_type coherent
  | object own supers =>
    cases hw
    exact fits_node_type coherent
  | _ => cases hw

theorem rows_members_coherent {own : ClassRow} {supers : List ClassRow}
    (coherent : (Ty.object own supers).Coherent t G) :
    ∀ row ∈ own :: supers, membersCoherent t G row.fields ∧ membersCoherent t G row.methods :=
  rowsCoherent_members (Ty.coherent_object.mp coherent).2.2

theorem methodMeaning_fits {receiver : Ty} {node : NodeId}
    (h : methodMeaning span method receiver t = .ok w) : Fits t (AttrName.symbol.of node) w G := by
  unfold methodMeaning at h
  split at h
  · split at h
    · next s found =>
        cases h
        exact .inl ⟨rfl, hasSymbol_of_hasKind (findMember?_hasKind found)⟩
    · cases h
  · cases h

theorem methodResult_coherent {receiver : Ty} (coherent : receiver.Coherent t G)
    (h : methodResult span method receiver = .ok w) :
    ∃ type, w = .type type ∧ type.Coherent t G := by
  unfold methodResult at h
  dsimp only at h
  split at h
  · next params result found =>
      cases h
      cases receiver with
      | object own supers =>
        have fits := ClassRow.lookup?_coherent
          (fun row hrow => (rows_members_coherent coherent row hrow).2) found
        exact ⟨result, rfl, fits.2⟩
      | _ => cases found
  · cases h

/-- The rule that finds the type of a call of a method. -/
def methodTypeRule (tag : Tag) (receiver : Expr) (method : String) : Rule :=
  .computing "type method call" [typeOf receiver.id, AttrName.symbol.of tag.id] [typeOf tag.id]
    fun view => do
      let type ← view.get Kind.type (typeOf receiver.id)
      return [.write (typeOf tag.id) (.ofResult (methodResult tag.span method type))]

variable {type : Ty}

theorem methodTypeRule_computes {receiver : Expr}
    (held : values (typeOf receiver.id) = .type type) :
    (methodTypeRule tag receiver method).Computes t values
      [.write (typeOf tag.id) (.ofResult (methodResult tag.span method type))] := by
  refine Rule.computing_computes fun view _ declared found => ?_
  have read : view.get Kind.type (typeOf receiver.id) = .ok type :=
    View.get_eq_ok (declared _ (by simp)) (found _ (by simp)) (by rw [held]; rfl)
  rw [read]
  rfl

theorem methodRules_decide (tag : Tag) (receiver : Expr) (method : String) :
    ∀ rule ∈ methodRules tag receiver method, (outlook t G).Decides rule := by
  intro rule hrule
  rcases mem_pair.mp hrule with rfl | rfl
  · exact decides_mapType fun type _ w hw => methodMeaning_fits hw
  · change (outlook t G).Decides (methodTypeRule tag receiver method)
    refine decides_computing fun values held => ?_
    obtain ⟨hv, coherent⟩ := (held (typeOf receiver.id) (by simp)).asType rfl
    refine ⟨_, methodTypeRule_computes hv, rfl, fits_ofResult fun w hw => ?_⟩
    obtain ⟨type, rfl, result⟩ := methodResult_coherent coherent hw
    exact fits_node_type result

theorem fieldNamed_eq_ok {field owner : String} {found : Option Ty}
    (h : fieldNamed span field owner found = .ok w) :
    ∃ type, found = some type ∧ w = .type type := by
  cases found with
  | none => cases h
  | some type =>
    cases h
    exact ⟨type, rfl, rfl⟩

theorem selectRule_decides (tag : Tag) (object : Expr) (field : String) :
    (outlook t G).Decides (selectRule tag object field) := by
  refine decides_mapType fun type coherent w hw => ?_
  cases type with
  | struct symbol name fields =>
    obtain ⟨found, hfound, rfl⟩ := fieldNamed_eq_ok hw
    exact fits_node_type (Member.lookup?_coherent coherent.2 hfound)
  | object own supers =>
    obtain ⟨found, hfound, rfl⟩ := fieldNamed_eq_ok hw
    exact fits_node_type (ClassRow.lookup?_coherent
      (fun row hrow => (rows_members_coherent coherent row hrow).1) hfound)
  | _ => cases hw

theorem indexRule_decides (tag : Tag) (object : Expr) :
    (outlook t G).Decides (indexRule tag object) := by
  refine decides_mapType fun type coherent w hw => ?_
  cases type with
  | array element =>
    cases hw
    exact fits_node_type coherent
  | _ => cases hw

theorem arrayRule_computes {elements : List Expr} (types : Attribute → Ty)
    (held : ∀ d ∈ elements.map (fun e => typeOf e.id), values d = .type (types d)) :
    (arrayRule tag elements).Computes t values
      [.write (typeOf tag.id) (.value (.type (.array
        (joinAll ((elements.map fun e => typeOf e.id).map types)))))] :=
  Rule.flatMap_computes _ (mapM_extract fun d hd => by rw [held d hd]; rfl) _ _

theorem arrayRule_decides (tag : Tag) (elements : List Expr) :
    (outlook t G).Decides (arrayRule tag elements) := by
  refine decides_flatMap (Ty.Coherent t G) ?_ ?_
  · intro d hd
    obtain ⟨e, _, rfl⟩ := mem_map.mp hd
    exact extract_type rfl
  · intro types coherent w hw
    cases hw
    exact fits_node_type (joinAll_coherent coherent)

theorem peelArrays_coherent {depth : Nat} {peeled : Ty} (coherent : type.Coherent t G)
    (h : peelArrays depth type = some peeled) : peeled.Coherent t G := by
  induction depth generalizing type with
  | zero =>
    cases h
    exact coherent
  | succ depth ih =>
    cases type with
    | array element =>
      have inner : element.Coherent t G := coherent
      exact ih inner h
    | _ => cases h

theorem emptyArrayRequest_decided (tag : Tag) (expected : Option Expected) :
    (emptyArrayRequest tag expected).Decided t G := by
  cases expected with
  | none => exact fun _ _ => trivial
  | some e =>
    refine decides_mapType fun type coherent w hw => ?_
    split at hw
    · next element found =>
        cases hw
        exact fits_node_type (peelArrays_coherent coherent found)
    · cases hw

end Types

end BlFront
