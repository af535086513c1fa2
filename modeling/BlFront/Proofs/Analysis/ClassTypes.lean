import BlFront.Proofs.Reactor.Derivation
import BlFront.Proofs.Analysis.Soundness
import BlFront.Proofs.Symbol.Lines

/-!
# Class types agree with declarations

Wherever a class type occurs in what an analysis has found, be it deep inside another type, it is the
type of its symbol.  So its chain is the line of superclasses that the table gives, its members are
those that the classes of the line declare, and all its occurrences are the same.
-/

namespace BlFront

open List SymbolTable CompilationUnit

variable {attr : Attribute} {v : Value}

/-! ### Occurrences -/

/-- A type occurs in what an attribute holds. -/
def Ty.OccursIn (inner : Ty) : Value → Prop
  | .type outer => inner.Occurs outer
  | .flow flow => ∃ outer, flow.type = some outer ∧ inner.Occurs outer
  | _ => False

variable {t : SymbolTable} {G : ClassRow → List ClassRow → Prop} {own : ClassRow}
  {supers : List ClassRow}

theorem Ty.Occurs.coherent {inner outer : Ty} (h : inner.Occurs outer)
    (coherent : outer.Coherent t G) : inner.Coherent t G := by
  induction h with
  | here => exact coherent
  | element _ ih => exact ih coherent
  | param mem _ ih => exact ih (membersCoherent_iff.mp coherent.1 _ mem)
  | result _ ih => exact ih coherent.2
  | structField mem _ ih => exact ih (membersCoherent_iff.mp coherent.2 _ mem)
  | field mem _ ih =>
    have rows := rowsCoherent_cons.mp (Ty.coherent_object.mp coherent).2.2
    exact ih (membersCoherent_iff.mp rows.1 _ mem)
  | method mem _ ih =>
    have rows := rowsCoherent_cons.mp (Ty.coherent_object.mp coherent).2.2
    exact ih (membersCoherent_iff.mp rows.2.1 _ mem)
  | superclass _ ih =>
    obtain ⟨_, line, rows⟩ := Ty.coherent_object.mp coherent
    exact ih (Ty.coherent_object.mpr
      ⟨superclass?_isClass line.1, line.2, (rowsCoherent_cons.mp rows).2.2.2⟩)

/-- What is asked of class types holds wherever one occurs. -/
theorem Fits.of_occursIn (fits : Fits t attr v G) (inside : (Ty.object own supers).OccursIn v) :
    G own supers := by
  have good : (Ty.object own supers).Coherent t G := by
    cases v with
    | type type => exact inside.coherent fits.2.1
    | flow flow =>
      obtain ⟨type, found, inside⟩ := inside
      exact inside.coherent (fits.2 type found)
    | _ => cases inside
  exact (rowsCoherent_cons.mp (Ty.coherent_object.mp good).2.2).2.2.1

namespace Analysis

open Names

variable {unit : CompilationUnit} {a a₁ a₂ : Analysis}

theorem eq_classDecl_of_isClass {part : Part} (h : part.isClass = true) :
    ∃ decl, part = .classDecl decl := by
  cases part with
  | classDecl decl => exact ⟨decl, rfl⟩
  | _ => cases h

/-! ### Before the pass over types -/

theorem type_not_named (part : Part) :
    AttrName.type ∉ entering part ++ leaving part ∧
      AttrName.returnType ∉ entering part ++ leaving part := by
  cases part with
  | expr e expected => cases e <;> simp [entering, leaving]
  | type t => cases t <;> simp [entering, leaving]
  | _ => simp [entering, leaving]

/-- Before the pass over types, only builtin symbols have types. -/
theorem Named.typed_builtin (h : Named unit a) (held : a.reactor.get? attr = some v)
    (name : attr.name = .type ∨ attr.name = .returnType) :
    ∃ p ∈ builtinTypes, attr = typeOf (.symbol p.1) ∧ v = .type p.2 := by
  rcases h.done.only (Reactor.get?_eq_some.mp held) with ⟨s, rfl, builtin⟩ | target
  · obtain ⟨type, listed⟩ := mem_builtinTypes builtin
    cases held.symm.trans (h.types _ listed)
    exact ⟨_, listed, rfl, rfl⟩
  · rcases mem_targets_plan target with rfl | ⟨part, _, listed⟩ | ⟨_, _, _, _, rfl⟩
    · rcases name with name | name <;> cases name
    · obtain ⟨_, _, _, asked⟩ := Part.mem_attrs.mp listed
      rcases name with name | name
      · exact absurd (name ▸ asked) (type_not_named part).1
      · exact absurd (name ▸ asked) (type_not_named part).2
    · rcases name with name | name <;> cases name

/-- So whatever is asked of class types holds of all that are known then. -/
theorem Named.fits (h : Named unit a) (held : a.reactor.get? attr = some v) :
    Fits (table unit) attr v G := by
  have fits : Fits (table unit) attr v := h.done.settled.healthy.holds held
  cases v with
  | type type =>
    obtain ⟨p, mem, rfl, same⟩ := h.typed_builtin held (.inl fits.1)
    cases same
    exact builtinTypes_fit (table_grows unit) p mem
  | flow flow =>
    obtain ⟨p, _, _, same⟩ := h.typed_builtin held (.inr fits.1)
    cases same
  | _ => exact fits

/-! ### Occurrences after it -/

theorem Typed.prepared (h : Typed unit a₁ a₂) (numbered : unit.WellNumbered) :
    Reactor.Prepared (outlook (table unit)) (Types.plan unit (table unit) a₁.reactor) a₁.reactor := by
  have ready := h.named.ready numbered
  have plan := h.named.plan_eq
  have prepared : Reactor.Prepared (outlook (a₁.plan .resolveTypes).1) (a₁.plan .resolveTypes).2
      a₁.reactor :=
    ⟨ready.settled, ready.distinct, ready.fresh, ready.admitted,
      fun _ asked => h.named.decided _ asked⟩
  rwa [plan] at prepared

theorem Typed.runPass_eq (h : Typed unit a₁ a₂) :
    a₁.reactor.runPass (table unit) (Types.plan unit (table unit) a₁.reactor) = .ok a₂.reactor := by
  have ran := runPass_of_advance h.ran.advanced
  rwa [h.named.plan_eq] at ran

/-- Every class type in what is found is the type of its symbol. -/
theorem Typed.fits_hasType (h : Typed unit a₁ a₂) (numbered : unit.WellNumbered)
    (held : a₂.reactor.get? attr = some v) :
    Fits (table unit) attr v fun own supers =>
      a₂.typing.HasType own.symbol (.object own supers) := by
  have done := h.named.done
  -- by the derivation of the value: only the rule for a class makes a class type, as the type of the
  -- symbol of the class
  induction (h.prepared numbered).derives h.runPass_eq held with
  | before known => exact h.named.fits known
  | seeded asked =>
    obtain ⟨part, left, mem⟩ := mem_flatMap.mp asked
    refine Types.partRequests_decided done (mem_left.mp left) (fun isClass => ?_) _ mem
    obtain ⟨decl, rfl⟩ := eq_classDecl_of_isClass isClass
    rw [h.class_requests (mem_left.mp left)] at mem
    cases mem_singleton.mp mem
  | @computed rule values effects attr v asked inputs computes written ih =>
    have known := fun d dep => Reactor.Prepared.get?_of_derives h.passed (inputs d dep)
    have fits := fun d dep => ih d dep (known d dep)
    obtain ⟨part, left, mem⟩ := mem_flatMap.mp asked
    have entered := mem_left.mp left
    by_cases isClass : part.isClass = true
    · obtain ⟨decl, rfl⟩ := eq_classDecl_of_isClass isClass
      rw [h.class_requests entered] at mem
      cases mem_singleton.mp mem
      obtain ⟨own, supers, symbol, computes', good⟩ := Types.classRule_writes
        (Types.class_isClass done.bindings entered) fits
      cases computes.unique computes'
      cases mem_singleton.mp written
      exact good (hasType_iff.mpr (symbol ▸ held))
    · obtain ⟨effects', computes', _, allows⟩ := (Types.partRequests_decided done entered
        (fun yes => absurd yes isClass) _ mem).computes values fits
      cases computes.unique computes'
      exact allows _ written

/-! ### Declarations -/

/-- A row of a class type says what a class of the unit declares. -/
structure DeclaresRow (a : Analysis) (unit : CompilationUnit) (decl : ClassDecl) (row : ClassRow) :
    Prop where
  declared : ∃ near, unit.HasStmt near (.classDecl decl)
  means : a.typing.Means decl.tag.id row.symbol
  fields : a.typing.Declares (decl.fields.map fun f => (f.name, f.tag.id)) row.fields
  methods : a.typing.Declares (decl.methods.map fun f => (f.name, f.tag.id)) row.methods

/-- A symbol of a kind that no builtin has is declared in the unit. -/
theorem Typed.exists_declaring (h : Typed unit a₁ a₂) (wanted : SymbolKind → Bool) {s : SymbolId}
    (none : ∀ i < initial.symbols.length,
      initial.hasKind wanted ⟨i⟩ = false)
    (has : (table unit).hasKind wanted s = true) : ∃ part kind, part ∈ unit.entered ∧
      part.declares kind = true ∧ wanted kind = true ∧
        ∀ n, part.id? = some n → symbolAt a₁.reactor n = s := by
  rcases hasSymbol_cases (hasSymbol_of_hasKind has) with builtin | ⟨part, declared⟩
  · rw [(table_grows unit).hasKind_eq builtin, none _ (hasSymbol_iff.mp builtin)] at has
    cases has
  · obtain ⟨_, found, declares⟩ := hasKind_iff.mp (hasKind_of_mem_declarations declared)
    obtain ⟨_, found', isWanted⟩ := hasKind_iff.mp has
    cases found.symm.trans found'
    exact ⟨part, _, (entered_of_mem_declarations declared).1, declares, isWanted, fun n node =>
      Names.symbolAt_eq (h.named.done.bindings.declared _ declared n node)⟩

theorem Typed.exists_classDecl (h : Typed unit a₁ a₂) {s : SymbolId}
    (isClass : (table unit).hasKind (·.isClass) s = true) :
    ∃ decl, .classDecl decl ∈ unit.entered ∧ symbolAt a₁.reactor decl.tag.id = s := by
  obtain ⟨part, kind, entered, declares, isClass, symbol⟩ :=
    h.exists_declaring (·.isClass) (by decide) isClass
  cases kind <;> cases isClass
  cases part with
  | classDecl decl => exact ⟨decl, entered, symbol _ rfl⟩
  | _ => cases declares

theorem Typed.declaresRow (h : Typed unit a₁ a₂) (numbered : unit.WellNumbered)
    (typed : a₂.typing.HasType own.symbol (.object own supers)) :
    (∃ decl, a₂.DeclaresRow unit decl own) ∧ a₂.typing.Above own.symbol supers := by
  have held := hasType_iff.mp typed
  have fits : Fits (table unit) _ _ := h.settled.healthy.holds held
  obtain ⟨decl, entered, symbol⟩ := h.exists_classDecl (Ty.coherent_object.mp fits.2.1).1
  have requests := h.class_requests entered
  rw [symbol] at requests
  have asked : .register _ ∈ Types.plan unit (table unit) a₁.reactor := mem_flatMap.mpr
    ⟨.classDecl decl, mem_left.mpr entered, requests ▸ mem_singleton_self _⟩
  have valued := (h.prepared numbered).deps_valued h.runPass_eq asked (.head _) held
  rw [Types.classRule_eq] at valued
  obtain ⟨name, fields, methods, supers', typed', declaresFields, declaresMethods, above⟩ :=
    h.class_declared entered (by unfold classReads; rw [symbol]; exact valued)
  rw [symbol] at typed' above
  have bound := (h.named.done.bindings.symbolAt entered rfl rfl).2
  rw [symbol] at bound
  obtain ⟨s, _, _, _⟩ := own
  cases typed'.symm.trans typed
  exact ⟨⟨decl, stands_of_entered entered, means_iff.mpr (h.passed.keeps.get? bound),
    declaresFields, declaresMethods⟩, above⟩

/-- Every class of the chain of a class type is declared with the members that it has there. -/
theorem Typed.declaresRows (h : Typed unit a₁ a₂) (numbered : unit.WellNumbered)
    (typed : a₂.typing.HasType own.symbol (.object own supers)) :
    ∃ decls, List.Forall₂ (a₂.DeclaresRow unit) decls (own :: supers) := by
  induction supers generalizing own with
  | nil =>
    obtain ⟨⟨decl, declared⟩, _⟩ := h.declaresRow numbered typed
    exact ⟨[decl], .cons declared .nil⟩
  | cons parent rest ih =>
    obtain ⟨⟨decl, declared⟩, above⟩ := h.declaresRow numbered typed
    unfold Typing.Above at above
    split at above
    · cases above
    · next s found =>
        obtain ⟨own', rest', typed', same⟩ := above
        cases same
        have isClass := superclass?_isClass (h.typing_table ▸ found)
        have fits : Fits (table unit) _ _ := h.settled.healthy.holds (hasType_iff.mp typed')
        obtain ⟨_, _, same, symbol⟩ := (describes_class isClass).mp (fits.2.2 s rfl)
        cases same
        obtain ⟨decls, all⟩ := ih (symbol ▸ typed')
        exact ⟨decl :: decls, .cons declared all⟩

/-! ### Coherence -/

/-- A class type occurs in a value that is found. -/
def ShowsClass (a : Analysis) (own : ClassRow) (supers : List ClassRow) : Prop :=
  ∃ attr v, a.reactor.get? attr = some v ∧ (Ty.object own supers).OccursIn v

/-- All class types agree with the table, with the declarations and with one another. -/
structure ClassTypesCohere (a : Analysis) (unit : CompilationUnit) : Prop where
  chain : ∀ {own supers}, a.ShowsClass own supers →
    (own :: supers).map (·.symbol) = a.symbols.ancestors own.symbol
  /-- Fields come with those of the outermost ancestor first. -/
  members : ∀ {own supers}, a.ShowsClass own supers → ∃ decls,
    List.Forall₂ (a.DeclaresRow unit) decls (own :: supers) ∧
      a.typing.Declares (decls.reverse.flatMap fun d => d.fields.map fun f => (f.name, f.tag.id))
        (ClassRow.allFields (own :: supers))
  unique : ∀ {own supers own' supers'}, a.ShowsClass own supers → a.ShowsClass own' supers' →
    own.symbol = own'.symbol → own = own' ∧ supers = supers'

theorem declares_allFields {decls : List ClassDecl} {rows : List ClassRow}
    (h : List.Forall₂ (a.DeclaresRow unit) decls rows) :
    a.typing.Declares (decls.reverse.flatMap fun d => d.fields.map fun f => (f.name, f.tag.id))
      (ClassRow.allFields rows) :=
  rel_flatMap (rel_reverse h) fun _ _ row => row.fields

/-- Coherence depends only on what is known about types and names. -/
theorem ClassTypesCohere.congr {b : Analysis} (h : a.ClassTypesCohere unit) (typing : b.typing = a.typing)
    (shown : ∀ {own supers}, b.ShowsClass own supers → a.ShowsClass own supers) :
    b.ClassTypesCohere unit := by
  have symbols : b.symbols = a.symbols := congrArg Typing.table typing
  have row : ∀ {decl row}, a.DeclaresRow unit decl row → b.DeclaresRow unit decl row :=
    fun d => ⟨d.declared, typing ▸ d.means, typing ▸ d.fields, typing ▸ d.methods⟩
  refine ⟨fun s => symbols ▸ h.chain (shown s), fun s => ?_, fun s s' => h.unique (shown s) (shown s')⟩
  obtain ⟨decls, rows, fields⟩ := h.members (shown s)
  exact ⟨decls, rows.imp fun _ _ => row, typing ▸ fields⟩

theorem Typed.classTypesCohere (h : Typed unit a₁ a₂) (numbered : unit.WellNumbered) :
    a₂.ClassTypesCohere unit := by
  have typed : ∀ {own supers}, a₂.ShowsClass own supers →
      a₂.typing.HasType own.symbol (.object own supers) := by
    rintro own supers ⟨attr, v, held, inside⟩
    exact (h.fits_hasType numbered held).of_occursIn inside
  refine ⟨fun s => ?_, fun s => ?_, fun s s' same => ?_⟩
  · have fits : Fits (table unit) _ _ := h.settled.healthy.holds (hasType_iff.mp (typed s))
    obtain ⟨_, line, _⟩ := Ty.coherent_object.mp fits.2.1
    rw [h.symbols_eq, line.ancestors_eq]
    rfl
  · obtain ⟨decls, rows⟩ := h.declaresRows numbered (typed s)
    exact ⟨decls, rows, declares_allFields rows⟩
  · have types := (typed s).symm.trans (same ▸ typed s')
    exact Ty.object.inj (Option.some.inj types)

/-- Later phases find nothing more about classes. -/
theorem ClassTypesCohere.later {b : Analysis} (h : a.ClassTypesCohere unit)
    (symbols : b.symbols = a.symbols)
    (slots : ∀ attr : Attribute, attr.name ≠ .returns →
      b.reactor.slot? attr = a.reactor.slot? attr)
    (settled : b.reactor.Settled (outlook b.symbols)) : b.ClassTypesCohere unit := by
  refine h.congr (typing_congr symbols slots) ?_
  rintro own supers ⟨attr, v, held, inside⟩
  have other : attr.name ≠ .returns := by
    intro name
    obtain ⟨flag, rfl⟩ := (settled.healthy.holds held : Fits b.symbols attr v).flag name
    cases inside
  refine ⟨attr, v, ?_, inside⟩
  rwa [Reactor.get?, ← slots attr other, ← Reactor.get?]

end Analysis

/-- Whatever class type a phase that accepts a unit leaves somewhere, its chain is the line of
superclasses that the table gives, its members are those that are declared along it, and it is the
only class type of its symbol. -/
theorem class_types_cohere (unit : CompilationUnit) (last : Phase) (a : Analysis)
    (h : analyzeUntil unit last = .ok a) : a.ClassTypesCohere unit := by
  cases last with
  | resolveReferences =>
    obtain ⟨_, named⟩ := named_of_analyzeUntil h
    have none : ∀ {own supers}, ¬a.ShowsClass own supers := fun ⟨_, _, held, inside⟩ =>
      (named.fits (G := fun _ _ => False) held).of_occursIn inside
    exact ⟨fun s => absurd s none, fun s => absurd s none, fun s => absurd s none⟩
  | resolveTypes =>
    obtain ⟨numbered, a₁, typed⟩ := typed_of_analyzeUntil h
    exact typed.classTypesCohere numbered
  | checkInferred =>
    obtain ⟨numbered, a₁, a₂, known⟩ := known_of_analyzeUntil h
    exact (known.typed.classTypesCohere numbered).later
      (known.symbols_eq.trans known.typed.symbols_eq.symm) (fun _ _ => known.slot?_eq _)
      known.ran.settled
  | checkTypes =>
    obtain ⟨numbered, a₁, a₂, a₃, checked⟩ := checked_of_analyzeUntil h
    exact (checked.known.typed.classTypesCohere numbered).later
      (checked.symbols_eq.trans checked.known.typed.symbols_eq.symm)
      (fun _ _ => checked.slot?_eq _) checked.ran.settled
  | checkReturns =>
    obtain ⟨_, before, _⟩ := (analyzeUntil_eq_ok .checkTypes rfl).mp h
    obtain ⟨numbered, _⟩ := checked_of_analyzeUntil before
    obtain ⟨a₁, a₂, a₃, a₄, accepted⟩ := accepted_of_analyze h
    exact (accepted.checked.known.typed.classTypesCohere numbered).later
      (accepted.symbols_eq.trans accepted.checked.known.typed.symbols_eq.symm)
      (fun _ => accepted.slot?_eq) accepted.ran.settled

/-- A class with a superclass and members of class types. -/
def family : CompilationUnit :=
  (Parser.ofText ("class A \x7b n: Int; \x7d class B : A \x7b all: [A]; " ++
    "fun up() -> A \x7b return self; \x7d \x7d fun f(b: B) \x7b return b.up(); \x7d").toList).unit

/-- Whether a value is the type of a class that has a superclass. -/
def Value.inherits : Value → Bool
  | .type (.object _ (_ :: _)) => true
  | _ => false

theorem exists_of_inherits (h : v.inherits = true) :
    ∃ own parent rest, v = .type (.object own (parent :: rest)) := by
  unfold Value.inherits at h
  split at h
  · exact ⟨_, _, _, rfl⟩
  · cases h

theorem class_types_cohere_family : ∃ a, analyze family = .ok a ∧
    (∃ own parent rest, a.ShowsClass own (parent :: rest)) ∧ a.ClassTypesCohere family := by
  have found : (analyze family).toOption.any (fun a =>
      a.reactor.values.any fun p => (a.reactor.get? p.1).any Value.inherits) = true := by
    decide +kernel
  cases accepted : analyze family with
  | error e => simp [accepted, Except.toOption] at found
  | ok a =>
    rw [accepted] at found
    obtain ⟨p, _, shown⟩ := any_eq_true.mp found
    obtain ⟨v, held, inherits⟩ := (Option.any_eq_true _ _).mp shown
    obtain ⟨own, parent, rest, rfl⟩ := exists_of_inherits inherits
    exact ⟨a, rfl, ⟨own, parent, rest, p.1, _, held, .here⟩,
      class_types_cohere family .checkReturns a accepted⟩

end BlFront
