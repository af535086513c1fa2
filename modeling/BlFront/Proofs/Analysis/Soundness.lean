import BlFront.Proofs.Analysis.Complete

/-!
# Accepted units are well typed

No rule and no check of an accepted unit is left waiting, since all the types that they read are
known, and none of them has found an error.  So what each of them asks for holds of the types that
are found, and these are the final ones.
-/

namespace BlFront

open List CompilationUnit

variable {decl : ClassDecl} {e : Expr} {args : List Expr} {n : NodeId} {source : Owner}
  {name : String} {s : SymbolId} {tag : Tag}

/-- An expression has a type by the rule for its form. -/
def Typing.Rules (given : Typing) (near : Surroundings) (e : Expr) : Prop :=
  ∃ type, given.HasType e.id type ∧ given.ExprRule near e type

namespace Analysis

variable {unit : CompilationUnit} {a a₁ a₂ a₃ a₄ a₅ : Analysis}

open Names

/-! ### Declarations whose members have types -/

/-- What the rule for the type of a class reads: the types of its members and of its superclass. -/
def classReads (unit : CompilationUnit) (r : Reactor) (decl : ClassDecl) : List Attribute :=
  (Types.typedMembers (decl.fields.map (·.name)) ((decl.fields.map (·.tag.id)).map (symbolAt r)) ++
    Types.typedMembers (decl.methods.map (·.name))
      ((decl.methods.map (·.tag.id)).map (symbolAt r))).map Prod.snd ++
    (Types.above ((table unit).superclass? (symbolAt r decl.tag.id))).toList

theorem mem_classReads {r : Reactor} {d : Attribute} : d ∈ classReads unit r decl ↔
    (∃ n ∈ decl.fields.map (·.tag.id) ++ decl.methods.map (·.tag.id), d = typeOf (symbolAt r n)) ∨
      ∃ s, (table unit).superclass? (symbolAt r decl.tag.id) = some s ∧ d = typeOf s := by
  rw [classReads, Types.typedMembers_map, Types.typedMembers_map]
  simp [Types.above, or_and_right, exists_or, eq_comm, or_assoc]

theorem Typed.class_requests (h : Typed unit a₁ a₂) (entered : .classDecl decl ∈ unit.entered) :
    Types.partRequests a₁.reactor (table unit) (.classDecl decl) =
      [.register (Types.classRule (table unit) decl (symbolAt a₁.reactor decl.tag.id)
        ((table unit).superclass? (symbolAt a₁.reactor decl.tag.id))
        ((decl.fields.map (·.tag.id)).map (symbolAt a₁.reactor))
        ((decl.methods.map (·.tag.id)).map (symbolAt a₁.reactor)))] := by
  have bindings := h.named.done.bindings
  rw [Types.class_requests bindings entered,
    h.named.done.superclass (bindings.symbolAt entered rfl rfl).1]

/-- A class has the type that its declaration says once what its rule reads has values. -/
theorem Typed.class_declared (h : Typed unit a₁ a₂) (entered : .classDecl decl ∈ unit.entered)
    (valued : ∀ d ∈ classReads unit a₁.reactor decl, Valued a₂.reactor d) :
    ∃ name fields methods supers, a₂.typing.HasType (symbolAt a₁.reactor decl.tag.id)
        (.object ⟨symbolAt a₁.reactor decl.tag.id, name, fields, methods⟩ supers) ∧
      a₂.typing.Declares (decl.fields.map fun f => (f.name, f.tag.id)) fields ∧
      a₂.typing.Declares (decl.methods.map fun f => (f.name, f.tag.id)) methods ∧
      a₂.typing.Above (symbolAt a₁.reactor decl.tag.id) supers := by
  have bindings := h.named.done.bindings
  have requests := h.class_requests entered
  have boundFields := bindings.symbolsAt entered Part.field
    (fun f (hf : f ∈ decl.fields) => by simp [Part.children, hf]) (fun _ => rfl) fun _ => rfl
  have boundMethods := bindings.symbolsAt entered Part.function
    (fun f (hf : f ∈ decl.methods) => by simp [Part.children, hf]) (fun _ => rfl) fun _ => rfl
  have valuedFields : ∀ n ∈ decl.fields.map (·.tag.id),
      Valued a₂.reactor (typeOf (symbolAt a₁.reactor n)) := fun n mem =>
    valued _ (mem_classReads.mpr (.inl ⟨n, mem_append_left _ mem, rfl⟩))
  have valuedMethods : ∀ n ∈ decl.methods.map (·.tag.id),
      Valued a₂.reactor (typeOf (symbolAt a₁.reactor n)) := fun n mem =>
    valued _ (mem_classReads.mpr (.inl ⟨n, mem_append_right _ mem, rfl⟩))
  have parent := (forall_mem_append.mp valued).2
  obtain ⟨supers, above, _⟩ := Types.supers_of_fits
    (fun s found => SymbolTable.superclass?_isClass found)
    fun d hd => h.settled.healthy.holds (parent d hd).get?
  have written := h.written entered (requests ▸ mem_singleton_self _)
    (by rw [Types.classRule_eq]; exact valued)
    (Types.classRule_computes (fun d => (valueAt a₂.reactor d).asType)
      (fun m hm => valueAt_eq (h.members_typed valuedFields (·.name) m hm))
      (fun m hm => valueAt_eq (h.members_typed valuedMethods (·.name) m hm)) above)
  refine ⟨_, _, _, supers, hasType_iff.mpr written, h.declares valuedFields boundFields _,
    h.declares valuedMethods boundMethods _, ?_⟩
  unfold Typing.Above
  rw [h.typing_table]
  cases found : (table unit).superclass? (symbolAt a₁.reactor decl.tag.id) with
  | none =>
    rw [found] at above
    exact above
  | some s =>
    rw [found] at above parent
    obtain ⟨own, rest, same, rfl⟩ := above
    refine ⟨own, rest, hasType_iff.mpr ?_, rfl⟩
    rw [(parent _ (.head _)).get?, same]

/-! ### What the checks have found -/

theorem Checked.get?_eq (h : Checked unit a₁ a₂ a₃ a₄) (attr : Attribute) :
    a₄.reactor.get? attr = a₂.reactor.get? attr := by
  simp only [Reactor.get?, h.slot?_eq]

variable {part : Part}

theorem Checked.not_rejected (h : Checked unit a₁ a₂ a₃ a₄) (entered : part ∈ unit.entered)
    {error : SemanticError} {affected : List Attribute} :
    .reject error affected ∉ Checks.partRequests a₃.reactor (table unit) part :=
  fun mem => h.passed.not_rejected h.clean (mem_flatMap.mpr ⟨part, entered, mem⟩)

/-- A check whose types are known has found nothing. -/
theorem Checked.passes (h : Checked unit a₁ a₂ a₃ a₄) (entered : part ∈ unit.entered)
    {deps : List Attribute} {f : List Ty → List SemanticError}
    (mem : .register (Checks.check name deps f) ∈ Checks.partRequests a₃.reactor (table unit) part)
    (typed : ∀ d ∈ deps, ∃ owner, d = typeOf owner ∧ a₂.typing.HasType owner (a₂.typeAt owner)) :
    f (deps.map fun d => (valueAt a₂.reactor d).asType) = [] := by
  have types : ∀ d ∈ deps,
      Valued a₂.reactor d ∧ valueAt a₂.reactor d = .type (valueAt a₂.reactor d).asType := by
    intro d hd
    obtain ⟨owner, rfl, typed⟩ := typed d hd
    exact ⟨typed.valued, typed.valueAt_eq⟩
  have recorded := h.passed.computed (mem_flatMap.mpr ⟨part, entered, mem⟩)
    (fun d hd => (h.get?_eq d).trans (types d hd).1.get?)
    (Checks.check_computes fun d hd => (types d hd).2)
  refine eq_nil_iff_forall_not_mem.mpr fun e he => ?_
  have reported : e ∈ a₄.reactor.rootErrors := recorded _ (mem_map_of_mem he)
  rw [h.clean] at reported
  cases reported

section Checked

variable (h : Checked unit a₁ a₂ a₃ a₄) {part : Part} (entered : part ∈ unit.entered)

include h entered

theorem Checked.oneOf {accepted : List Ty} (mem : .register (Checks.oneOf name e accepted) ∈
      Checks.partRequests a₃.reactor (table unit) part) (atoms : accepted.all Ty.isAtom = true)
    (typed : a₂.typing.HasType e.id (a₂.typeAt e.id)) : a₂.typeAt e.id ∈ accepted := by
  have none := h.passes entered mem (forall_mem_singleton.mpr ⟨_, rfl, typed⟩)
  rw [map_singleton, flatMap_singleton] at none
  exact Checks.mem_of_expectOneOf atoms (Checks.problemsAt_eq_nil none)

theorem Checked.fills {value : Expr} {target : Owner}
    (mem : .register (Checks.assignable name value (typeOf target)) ∈
      Checks.partRequests a₃.reactor (table unit) part)
    (typedValue : a₂.typing.HasType value.id (a₂.typeAt value.id))
    (typedTarget : a₂.typing.HasType target (a₂.typeAt target)) :
    (a₂.typeAt value.id).assignable (a₂.typeAt target) = true :=
  Checks.assignable_of_expect (Checks.problemsAt_eq_nil (h.passes entered mem
    (forall_mem_cons.mpr ⟨⟨_, rfl, typedValue⟩,
      forall_mem_singleton.mpr ⟨_, rfl, typedTarget⟩⟩)))

theorem Checked.accepts {span : Span} {parameters : Ty → Option (List Member)}
    {params : List Member}
    (mem : .register (Checks.call name span (typeOf source) args parameters) ∈
      Checks.partRequests a₃.reactor (table unit) part)
    (typed : a₂.typing.HasType source (a₂.typeAt source))
    (typedArgs : ∀ arg ∈ args, a₂.typing.HasType arg.id (a₂.typeAt arg.id))
    (found : parameters (a₂.typeAt source) = some params) : a₂.typing.Accepts params args := by
  have none := h.passes entered mem (forall_mem_cons.mpr ⟨⟨_, rfl, typed⟩, by
    intro d hd
    obtain ⟨arg, mem, rfl⟩ := mem_map.mp hd
    exact ⟨_, rfl, typedArgs arg mem⟩⟩)
  have first : (valueAt a₂.reactor (typeOf source)).asType = a₂.typeAt source := rfl
  simp only [map_cons, first, found, map_map] at none
  have fits := Checks.argumentProblems_eq_nil (map_eq_nil_iff.mp none)
  rw [forall₂_map_left_iff] at fits
  exact ((forall₂_and_left _ _).mpr ⟨typedArgs, fits⟩).imp fun arg param h => ⟨_, h⟩

end Checked

/-! ### Expressions -/

section Expressions

variable {near : Surroundings} {expected : Option Expected}

section Known

variable (h : Known unit a₁ a₂ a₃)

include h

/-- An empty literal has the type that an annotation tells. -/
theorem Known.emptyArray_rule (entered : .expr (.array tag []) expected ∈ unit.entered) :
    a₂.typing.Rules near (.array tag []) := by
  obtain ⟨_, annotated⟩ := stands_of_entered entered
  cases expected with
  | none => exact absurd (.head _) (h.typed.not_rejected entered)
  | some expected =>
    obtain ⟨source, above, annotates⟩ := annotated
    have typed := h.type_typed above.hasTypeExpr.entered
    rw [annotates] at typed
    obtain ⟨v, computed, written⟩ := h.typed.mapped entered (.head _) typed
    split at computed
    · cases computed
      exact ⟨_, hasType_iff.mpr written, .array (by simp) (.inl rfl)⟩
    · cases computed

theorem Known.array_rule {elements : List Expr} (nonempty : elements ≠ [])
    (entered : .expr (.array tag elements) expected ∈ unit.entered) :
    a₂.typing.Rules near (.array tag elements) := by
  have typed : ∀ e ∈ elements, a₂.typing.HasType e.id (a₂.typeAt e.id) := fun e mem =>
    h.child_typed entered e (by simpa [Expr.children, Expr.operands] using mem)
  have requests : .register (Types.arrayRule tag elements) ∈
      Types.partRequests a₁.reactor (table unit) (.expr (.array tag elements) expected) := by
    cases elements with
    | nil => exact absurd rfl nonempty
    | cons first rest => exact .head _
  have written := h.typed.written entered requests
    (forall_mem_map.mpr fun e mem => (typed e mem).valued)
    (Types.arrayRule_computes (fun d => (valueAt a₂.reactor d).asType)
      (forall_mem_map.mpr fun e mem => (typed e mem).valueAt_eq))
  rw [map_map] at written
  refine ⟨_, hasType_iff.mpr written, .array (fun e mem => ?_) (.inr ?_)⟩
  · exact ⟨_, typed e mem, Types.assignable_joinAll
      (forall_mem_map.mpr fun e _ => h.typed.typeAt_coherent e.id) _ (mem_map_of_mem mem)⟩
  · refine (Types.joinAll_mem _).imp_right fun mem => ?_
    obtain ⟨e, mem, same⟩ := mem_map.mp mem
    rw [← same]
    exact ⟨e, mem, typed e mem⟩

theorem Known.select_rule {object : Expr} {field : String}
    (entered : .expr (.select tag object field) expected ∈ unit.entered) :
    a₂.typing.Rules near (.select tag object field) := by
  have typed := h.child_typed entered object (.head _)
  obtain ⟨v, computed, written⟩ := h.typed.mapped entered (.head _) typed
  obtain ⟨type, rfl, has⟩ := Types.hasField_of_fieldType computed
  exact ⟨type, hasType_iff.mpr written, .select typed has⟩

theorem Known.reference_rule (entered : .expr (.reference tag name) expected ∈ unit.entered) :
    a₂.typing.Rules near (.reference tag name) := by
  obtain ⟨means, typed⟩ := h.bound_typed (h.bound.symbolAt_named entered rfl)
  have requests := Types.reference_requests h.bound entered (table unit)
  exact ⟨_, h.typed.copied entered (requests ▸ mem_singleton_self _) typed, .reference means typed⟩

theorem Known.self_rule {around : List Part} (among : near.Among around)
    (site : (.expr (.selfRef tag) expected, around) ∈ unit.sites) :
    a₂.typing.Rules near (.selfRef tag) := by
  obtain ⟨decl, nearest, requests⟩ := Types.self_requests h.bound site (table unit)
  have enclosing : .classDecl decl ∈ unit.entered :=
    around_entered site (mem_of_find?_eq_some nearest)
  obtain ⟨means, typed⟩ := h.bound_typed (h.bound.symbolAt enclosing rfl rfl).2
  have entered : .expr (.selfRef tag) expected ∈ unit.entered :=
    unit.map_fst_sites ▸ mem_map_of_mem site
  have inside : near.class? = some decl := by
    obtain ⟨_, found, same⟩ := Option.map_eq_some_iff.mp (among.class_ ▸ nearest)
    cases same
    exact found
  exact ⟨_, h.typed.copied entered (requests ▸ mem_singleton_self _) typed,
    .selfRef inside means typed⟩

end Known

variable (h : Checked unit a₁ a₂ a₃ a₄)

include h

theorem Checked.unary_rule {op : UnaryOp} {operand : Expr}
    (entered : .expr (.unary tag op operand) expected ∈ unit.entered) :
    a₂.typing.Rules near (.unary tag op operand) := by
  have typed := h.known.child_typed entered operand (.head _)
  obtain ⟨v, result, written⟩ := h.known.typed.mapped entered (.head _) typed
  obtain ⟨type, result, rfl⟩ := Types.problemAt_eq_ok.mp result
  refine ⟨type, hasType_iff.mpr written, ?_⟩
  have accepted := h.oneOf entered (.head _) (by cases op <;> rfl) typed
  cases op with
  | not =>
    cases result
    rw [mem_singleton.mp accepted] at typed
    exact .not typed
  | neg =>
    have numeric := mem_pair.mp accepted
    have same : a₂.typeAt operand.id = type := by
      rcases numeric with is | is <;> rw [is] at result ⊢ <;> cases result <;> rfl
    rw [same] at typed numeric
    exact .neg typed numeric

theorem Checked.binary_rule {op : BinaryOp} {left right : Expr}
    (entered : .expr (.binary tag op left right) expected ∈ unit.entered) :
    a₂.typing.Rules near (.binary tag op left right) := by
  have typedLeft := h.known.child_typed entered left (.head _)
  have typedRight := h.known.child_typed entered right (.tail _ (.head _))
  obtain ⟨v, computed, written⟩ := h.known.typed.results entered (.head _)
    (forall_mem_cons.mpr ⟨typedLeft.valued, forall_mem_singleton.mpr typedRight.valued⟩)
    (Types.binaryRule_computes typedLeft.valueAt_eq typedRight.valueAt_eq)
  obtain ⟨type, result, rfl⟩ := Types.problemAt_eq_ok.mp computed
  have accepted : op.accepted.isEmpty = false → op.accepted.all Ty.isAtom = true →
      a₂.typeAt left.id ∈ op.accepted ∧ a₂.typeAt right.id ∈ op.accepted := by
    intro some atoms
    obtain ⟨first, second⟩ := Checks.oneOf_mem_binaryRules tag left right some
    exact ⟨h.oneOf entered (mem_map_of_mem first) atoms typedLeft,
      h.oneOf entered (mem_map_of_mem second) atoms typedRight⟩
  have compared : (op.isComparison || op.isEquality) = true →
      op.expectComparable (a₂.typeAt left.id) (a₂.typeAt right.id) = .ok () := fun some =>
    Checks.problemsAt_eq_nil (h.passes entered
      (mem_map_of_mem (Checks.comparable_mem_binaryRules tag left right some))
      (forall_mem_cons.mpr ⟨⟨_, rfl, typedLeft⟩,
        forall_mem_singleton.mpr ⟨_, rfl, typedRight⟩⟩))
  refine ⟨type, hasType_iff.mpr written, ?_⟩
  rcases op.family with family | ⟨family, notEquality, notArithmetic, operands⟩ |
    ⟨family, notArithmetic⟩ | ⟨family, notArithmetic, operands⟩
  · obtain ⟨numericLeft, numericRight, numeric, whole⟩ := Types.arithmetic_result family result
    exact .arithmetic family typedLeft typedRight numericLeft numericRight numeric whole
  · cases Types.boolean_result notArithmetic result
    rw [operands] at accepted
    have orderable : a₂.typeAt left.id = .boolean ∨ a₂.typeAt left.id = .int ∨
        a₂.typeAt left.id = .float ∨ a₂.typeAt left.id = .string := by
      simpa using (accepted rfl rfl).1
    have same := Checks.same_of_expectComparable notEquality (compared (by rw [family]; rfl))
    have atom : (a₂.typeAt left.id).isAtom = true := by
      rcases orderable with is | is | is | is <;> rw [is] <;> rfl
    rw [(Ty.atom_same atom).mp same] at typedRight
    exact .ordering family typedLeft typedRight orderable
  · cases Types.boolean_result notArithmetic result
    exact .equality family typedLeft typedRight
      (Checks.related_of_expectComparable family (compared (by rw [family, Bool.or_true])))
  · cases Types.boolean_result notArithmetic result
    rw [operands] at accepted
    obtain ⟨first, second⟩ := accepted rfl rfl
    rw [mem_singleton.mp first] at typedLeft
    rw [mem_singleton.mp second] at typedRight
    exact .logical family typedLeft typedRight

theorem Checked.assign_rule {target value : Expr}
    (entered : .expr (.assign tag target value) expected ∈ unit.entered) :
    a₂.typing.Rules near (.assign tag target value) := by
  have typedTarget := h.known.child_typed entered target (.head _)
  have typedValue := h.known.child_typed entered value (.tail _ (.head _))
  have rule : ∀ valid, Checks.assignRequests a₃.reactor (table unit) target value =
      Checks.assignmentRequests valid target value → (valid = true → a₂.typing.IsTarget target) →
      a₂.typing.ExprRule near (.assign tag target value) (a₂.typeAt value.id) := by
    intro valid requests isTarget
    have asked : ∀ q ∈ Checks.assignmentRequests valid target value, q ∈ Checks.partRequests
        a₃.reactor (table unit) (.expr (.assign tag target value) expected) :=
      fun q hq => (requests ▸ hq :)
    cases valid with
    | false => exact absurd (asked _ (.head _)) (h.not_rejected entered)
    | true =>
      exact .assign (isTarget rfl) typedTarget typedValue
        (h.fills entered (asked _ (.head _)) typedValue typedTarget)
  refine ⟨_, h.known.typed.copied entered (.head _) typedValue, ?_⟩
  cases target with
  | reference tag name =>
    have inside : Part.expr (.reference tag name) none ∈ unit.entered :=
      operand_entered entered (.head _)
    refine rule _ (Checks.assignRequests_reference h.known.bindings inside _ value) fun valid => ?_
    refine .reference (means_iff.mpr ?_) (h.known.typed.typing_table ▸ valid)
    rw [← h.known.get?_eq]
    exact h.known.bindings.symbolAt_named inside rfl
  | select tag object field => exact rule true rfl fun _ => .select
  | index tag object position => exact rule true rfl fun _ => .index
  | _ => exact rule false rfl nofun

theorem Checked.call_rule {callee : Expr}
    (entered : .expr (.call tag callee args) expected ∈ unit.entered) :
    a₂.typing.Rules near (.call tag callee args) := by
  have typed := h.known.child_typed entered callee (.head _)
  obtain ⟨v, computed, written⟩ := h.known.typed.mapped entered (.head _) typed
  obtain ⟨params, type, rfl, found, calls⟩ := Types.calls_of_callType computed
  have accepts := h.accepts entered (.head _) typed (fun arg mem =>
    h.known.child_typed entered arg (by simp [Expr.children, Expr.operands, mem])) found
  exact ⟨type, hasType_iff.mpr written, .call typed calls accepts⟩

theorem Checked.methodCall_rule {receiver : Expr} {method : String}
    (entered : .expr (.methodCall tag receiver method args) expected ∈ unit.entered) :
    a₂.typing.Rules near (.methodCall tag receiver method args) := by
  have typed := h.known.child_typed entered receiver (.head _)
  obtain ⟨v, meaning, bound⟩ := h.known.typed.mapped entered (.head _) typed
  obtain ⟨own, supers, symbol, isObject, rfl, resolved⟩ := Types.object_of_methodMeaning meaning
  rw [isObject] at typed
  obtain ⟨v, computed, written⟩ := h.known.typed.results entered (.tail _ (.head _))
    (forall_mem_cons.mpr ⟨typed.valued, forall_mem_singleton.mpr ⟨_, bound⟩⟩)
    (Types.methodTypeRule_computes typed.valueAt_eq)
  obtain ⟨params, type, rfl, found⟩ := Types.lookup_of_methodResult computed
  have parameters : Checks.methodParameters method (a₂.typeAt receiver.id) = some params := by
    rw [isObject, Checks.methodParameters, found]
    rfl
  have accepts := h.accepts entered (.head _) (isObject ▸ typed) (fun arg mem =>
    h.known.child_typed entered arg (by simp [Expr.children, Expr.operands, mem])) parameters
  exact ⟨type, hasType_iff.mpr written, .methodCall typed (means_iff.mpr bound)
    (h.known.typed.typing_table ▸ resolved) found accepts⟩

theorem Checked.index_rule {object position : Expr}
    (entered : .expr (.index tag object position) expected ∈ unit.entered) :
    a₂.typing.Rules near (.index tag object position) := by
  have typed := h.known.child_typed entered object (.head _)
  have typedPosition := h.known.child_typed entered position (.tail _ (.head _))
  obtain ⟨v, computed, written⟩ := h.known.typed.mapped entered (.head _) typed
  obtain ⟨type, rfl, isArray⟩ := Types.array_of_elementType computed
  rw [isArray] at typed
  rw [mem_singleton.mp (h.oneOf entered (.head _) rfl typedPosition)] at typedPosition
  exact ⟨type, hasType_iff.mpr written, .index typed typedPosition⟩

theorem Checked.expr_rule (has : unit.HasExpr near e) : a₂.typing.Rules near e := by
  obtain ⟨around, expected, among, site⟩ := has.site
  have entered : .expr e expected ∈ unit.entered := unit.map_fst_sites ▸ mem_map_of_mem site
  cases e with
  | literal tag value =>
    exact ⟨_, hasType_iff.mpr (h.known.typed.seeded entered (.head _)), .literal⟩
  | array tag elements =>
    cases elements with
    | nil => exact h.known.emptyArray_rule entered
    | cons first rest => exact h.known.array_rule (cons_ne_nil _ _) entered
  | reference tag name => exact h.known.reference_rule entered
  | selfRef tag => exact h.known.self_rule among site
  | unary tag op operand => exact h.unary_rule entered
  | binary tag op left right => exact h.binary_rule entered
  | assign tag target value => exact h.assign_rule entered
  | call tag callee args => exact h.call_rule entered
  | methodCall tag receiver method args => exact h.methodCall_rule entered
  | select tag object field => exact h.known.select_rule entered
  | index tag object position => exact h.index_rule entered

end Expressions

/-! ### Types and names -/

section Declarations

variable (h : Known unit a₁ a₂ a₃)

include h

theorem Known.type_rule {written : TypeExpr} (has : unit.HasTypeExpr written) :
    ∃ type, a₂.typing.HasType written.id type ∧ a₂.typing.TypeRule written type := by
  have entered := has.entered
  cases written with
  | named tag name =>
    obtain ⟨means, typed⟩ := h.bound_typed (h.bound.symbolAt_named entered rfl)
    have requests := Types.named_requests h.bound entered (table unit)
    split at requests
    · next isType =>
        exact ⟨_, h.typed.copied entered (requests ▸ mem_singleton_self _) typed,
          .named means (h.typed.typing_table ▸ isType) typed⟩
    · exact absurd (requests ▸ mem_singleton_self _) (h.typed.not_rejected entered)
  | array tag element =>
    have typed := h.type_typed has.element.entered
    obtain ⟨v, computed, written⟩ := h.typed.mapped entered (.head _) typed
    cases computed
    exact ⟨_, hasType_iff.mpr written, .array typed⟩

theorem Known.name_rule {p : TypedName} (has : unit.HasParam p ∨ unit.HasField p) :
    ∃ symbol type, a₂.typing.Means p.tag.id symbol ∧ a₂.typing.HasType symbol type ∧
      a₂.typing.HasType p.type.id type := by
  obtain ⟨typed, declared⟩ := h.name_typed (has.imp (·.entered) (·.entered))
  have bound : a₁.reactor.get? (AttrName.symbol.of p.tag.id) =
      some (.symbol (symbolAt a₁.reactor p.tag.id)) := by
    rcases has with param | field
    · exact (h.bound.symbolAt param.entered rfl rfl).2
    · exact (h.bound.symbolAt field.entered rfl rfl).2
  exact ⟨_, _, (h.bound_typed bound).1, declared, typed⟩

theorem Known.struct_typed {decl : StructDecl} (entered : .structDecl decl ∈ unit.entered) :
    ∃ name fields, a₂.typing.HasType (symbolAt a₁.reactor decl.tag.id)
        (.struct (symbolAt a₁.reactor decl.tag.id) name fields) ∧
      a₂.typing.Declares (decl.fields.map fun f => (f.name, f.tag.id)) fields := by
  have requests := Types.struct_requests h.bound entered (table unit)
  have bound := h.bound.symbolsAt entered Part.field
    (fun f (hf : f ∈ decl.fields) => by simp [Part.children, hf]) (fun _ => rfl) fun _ => rfl
  have typed : ∀ d ∈ typesOf ((decl.fields.map (·.tag.id)).map (symbolAt a₁.reactor)),
      a₂.reactor.get? d = some (.type (valueAt a₂.reactor d).asType) := by
    refine forall_mem_map.mpr (forall_mem_map.mpr fun n hn => ?_)
    exact hasType_iff.mp (h.bound_typed (bound n hn)).2
  have written := h.typed.written entered (requests ▸ mem_singleton_self _)
    (fun d hd => ⟨_, typed d hd⟩) (Types.structRule_computes
      (fun d => (valueAt a₂.reactor d).asType) fun d hd => valueAt_eq (typed d hd))
  rw [Types.zipWith_typesOf] at written
  exact ⟨_, _, hasType_iff.mpr written,
    h.typed.declares (fun n mem => (h.bound_typed (bound n mem)).2.valued) bound _⟩

theorem Known.class_typed (entered : .classDecl decl ∈ unit.entered) :
    ∃ name fields methods supers, a₂.typing.HasType (symbolAt a₁.reactor decl.tag.id)
        (.object ⟨symbolAt a₁.reactor decl.tag.id, name, fields, methods⟩ supers) ∧
      a₂.typing.Declares (decl.fields.map fun f => (f.name, f.tag.id)) fields ∧
      a₂.typing.Declares (decl.methods.map fun f => (f.name, f.tag.id)) methods ∧
      a₂.typing.Above (symbolAt a₁.reactor decl.tag.id) supers := by
  have boundFields := h.bound.symbolsAt entered Part.field
    (fun f (hf : f ∈ decl.fields) => by simp [Part.children, hf]) (fun _ => rfl) fun _ => rfl
  have boundMethods := h.bound.symbolsAt entered Part.function
    (fun f (hf : f ∈ decl.methods) => by simp [Part.children, hf]) (fun _ => rfl) fun _ => rfl
  refine h.typed.class_declared entered fun d dep => ?_
  rcases mem_classReads.mp dep with ⟨n, mem, rfl⟩ | ⟨s, found, rfl⟩
  · exact (h.bound_typed ((mem_append.mp mem).elim (boundFields n) (boundMethods n))).2.valued
  · exact (h.symbol_typed
      (SymbolTable.hasSymbol_of_hasKind (SymbolTable.superclass?_isClass found))).valued

end Declarations

/-! ### Statements -/

section Statements

variable (h : Checked unit a₁ a₂ a₃ a₄) {near : Surroundings}

include h

theorem Checked.symbolAt_eq (bound : a₁.reactor.get? (AttrName.symbol.of n) = some (.symbol s)) :
    symbolAt a₃.reactor n = s :=
  Names.symbolAt_eq ((h.known.get?_eq _).trans (h.known.typed.passed.keeps.get? bound))

theorem Checked.hasExpr_typed (has : unit.HasExpr near e) :
    a₂.typing.HasType e.id (a₂.typeAt e.id) := by
  obtain ⟨expected, entered⟩ := has.entered
  exact h.known.expr_typed entered

theorem Checked.variable_rule {decl : VarDecl} (has : unit.HasStmt near (.varDecl decl)) :
    a₂.typing.StmtRule near (.varDecl decl) := by
  have entered : .varDecl decl ∈ unit.entered := has.entered
  have bound := (h.known.bound.symbolAt entered rfl rfl).2
  obtain ⟨means, typed⟩ := h.known.bound_typed bound
  have typedInitializer := h.hasExpr_typed (.initializer has)
  have checks := Checks.variable_requests h.known.bindings entered (table unit)
  rw [h.symbolAt_eq bound] at checks
  have fills := h.fills entered (checks ▸ mem_singleton_self _) typedInitializer typed
  cases told : decl.type with
  | none =>
    have requests := Types.variable_requests h.known.bound entered told (table unit)
    have copied := h.known.typed.copied entered (requests ▸ mem_singleton_self _)
      typedInitializer
    rw [copied.typeAt_eq] at fills
    exact .inferred told means copied typedInitializer ⟨_, typedInitializer, fills⟩
  | some written =>
    have annotated : .typed decl written ∈ unit.entered := child_entered entered
      (by simp only [Part.children, told]; exact mem_cons_self ..)
    have typedWritten := h.known.type_typed (CompilationUnit.HasTypeExpr.declared has told).entered
    have requests := Types.annotation_requests h.known.bound annotated (table unit)
    have copied := h.known.typed.copied annotated (requests ▸ mem_singleton_self _)
      typedWritten
    rw [copied.typeAt_eq] at fills
    exact .annotated told means copied typedWritten ⟨_, typedInitializer, fills⟩

theorem Checked.return_rule {value : Option Expr} (has : unit.HasStmt near (.returnStmt tag value)) :
    a₂.typing.StmtRule near (.returnStmt tag value) := by
  obtain ⟨around, among, within⟩ := has.within
  have site : (.returnStmt tag value, around) ∈ unit.sites := within.site
  have entered : .returnStmt tag value ∈ unit.entered := has.entered
  obtain ⟨decl, nearest, requests⟩ := Checks.return_requests h.known.bindings site (table unit)
  have inside : near.function? = some decl := by
    obtain ⟨_, found, same⟩ := Option.map_eq_some_iff.mp (among.function ▸ nearest)
    cases same
    exact found
  have enclosing : .function decl ∈ unit.entered :=
    around_entered site (mem_of_find?_eq_some nearest)
  have bound := (h.known.bound.symbolAt enclosing rfl rfl).2
  obtain ⟨means, _⟩ := h.known.bound_typed bound
  obtain ⟨params, result, typed, _⟩ := h.known.function_typed enclosing
  rw [h.symbolAt_eq bound] at requests
  have function := typed.typeAt_eq
  rw [← function] at typed
  have typedValue : ∀ e, value = some e → a₂.typing.HasType e.id (a₂.typeAt e.id) :=
    fun e same => h.hasExpr_typed (.returned (same ▸ has))
  have errors := h.passes entered (requests ▸ mem_singleton_self _)
    (forall_mem_cons.mpr ⟨⟨_, rfl, typed⟩, forall_mem_map.mpr fun e mem =>
      ⟨_, rfl, typedValue e (Option.mem_toList.mp mem)⟩⟩)
  rw [map_cons, map_map] at errors
  change Checks.returnErrors tag.span value (a₂.typeAt (symbolAt a₁.reactor decl.tag.id) :: _) = _
    at errors
  rw [function] at errors typed
  obtain ⟨nothing, fills⟩ := Checks.returnErrors_eq_nil errors
  exact .returns inside means typed nothing fun e same => ⟨_, typedValue e same, fills e same⟩

theorem Checked.stmt_rule {s : Stmt} (has : unit.HasStmt near s) : a₂.typing.StmtRule near s := by
  have entered := has.entered
  have means : ∀ {n}, isDeclaration s.part = true → s.part.id? = some n →
      a₂.typing.Means n (symbolAt a₁.reactor n) := fun declares node =>
    (h.known.bound_typed (h.known.bound.symbolAt entered declares node).2).1
  cases s with
  | funDecl decl =>
    obtain ⟨params, result, typed, declares, annotated, _⟩ := h.known.function_typed entered
    exact .function (means rfl rfl) typed declares annotated
  | structDecl decl =>
    obtain ⟨name, fields, typed, declares⟩ := h.known.struct_typed entered
    exact .struct (means rfl rfl) typed declares
  | classDecl decl =>
    obtain ⟨name, fields, methods, supers, typed, declaresFields, declaresMethods, above⟩ :=
      h.known.class_typed entered
    exact .class_ (means rfl rfl) typed declaresFields declaresMethods above
  | varDecl decl => exact h.variable_rule has
  | block body => exact .block
  | ifElse tag condition first second =>
    have typed := h.hasExpr_typed (.ifCondition has)
    rw [mem_singleton.mp (h.oneOf entered (.head _) rfl typed)] at typed
    exact .ifElse typed
  | whileLoop tag condition body =>
    have typed := h.hasExpr_typed (.whileCondition has)
    rw [mem_singleton.mp (h.oneOf entered (.head _) rfl typed)] at typed
    exact .whileLoop typed
  | returnStmt tag value => exact h.return_rule has
  | exprStmt tag e => exact .exprStmt

theorem Checked.wellTyped : a₂.typing.WellTyped unit :=
  ⟨h.expr_rule, h.stmt_rule, h.known.type_rule, h.known.name_rule⟩

end Statements

theorem typing_congr {b : Analysis} (symbols : b.symbols = a.symbols)
    (slots : ∀ attr : Attribute, attr.name ≠ .returns →
      b.reactor.slot? attr = a.reactor.slot? attr) : b.typing = a.typing := by
  have types : b.typeOf? = a.typeOf? := funext fun owner => by
    have other : (typeOf owner).name ≠ .returns := by simp [typeOf, AttrName.of]
    simp only [typeOf?, Reactor.getAs?, Reactor.get?, slots _ other]
  have names : b.symbolOf? = a.symbolOf? := funext fun n => by
    have other : (AttrName.symbol.of n).name ≠ .returns := by simp [AttrName.of]
    simp only [symbolOf?, Reactor.getAs?, Reactor.get?, slots _ other]
  rw [typing, symbols, types, names]
  rfl

/-- Looking for missing returns changes no types. -/
theorem Accepted.typing_eq (h : Accepted unit a₁ a₂ a₃ a₄ a₅) : a₅.typing = a₂.typing :=
  typing_congr (by rw [h.symbols_eq, h.checked.known.typed.symbols_eq]) fun _ => h.slot?_eq

end Analysis

/-- The types and symbols of a unit that is accepted obey the typing rules at every node. -/
theorem analyze_types_soundly (unit : CompilationUnit) (a : Analysis) (h : analyze unit = .ok a) :
    a.typing.WellTyped unit := by
  obtain ⟨a₁, a₂, a₃, a₄, stage⟩ := accepted_of_analyze h
  rw [stage.typing_eq]
  exact stage.checked.wellTyped

theorem analyze_types_soundly_sample : ∃ a, analyze sample = .ok a ∧ a.typing.WellTyped sample := by
  obtain ⟨a, accepted⟩ := sample_accepted
  exact ⟨a, accepted, analyze_types_soundly sample a accepted⟩

end BlFront
