import Mathlib.Data.List.Forall2
import BlFront.Proofs.Analysis.Stages

/-!
# Typing rules

When types and symbols that are given to the nodes of a unit make it well typed.  Each rule relates
a node to the nodes right inside it and says nothing about how the types are found.
-/

namespace BlFront

open List

variable {op : BinaryOp} {params : List Member} {span : Span} {a b type : Ty} {v : Value}

/-- The types of nodes and symbols, and what nodes stand for. -/
structure Typing where
  types : Owner → Option Ty
  symbols : NodeId → Option SymbolId
  table : SymbolTable

def Analysis.typing (a : Analysis) : Typing := ⟨a.typeOf?, a.symbolOf?, a.symbols⟩

/-- A type has a field, be it inherited. -/
inductive Ty.HasField : Ty → String → Ty → Prop
  | struct {symbol : SymbolId} {name field : String} {fields : List Member} {type : Ty}
      (found : Member.lookup? field fields = some type) :
      HasField (.struct symbol name fields) field type
  | object {own : ClassRow} {supers : List ClassRow} {field : String} {type : Ty}
      (found : ClassRow.lookup? (·.fields) field (own :: supers) = some type) :
      HasField (.object own supers) field type

/-- What calling a value takes and gives.  A struct or class makes an instance from its fields. -/
inductive Ty.Calls : Ty → List Member → Ty → Prop
  | function {params : List Member} {result : Ty} : Calls (.function params result) params result
  | struct {symbol : SymbolId} {name : String} {fields : List Member} :
      Calls (.struct symbol name fields) fields (.struct symbol name fields)
  | object {own : ClassRow} {supers : List ClassRow} :
      Calls (.object own supers) (ClassRow.allFields (own :: supers)) (.object own supers)

namespace Typing

variable (given : Typing)

def HasType (owner : Owner) (type : Ty) : Prop := given.types owner = some type

def Means (node : NodeId) (symbol : SymbolId) : Prop := given.symbols node = some symbol

/-- An expression can stand where a type is expected. -/
def Fills (e : Expr) (expected : Ty) : Prop :=
  ∃ type, given.HasType e.id type ∧ type.assignable expected = true

/-- There is one argument for each parameter, and it can stand there. -/
def Accepts (params : List Member) (args : List Expr) : Prop :=
  List.Forall₂ (fun arg param => given.Fills arg param.type) args params

/-- Members are called as they are declared, and have the types of their symbols. -/
def Declares (declared : List (String × NodeId)) (members : List Member) : Prop :=
  List.Forall₂ (fun d member => member.name = d.1 ∧
    ∃ symbol, given.Means d.2 symbol ∧ given.HasType symbol member.type) declared members

/-- The classes above a class, nearest first. -/
def Above (symbol : SymbolId) (supers : List ClassRow) : Prop :=
  match given.table.superclass? symbol with
  | none => supers = []
  | some parent => ∃ own rest, given.HasType parent (.object own rest) ∧ supers = own :: rest

/-- What can stand on the left of an assignment. -/
inductive IsTarget : Expr → Prop
  | reference {tag : Tag} {name : String} {symbol : SymbolId} (means : given.Means tag.id symbol)
      (kind : given.table.hasKind (fun kind => kind.isVar || kind.isField) symbol = true) :
      IsTarget (.reference tag name)
  | select {tag : Tag} {object : Expr} {field : String} : IsTarget (.select tag object field)
  | index {tag : Tag} {object position : Expr} : IsTarget (.index tag object position)

/-- The rule for the type of an expression, by its form. -/
inductive ExprRule (near : Surroundings) : Expr → Ty → Prop
  | literal {tag : Tag} {value : Literal} :
      ExprRule near (.literal tag value) (Types.literalType value)
  | reference {tag : Tag} {name : String} {symbol : SymbolId} {type : Ty}
      (means : given.Means tag.id symbol) (typed : given.HasType symbol type) :
      ExprRule near (.reference tag name) type
  | selfRef {tag : Tag} {decl : ClassDecl} {symbol : SymbolId} {type : Ty}
      (inside : near.class? = some decl) (means : given.Means decl.tag.id symbol)
      (typed : given.HasType symbol type) : ExprRule near (.selfRef tag) type
  /-- The elements of a literal have their type from one of them, or only `Any` in common. -/
  | array {tag : Tag} {elements : List Expr} {element : Ty}
      (fill : ∀ e ∈ elements, given.Fills e element)
      (taken : elements = [] ∨ element = .any ∨ ∃ e ∈ elements, given.HasType e.id element) :
      ExprRule near (.array tag elements) (.array element)
  | not {tag : Tag} {operand : Expr} (typed : given.HasType operand.id .boolean) :
      ExprRule near (.unary tag .not operand) .boolean
  | neg {tag : Tag} {operand : Expr} {type : Ty} (typed : given.HasType operand.id type)
      (numeric : type = .int ∨ type = .float) : ExprRule near (.unary tag .neg operand) type
  | arithmetic {tag : Tag} {op : BinaryOp} {left right : Expr} {a b type : Ty}
      (family : op.isArithmetic = true) (typedLeft : given.HasType left.id a)
      (typedRight : given.HasType right.id b) (numericLeft : a = .int ∨ a = .float)
      (numericRight : b = .int ∨ b = .float) (numeric : type = .int ∨ type = .float)
      (whole : type = .int ↔ a = .int ∧ b = .int) : ExprRule near (.binary tag op left right) type
  | ordering {tag : Tag} {op : BinaryOp} {left right : Expr} {type : Ty}
      (family : op.isComparison = true) (typedLeft : given.HasType left.id type)
      (typedRight : given.HasType right.id type)
      (orderable : type = .boolean ∨ type = .int ∨ type = .float ∨ type = .string) :
      ExprRule near (.binary tag op left right) .boolean
  | equality {tag : Tag} {op : BinaryOp} {left right : Expr} {a b : Ty}
      (family : op.isEquality = true) (typedLeft : given.HasType left.id a)
      (typedRight : given.HasType right.id b) (related : a.related b = true) :
      ExprRule near (.binary tag op left right) .boolean
  | logical {tag : Tag} {op : BinaryOp} {left right : Expr} (family : op.isLogical = true)
      (typedLeft : given.HasType left.id .boolean) (typedRight : given.HasType right.id .boolean) :
      ExprRule near (.binary tag op left right) .boolean
  | assign {tag : Tag} {target value : Expr} {expected type : Ty}
      (isTarget : given.IsTarget target) (typedTarget : given.HasType target.id expected)
      (typedValue : given.HasType value.id type) (fills : type.assignable expected = true) :
      ExprRule near (.assign tag target value) type
  | call {tag : Tag} {callee : Expr} {args : List Expr} {called type : Ty} {params : List Member}
      (typed : given.HasType callee.id called) (calls : called.Calls params type)
      (accepts : given.Accepts params args) : ExprRule near (.call tag callee args) type
  | methodCall {tag : Tag} {receiver : Expr} {method : String} {args : List Expr}
      {own : ClassRow} {supers : List ClassRow} {symbol : SymbolId} {params : List Member} {type : Ty}
      (typed : given.HasType receiver.id (.object own supers)) (means : given.Means tag.id symbol)
      (resolved : given.table.resolveMethod? own.symbol method = some symbol)
      (found : ClassRow.lookup? (·.methods) method (own :: supers) = some (.function params type))
      (accepts : given.Accepts params args) : ExprRule near (.methodCall tag receiver method args) type
  | select {tag : Tag} {object : Expr} {field : String} {owner type : Ty}
      (typed : given.HasType object.id owner) (has : owner.HasField field type) :
      ExprRule near (.select tag object field) type
  | index {tag : Tag} {object position : Expr} {type : Ty}
      (typed : given.HasType object.id (.array type)) (position_int : given.HasType position.id .int) :
      ExprRule near (.index tag object position) type

/-- The rule for a written type. -/
inductive TypeRule : TypeExpr → Ty → Prop
  | named {tag : Tag} {name : String} {symbol : SymbolId} {type : Ty}
      (means : given.Means tag.id symbol)
      (isType : given.table.hasKind (·.isType) symbol = true)
      (typed : given.HasType symbol type) : TypeRule (.named tag name) type
  | array {tag : Tag} {element : TypeExpr} {type : Ty} (typed : given.HasType element.id type) :
      TypeRule (.array tag element) (.array type)

/-- The rule for a statement, by its form. -/
inductive StmtRule (near : Surroundings) : Stmt → Prop
  | function {decl : FunctionDecl} {symbol : SymbolId} {params : List Member} {result : Ty}
      (means : given.Means decl.tag.id symbol)
      (typed : given.HasType symbol (.function params result))
      (declares : given.Declares (decl.params.map fun p => (p.name, p.tag.id)) params)
      (annotated : ∀ written, decl.returnType = some written → given.HasType written.id result) :
      StmtRule near (.funDecl decl)
  | struct {decl : StructDecl} {symbol : SymbolId} {name : String} {fields : List Member}
      (means : given.Means decl.tag.id symbol)
      (typed : given.HasType symbol (.struct symbol name fields))
      (declares : given.Declares (decl.fields.map fun f => (f.name, f.tag.id)) fields) :
      StmtRule near (.structDecl decl)
  | class_ {decl : ClassDecl} {symbol : SymbolId} {name : String} {fields methods : List Member}
      {supers : List ClassRow} (means : given.Means decl.tag.id symbol)
      (typed : given.HasType symbol (.object ⟨symbol, name, fields, methods⟩ supers))
      (declaresFields : given.Declares (decl.fields.map fun f => (f.name, f.tag.id)) fields)
      (declaresMethods : given.Declares (decl.methods.map fun f => (f.name, f.tag.id)) methods)
      (above : given.Above symbol supers) : StmtRule near (.classDecl decl)
  | annotated {decl : VarDecl} {symbol : SymbolId} {written : TypeExpr} {type : Ty}
      (told : decl.type = some written) (means : given.Means decl.tag.id symbol)
      (typed : given.HasType symbol type) (same : given.HasType written.id type)
      (fills : given.Fills decl.initializer type) : StmtRule near (.varDecl decl)
  | inferred {decl : VarDecl} {symbol : SymbolId} {type : Ty} (told : decl.type = none)
      (means : given.Means decl.tag.id symbol) (typed : given.HasType symbol type)
      (same : given.HasType decl.initializer.id type) (fills : given.Fills decl.initializer type) :
      StmtRule near (.varDecl decl)
  | block {body : Block} : StmtRule near (.block body)
  | ifElse {tag : Tag} {condition : Expr} {first : Stmt} {second : Option Stmt}
      (typed : given.HasType condition.id .boolean) :
      StmtRule near (.ifElse tag condition first second)
  | whileLoop {tag : Tag} {condition : Expr} {body : Stmt}
      (typed : given.HasType condition.id .boolean) : StmtRule near (.whileLoop tag condition body)
  /-- A return gives the nearest function what it promises, which is `Unit` if there is no value. -/
  | returns {tag : Tag} {value : Option Expr} {decl : FunctionDecl} {symbol : SymbolId}
      {params : List Member} {result : Ty} (inside : near.function? = some decl)
      (means : given.Means decl.tag.id symbol)
      (typed : given.HasType symbol (.function params result))
      (nothing : value = none → result = .unit)
      (fills : ∀ e, value = some e → given.Fills e result) : StmtRule near (.returnStmt tag value)
  | exprStmt {tag : Tag} {e : Expr} : StmtRule near (.exprStmt tag e)

/-- Every node of a unit is typed by the rule for its form. -/
structure WellTyped (unit : CompilationUnit) : Prop where
  exprs : ∀ {near e}, unit.HasExpr near e →
    ∃ type, given.HasType e.id type ∧ given.ExprRule near e type
  stmts : ∀ {near s}, unit.HasStmt near s → given.StmtRule near s
  types : ∀ {written}, unit.HasTypeExpr written →
    ∃ type, given.HasType written.id type ∧ given.TypeRule written type
  /-- Parameters and fields have the types with which they are declared. -/
  names : ∀ {p}, unit.HasParam p ∨ unit.HasField p →
    ∃ symbol type, given.Means p.tag.id symbol ∧ given.HasType symbol type ∧
      given.HasType p.type.id type

end Typing

/-! ### What the checks ask for -/

namespace Checks

theorem problemsAt_eq_nil {result : Except TypeProblem Unit} (h : problemsAt span result = []) :
    result = .ok () := by
  cases result with
  | error problem => cases h
  | ok _ => rfl

theorem assignable_of_expect (h : a.expectAssignable b = .ok ()) : a.assignable b = true := by
  unfold Ty.expectAssignable at h
  split at h
  · assumption
  · cases h

/-- Where only atoms are accepted, being the same type as one of them is being one of them. -/
theorem mem_of_expectOneOf {accepted : List Ty} (atoms : accepted.all Ty.isAtom = true)
    (h : type.expectOneOf accepted = .ok ()) : type ∈ accepted := by
  unfold Ty.expectOneOf at h
  split at h
  · next found =>
      obtain ⟨b, mem, same⟩ := contains_iff_exists_mem_beq.mp found
      rw [(Ty.same_atom (all_eq_true.mp atoms b mem)).mp same]
      exact mem
  · cases h

theorem incompatibleFrom_eq_nil {types : List Ty} {position : Nat}
    (lengths : params.length = types.length) (h : incompatibleFrom position params types = []) :
    List.Forall₂ (fun type param => type.assignable param.type = true) types params := by
  induction params generalizing types position with
  | nil =>
    cases length_eq_zero_iff.mp lengths.symm
    exact .nil
  | cons param params ih =>
    cases types with
    | nil => cases lengths
    | cons type types =>
      rw [incompatibleFrom] at h
      split at h
      · next fits => exact .cons fits (ih (Nat.succ.inj lengths) h)
      · cases h

theorem argumentProblems_eq_nil {types : List Ty} (h : argumentProblems params types = []) :
    List.Forall₂ (fun type param => type.assignable param.type = true) types params := by
  obtain ⟨arity, fits⟩ := append_eq_nil_iff.mp h
  split at arity
  · next lengths => exact incompatibleFrom_eq_nil lengths fits
  · cases arity

theorem returnErrors_eq_nil {value : Option Expr} {result : Ty} {types : Expr → Ty}
    (h : returnErrors span value (.function params result :: value.toList.map types) = []) :
    (value = none → result = .unit) ∧ ∀ e, value = some e → (types e).assignable result = true := by
  cases value with
  | none =>
    refine ⟨fun _ => ?_, nofun⟩
    simp only [returnErrors, Option.toList_none, map_nil] at h
    split at h
    · next same => exact (Ty.same_atom rfl).mp same
    · cases h
  | some e =>
    refine ⟨nofun, fun e same => ?_⟩
    cases same
    simp only [returnErrors, Option.toList_some, map_singleton] at h
    split at h
    · assumption
    · cases h

theorem oneOf_mem_binaryRules (tag : Tag) (left right : Expr) (h : op.accepted.isEmpty = false) :
    oneOf "check left operand" left op.accepted ∈ binaryRules tag op left right ∧
      oneOf "check right operand" right op.accepted ∈ binaryRules tag op left right := by
  simp [binaryRules, h]

theorem comparable_mem_binaryRules (tag : Tag) (left right : Expr)
    (h : (op.isComparison || op.isEquality) = true) :
    comparable tag op left right ∈ binaryRules tag op left right := by
  simp only [binaryRules, h]
  exact mem_append_right _ (.head _)

theorem related_of_expectComparable (family : op.isEquality = true)
    (h : op.expectComparable a b = .ok ()) : a.related b = true := by
  rw [BinaryOp.expectComparable, family, if_pos rfl] at h
  split at h
  · assumption
  · cases h

theorem same_of_expectComparable (family : op.isEquality = false)
    (h : op.expectComparable a b = .ok ()) : a.same b = true := by
  rw [BinaryOp.expectComparable, family, if_neg Bool.false_ne_true] at h
  split at h
  · assumption
  · cases h

end Checks

/-- The families of operators, with what the operands of each may be. -/
theorem BinaryOp.family (op : BinaryOp) :
    op.isArithmetic = true ∨
    (op.isComparison = true ∧ op.isEquality = false ∧ op.isArithmetic = false ∧
      op.accepted = [.boolean, .int, .float, .string]) ∨
    (op.isEquality = true ∧ op.isArithmetic = false) ∨
    (op.isLogical = true ∧ op.isArithmetic = false ∧ op.accepted = [.boolean]) := by
  cases op <;> simp [isArithmetic, isComparison, isEquality, isLogical, accepted]

/-! ### What the rules for types ask for -/

namespace Types

theorem arithmetic_result (family : op.isArithmetic = true) (h : op.result a b = .ok type) :
    (a = .int ∨ a = .float) ∧ (b = .int ∨ b = .float) ∧
      (type = .int ∨ type = .float) ∧ (type = .int ↔ a = .int ∧ b = .int) := by
  unfold BinaryOp.result at h
  rw [if_pos family] at h
  split at h <;> cases h <;> simp

theorem boolean_result (family : op.isArithmetic = false) (h : op.result a b = .ok type) :
    type = .boolean := by
  unfold BinaryOp.result at h
  rw [family] at h
  cases h
  rfl

theorem calls_of_callType {called : Ty} (h : callType span called = .ok v) :
    ∃ params type, v = .type type ∧ called.parameters? = some params ∧ called.Calls params type := by
  cases called with
  | function params result =>
    cases h
    exact ⟨params, result, rfl, rfl, .function⟩
  | struct symbol name fields =>
    cases h
    exact ⟨fields, _, rfl, rfl, .struct⟩
  | object own supers =>
    cases h
    exact ⟨_, _, rfl, rfl, .object⟩
  | _ => cases h

theorem hasField_of_fieldType {field : String} {owner : Ty} (h : fieldType span field owner = .ok v) :
    ∃ type, v = .type type ∧ owner.HasField field type := by
  cases owner with
  | struct symbol name fields =>
    obtain ⟨type, found, rfl⟩ := fieldNamed_eq_ok h
    exact ⟨type, rfl, .struct found⟩
  | object own supers =>
    obtain ⟨type, found, rfl⟩ := fieldNamed_eq_ok h
    exact ⟨type, rfl, .object found⟩
  | _ => cases h

theorem array_of_elementType (h : elementType span type = .ok v) :
    ∃ element, v = .type element ∧ type = .array element := by
  cases type with
  | array element =>
    cases h
    exact ⟨element, rfl, rfl⟩
  | _ => cases h

theorem object_of_methodMeaning {method : String} {receiver : Ty} {t : SymbolTable}
    (h : methodMeaning span method receiver t = .ok v) :
    ∃ own supers symbol, receiver = .object own supers ∧ v = .symbol symbol ∧
      t.resolveMethod? own.symbol method = some symbol := by
  cases receiver with
  | object own supers =>
    unfold methodMeaning at h
    dsimp only at h
    split at h
    · next symbol resolved =>
        cases h
        exact ⟨own, supers, symbol, rfl, rfl, resolved⟩
    · cases h
  | _ => cases h

theorem lookup_of_methodResult {method : String} {own : ClassRow} {supers : List ClassRow}
    (h : methodResult span method (.object own supers) = .ok v) :
    ∃ params type, v = .type type ∧
      ClassRow.lookup? (·.methods) method (own :: supers) = some (.function params type) := by
  unfold methodResult at h
  dsimp only at h
  split at h
  · next params type found =>
      cases h
      exact ⟨params, type, rfl, found⟩
  · cases h

theorem typedMembers_map {α : Type} (xs : List α) (name : α → String) (node : α → NodeId)
    (symbols : NodeId → SymbolId) :
    typedMembers (xs.map name) ((xs.map node).map symbols) =
      xs.map fun x => (name x, typeOf (.symbol (symbols (node x)))) := by
  rw [typedMembers, typesOf, map_map, map_map, zip_map']
  rfl

theorem zipWith_typesOf (names : List String) (symbols : List SymbolId) (types : Attribute → Ty) :
    names.zipWith Member.mk ((typesOf symbols).map types) =
      (typedMembers names symbols).map fun m => ⟨m.1, types m.2⟩ := by
  rw [typedMembers, zipWith_map_right, map_zip_eq_zipWith]
  rfl

end Types

end BlFront
