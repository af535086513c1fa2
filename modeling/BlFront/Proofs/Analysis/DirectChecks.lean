import BlFront.Proofs.Analysis.Soundness
import BlFront.Proofs.Reactor.Sequence

/-!
# Type checks without a reactor

One walk over a unit whose types are known finds all that the pass over type checks reports, in the
same order: bad targets of assignments first, then what is wrong with each node, a node before what
is inside it.
-/

namespace BlFront

open List CompilationUnit

variable {e : Expr} {expected : Option Expected}

/-! ### What is wrong with a node -/

inductive Complaint where
  /-- A value is assigned to something that cannot be assigned to. -/
  | target (span : Span)
  | violation (error : SemanticError)

namespace Complaint

def early : Complaint → List SemanticError
  | .target span => [⟨span, "invalid assignment target"⟩]
  | .violation _ => []

def late : Complaint → List SemanticError
  | .target _ => []
  | .violation error => [error]

/-- The errors in the order in which they are told: bad targets come first. -/
def told (complaints : List Complaint) : List SemanticError :=
  complaints.flatMap early ++ complaints.flatMap late

end Complaint

/-- What earlier phases have found out. -/
structure Resolved where
  /-- The type of a node. -/
  type : NodeId → Ty
  /-- The type of the symbol that a node is bound to. -/
  symbolType : NodeId → Ty
  /-- Whether a node is bound to a variable or a field. -/
  isTarget : NodeId → Bool

namespace Resolved

variable (k : Resolved)

def expect (fine : Bool) (span : Span) (message : String) : List Complaint :=
  if fine then [] else [.violation ⟨span, message⟩]

def oneOf (e : Expr) (accepted : List Ty) : List Complaint :=
  expect (accepted.contains (k.type e.id)) e.span ("invalid type " ++ (k.type e.id).text ++
    ", expecting one of " ++ ", ".intercalate (accepted.map Ty.text))

def fits (value : Expr) (expected : Ty) : List Complaint :=
  expect ((k.type value.id).assignable expected) value.span
    ("invalid type " ++ (k.type value.id).text ++ ", expected " ++ expected.text)

def compared (tag : Tag) (fine : Bool) (left right : Expr) : List Complaint :=
  expect fine tag.span
    ("can not compare " ++ (k.type left.id).text ++ " to " ++ (k.type right.id).text)

/-- The left operand, the right one, and whether both can be compared. -/
def operands (tag : Tag) (op : BinaryOp) (left right : Expr) : List Complaint :=
  let both (accepted : List Ty) := k.oneOf left accepted ++ k.oneOf right accepted
  match op with
  | .add | .sub | .mul | .div | .mod => both [.int, .float]
  | .and | .or => both [.boolean]
  | .lt | .gt | .le | .ge => both [.boolean, .int, .float, .string] ++
    k.compared tag (k.type left.id == k.type right.id) left right
  | .eq | .ne => k.compared tag ((k.type left.id).related (k.type right.id)) left right

def operand (op : UnaryOp) (inner : Expr) : List Complaint :=
  match op with
  | .not => k.oneOf inner [.boolean]
  | .neg => k.oneOf inner [.int, .float]

def assigned (target value : Expr) : List Complaint :=
  match target with
  | .reference tag _ =>
    if k.isTarget tag.id then k.fits value (k.type target.id) else [.target target.span]
  | .select _ _ _ | .index _ _ _ => k.fits value (k.type target.id)
  | _ => [.target target.span]

def mismatch (position : Nat) (expected actual : Ty) : String :=
  "incompatible argument at position " ++ toString (position + 1) ++ ": expected " ++ expected.text ++
    " but got " ++ actual.text

/-- The arguments from a position on, each against its parameter. -/
def mismatches (position : Nat) : List Member → List Expr → List Complaint
  | param :: params, arg :: args =>
    let actual := k.type arg.id
    (if actual.assignable param.type then []
      else [.violation ⟨arg.span, mismatch position param.type actual⟩]) ++
      mismatches (position + 1) params args
  | _, _ => []

/-- The number of arguments, then each argument. -/
def arguments (span : Span) (args : List Expr) : Option (List Member) → List Complaint
  | none => []
  | some params =>
    (if params.length = args.length then []
      else [.violation ⟨span, "expected " ++ toString params.length ++
        (if params.length = 1 then " argument" else " arguments") ++ " but got " ++
        toString args.length⟩]) ++
      k.mismatches 0 params args

/-- What a value of some type takes when it is called: its parameters, or its fields, which begin with
those of the outermost ancestor. -/
def parameters : Ty → Option (List Member)
  | .function params _ => some params
  | .struct _ _ fields => some fields
  | .object own supers => some (supers.reverse.flatMap (·.fields) ++ own.fields)
  | _ => none

/-- What a method takes: of those with its name the first, from the class itself upward. -/
def methodParameters (method : String) : Ty → Option (List Member)
  | .object own supers =>
    (((own :: supers).flatMap (·.methods)).find? (·.name == method)).bind (parameters ·.type)
  | _ => none

/-- A return against the type of the function that it leaves. -/
def returned (tag : Tag) : Option Ty → Option Expr → List Complaint
  | some (.function _ expected), none =>
    if expected == .unit then []
    else [.violation ⟨tag.span, "return without value in a function with non-Unit return type"⟩]
  | some (.function _ expected), some value =>
    if (k.type value.id).assignable expected then []
    else [.violation ⟨value.span, "incompatible return value, expected " ++ expected.text ++
      " but got " ++ (k.type value.id).text⟩]
  | _, _ => []

/-- What is wrong with an expression itself. -/
def atExpr : Expr → List Complaint
  | .index _ _ position => k.oneOf position [.int]
  | .binary tag op left right => k.operands tag op left right
  | .unary _ op inner => k.operand op inner
  | .assign _ target value => k.assigned target value
  | .call tag callee args => k.arguments tag.span args (parameters (k.type callee.id))
  | .methodCall tag receiver method args =>
    k.arguments tag.span args (methodParameters method (k.type receiver.id))
  | _ => []

theorem parameters_eq (type : Ty) : parameters type = type.parameters? := by
  cases type with
  | object own supers => simp [parameters, Ty.parameters?, ClassRow.allFields]
  | _ => rfl

theorem methodParameters_eq (method : String) (type : Ty) :
    methodParameters method type = Checks.methodParameters method type := by
  cases type with
  | object own supers =>
    have found : (((own :: supers).flatMap (·.methods)).find? (·.name == method)).map (·.type) =
        ClassRow.lookup? (·.methods) method (own :: supers) := by
      rw [List.find?_flatMap, ClassRow.lookup?, List.map_findSome?]
      rfl
    rw [Checks.methodParameters, methodParameters, ← found, Option.bind_map]
    exact congrArg _ (funext fun m => parameters_eq m.type)
  | _ => rfl

/-! ### The walk -/

mutual

def walkExpr : Expr → List Complaint
  | .literal _ _ | .reference _ _ | .selfRef _ => []
  | .array _ elements => walkExprs elements
  | e@(.unary _ _ operand) => k.atExpr e ++ walkExpr operand
  | e@(.binary _ _ left right) => k.atExpr e ++ (walkExpr left ++ walkExpr right)
  | e@(.assign _ target value) => k.atExpr e ++ (walkExpr target ++ walkExpr value)
  | e@(.call _ callee args) => k.atExpr e ++ (walkExpr callee ++ walkExprs args)
  | e@(.methodCall _ receiver _ args) => k.atExpr e ++ (walkExpr receiver ++ walkExprs args)
  | .select _ object _ => walkExpr object
  | e@(.index _ object position) => k.atExpr e ++ (walkExpr object ++ walkExpr position)

def walkExprs : List Expr → List Complaint
  | [] => []
  | e :: es => walkExpr e ++ walkExprs es

end

mutual

def walkFunction : FunctionDecl → List Complaint
  | ⟨tag, _, _, _, body⟩ => walkBlock (some (k.symbolType tag.id)) body

/-- A block in a function of some type. -/
def walkBlock (callable : Option Ty) : Block → List Complaint
  | ⟨_, statements⟩ => walkStmts callable statements

def walkClass : ClassDecl → List Complaint
  | ⟨_, _, _, _, methods⟩ => walkFunctions methods

def walkStmt (callable : Option Ty) : Stmt → List Complaint
  | .funDecl decl => walkFunction decl
  | .structDecl _ => []
  | .classDecl decl => walkClass decl
  | .varDecl decl =>
    k.fits decl.initializer (k.symbolType decl.tag.id) ++ k.walkExpr decl.initializer
  | .block body => walkBlock callable body
  | .ifElse _ condition first none =>
    k.oneOf condition [.boolean] ++ (k.walkExpr condition ++ walkStmt callable first)
  | .ifElse _ condition first (some second) =>
    k.oneOf condition [.boolean] ++
      (k.walkExpr condition ++ (walkStmt callable first ++ walkStmt callable second))
  | .whileLoop _ condition body =>
    k.oneOf condition [.boolean] ++ (k.walkExpr condition ++ walkStmt callable body)
  | .returnStmt tag value =>
    k.returned tag callable value ++ value.toList.flatMap k.walkExpr
  | .exprStmt _ e => k.walkExpr e

def walkStmts (callable : Option Ty) : List Stmt → List Complaint
  | [] => []
  | s :: ss => walkStmt callable s ++ walkStmts callable ss

def walkFunctions : List FunctionDecl → List Complaint
  | [] => []
  | f :: fs => walkFunction f ++ walkFunctions fs

end

/-- All that is wrong with a unit. -/
def walk (unit : CompilationUnit) : List Complaint := k.walkStmts none unit.statements

/-! ### The walk as a sequence of parts -/

/-- The type of the innermost function among some parts. -/
def callable (around : List Part) : Option Ty :=
  match around.find? Part.isFunction with
  | some (.function decl) => some (k.symbolType decl.tag.id)
  | _ => none

/-- What is wrong with a part itself. -/
def atPart (callable : Option Ty) : Part → List Complaint
  | .varDecl decl => k.fits decl.initializer (k.symbolType decl.tag.id)
  | .ifElse _ condition _ _ => k.oneOf condition [.boolean]
  | .whileLoop _ condition => k.oneOf condition [.boolean]
  | .returnStmt tag value => k.returned tag callable value
  | .expr e _ => k.atExpr e
  | _ => []

def atSite (site : Part × List Part) : List Complaint := k.atPart (k.callable site.2) site.1

theorem callable_cons {part : Part} (other : part.isFunction = false) (around : List Part) :
    k.callable (part :: around) = k.callable around := by
  rw [callable, callable, List.find?_cons_of_neg (by simp [other])]

theorem walkExprs_eq (es : List Expr) : k.walkExprs es = es.flatMap k.walkExpr := by
  induction es with
  | nil => rfl
  | cons e es ih => rw [walkExprs, ih, flatMap_cons]

theorem walkStmts_eq (callable : Option Ty) (ss : List Stmt) :
    k.walkStmts callable ss = ss.flatMap (k.walkStmt callable) := by
  induction ss with
  | nil => rfl
  | cons s ss ih => rw [walkStmts, ih, flatMap_cons]

theorem walkFunctions_eq (fs : List FunctionDecl) : k.walkFunctions fs = fs.flatMap k.walkFunction := by
  induction fs with
  | nil => rfl
  | cons f fs ih => rw [walkFunctions, ih, flatMap_cons]

/-- What the walk tells about a branch in a function of some type. -/
def walkBranch (callable : Option Ty) : Branch → List Complaint
  | .expr e _ => k.walkExpr e
  | .stmt s => k.walkStmt callable s
  | _ => []

/-- A part comes before what is inside it. -/
theorem walkBranch_eq (b : Branch) (around : List Part) :
    k.walkBranch (k.callable around) b = k.atSite (b.part, around) ++
      b.inside.flatMap (k.walkBranch (k.callable (b.part :: around))) := by
  have same : b.part.isFunction = false → k.callable (b.part :: around) = k.callable around :=
    fun other => k.callable_cons other around
  cases b with
  | type written => cases written <;> rfl
  | expr e expected =>
    cases e <;> simp [walkBranch, walkExpr, atSite, atPart, Branch.part, Branch.inside, Expr.operands,
      walkExprs_eq, atExpr, flatMap_map]
  | stmt s =>
    cases s with
    | funDecl decl =>
      obtain ⟨tag, name, params, returnType, body⟩ := decl
      have inner : k.callable ((Branch.stmt (.funDecl ⟨tag, name, params, returnType, body⟩)).part ::
        around) = some (k.symbolType tag.id) := rfl
      have quiet : ∀ {α : Type} (xs : List α), (xs.flatMap fun _ => ([] : List Complaint)) = [] := by
        simp
      rw [inner]
      simp [walkBranch, walkStmt, walkFunction, atSite, atPart, Branch.part, Stmt.part,
        Branch.inside, Stmt.inside, flatMap_map, quiet]
    | classDecl decl =>
      obtain ⟨tag, name, superclass, fields, methods⟩ := decl
      simp [walkBranch, walkStmt, walkClass, walkFunctions_eq, atSite, atPart, Branch.part,
        Stmt.part, Branch.inside, Stmt.inside, flatMap_map]
    | varDecl decl =>
      cases told : decl.type <;> simp [walkBranch, walkStmt, atSite, atPart, Branch.part, Stmt.part,
        Branch.inside, Stmt.inside, told]
    | block body =>
      obtain ⟨tag, statements⟩ := body
      rw [same rfl]
      simp [walkBranch, walkStmt, walkBlock, walkStmts_eq, atSite, atPart, Branch.part, Stmt.part,
        Branch.inside, Stmt.inside, flatMap_map]
    | ifElse tag condition first second =>
      rw [same rfl]
      cases second <;> simp [walkBranch, walkStmt, atSite, atPart, Branch.part, Stmt.part,
        Branch.inside, Stmt.inside]
    | _ =>
      rw [same rfl]
      simp [walkBranch, walkStmt, atSite, atPart, Branch.part, Stmt.part, Branch.inside,
        Stmt.inside, flatMap_map]
  | _ => rfl

theorem walkBranch_sites (b : Branch) (around : List Part) :
    (sitesFrom around b.tour).flatMap k.atSite = k.walkBranch (k.callable around) b := by
  induction b using Branch.induction generalizing around with
  | step b ih =>
    rw [b.sitesFrom_tour, flatMap_cons, flatMap_assoc, walkBranch_eq]
    exact congrArg _ (flatMap_congr fun c mem => ih c mem _)

/-- The walk tells what is wrong with one part after the other. -/
theorem walk_eq (unit : CompilationUnit) : k.walk unit = unit.sites.flatMap k.atSite := by
  rw [walk, walkStmts_eq, sites, unit.tour_eq, sitesFrom_flatMap Stmt.tree,
    flatMap_assoc]
  exact flatMap_congr fun s _ => (k.walkBranch_sites (.stmt s) []).symm

end Resolved

/-! ### Requests and complaints -/

/-- Requests that come to the same as some complaints. -/
structure Amounts (t : SymbolTable) (r : Reactor) (requests : List Request)
    (complaints : List Complaint) : Prop where
  prompt : ∀ q ∈ requests, q.Prompt t r.get?
  certain : requests.flatMap Request.certain = complaints.flatMap Complaint.early
  owed : requests.flatMap (Request.owed t r.get?) = complaints.flatMap Complaint.late

namespace Amounts

variable {t : SymbolTable} {r : Reactor}

theorem nil : Amounts t r [] [] := ⟨by simp, rfl, rfl⟩

theorem append {requests more : List Request} {complaints others : List Complaint}
    (first : Amounts t r requests complaints) (second : Amounts t r more others) :
    Amounts t r (requests ++ more) (complaints ++ others) where
  prompt q mem := by
    rcases mem_append.mp mem with mem | mem
    · exact first.prompt q mem
    · exact second.prompt q mem
  certain := by rw [flatMap_append, flatMap_append, first.certain, second.certain]
  owed := by rw [flatMap_append, flatMap_append, first.owed, second.owed]

theorem flatMap {α : Type} {xs : List α} {requests : α → List Request}
    {complaints : α → List Complaint} (each : ∀ x ∈ xs, Amounts t r (requests x) (complaints x)) :
    Amounts t r (xs.flatMap requests) (xs.flatMap complaints) := by
  induction xs with
  | nil => exact .nil
  | cons x xs ih =>
    rw [flatMap_cons, flatMap_cons]
    exact (each x (by simp)).append (ih fun x mem => each x (by simp [mem]))

theorem target (span : Span) :
    Amounts t r [.reject ⟨span, "invalid assignment target"⟩ []] [.target span] :=
  ⟨by simp [Request.Prompt], rfl, rfl⟩

end Amounts

namespace Analysis

variable {unit : CompilationUnit} {a a₁ a₂ a₃ : Analysis} {t : SymbolTable}

open Names

/-- What is known about a unit before its types are checked. -/
def resolved (a : Analysis) : Resolved where
  type n := a.typeAt n
  symbolType n := a.typeAt (symbolAt a.reactor n)
  isTarget n := match a.symbols.kind? (symbolAt a.reactor n) with
    | some .var | some .field => true
    | _ => false

theorem isTarget_resolved (a : Analysis) (n : NodeId) :
    a.resolved.isTarget n = Checks.isTarget a.symbols (symbolAt a.reactor n) := by
  unfold resolved Checks.isTarget SymbolTable.hasKind
  dsimp only
  cases a.symbols.kind? (symbolAt a.reactor n) with
  | none => rfl
  | some kind => cases kind <;> rfl

/-! ### Checks -/

section Checks

/-- A check of types that are known. -/
theorem check_amounts {name : String} {deps : List Attribute} {f : List Ty → List SemanticError}
    {complaints : List Complaint} (owners : List Owner) (reads : deps = owners.map typeOf)
    (typed : ∀ owner ∈ owners, a.typing.HasType owner (a.typeAt owner))
    (told : (f (owners.map a.typeAt)).map .violation = complaints) :
    Amounts t a.reactor [.register (Checks.check name deps f)] complaints := by
  subst reads told
  have found : ∀ d ∈ owners.map typeOf, a.reactor.get? d = some (valueAt a.reactor d) ∧
      valueAt a.reactor d = .type (valueAt a.reactor d).asType := by
    intro d hd
    obtain ⟨owner, mem, rfl⟩ := mem_map.mp hd
    have read := hasType_iff.mp (typed owner mem)
    have same : valueAt a.reactor (typeOf owner) = .type (a.typeAt owner) := valueAt_eq read
    exact ⟨read.trans (congrArg some same.symm), same⟩
  have types : (owners.map typeOf).map (fun d => (valueAt a.reactor d).asType) =
      owners.map a.typeAt := map_map
  have computes : (Checks.check name (owners.map typeOf) f).Computes t (valueAt a.reactor) _ :=
    Checks.check_computes fun d hd => (found d hd).2
  rw [types] at computes
  obtain ⟨g, body, result⟩ := computes
  have utters : (Checks.check name (owners.map typeOf) f).tidied.Utters t a.reactor.get?
      (f (owners.map a.typeAt)) :=
    ⟨fun d hd => ⟨_, (found d (Rule.mem_deps_tidied.mp hd)).1⟩, rfl, g, body,
      result a.reactor.get? fun d hd => (found d hd).1⟩
  refine ⟨forall_mem_singleton.mpr ⟨_, utters⟩, ?_, ?_⟩
  · simp [Request.certain, Complaint.early, flatMap_map]
  · rw [flatMap_singleton, Request.owed, utters.errors_eq, flatMap_map]
    exact (flatMap_singleton' _).symm

theorem problemsAt_violation (span : Span) (fine : Bool) (problem : TypeProblem) :
    (Checks.problemsAt span (if fine then .ok () else .error problem)).map .violation =
      Resolved.expect fine span problem.message := by
  cases fine <;> rfl

theorem oneOf_amounts (name : String) (accepted : List Ty)
    (typed : a.typing.HasType e.id (a.typeAt e.id)) :
    Amounts t a.reactor [.register (Checks.oneOf name e accepted)] (a.resolved.oneOf e accepted) := by
  refine check_amounts [e.id] rfl (forall_mem_singleton.mpr typed) ?_
  rw [map_singleton, flatMap_singleton]
  exact problemsAt_violation e.span _ _

theorem assignable_amounts (name : String) {value : Expr} {target : Owner}
    (typed : a.typing.HasType value.id (a.typeAt value.id))
    (typedTarget : a.typing.HasType target (a.typeAt target)) :
    Amounts t a.reactor [.register (Checks.assignable name value (typeOf target))]
      (a.resolved.fits value (a.typeAt target)) :=
  check_amounts [value.id, target] rfl
    (forall_mem_cons.mpr ⟨typed, forall_mem_singleton.mpr typedTarget⟩)
    (problemsAt_violation value.span _ _)

theorem comparable_amounts (tag : Tag) (op : BinaryOp) {left right : Expr}
    (typedLeft : a.typing.HasType left.id (a.typeAt left.id))
    (typedRight : a.typing.HasType right.id (a.typeAt right.id)) :
    Amounts t a.reactor [.register (Checks.comparable tag op left right)]
      (a.resolved.compared tag (if op.isEquality then (a.typeAt left.id).related (a.typeAt right.id)
        else a.typeAt left.id == a.typeAt right.id) left right) :=
  check_amounts [left.id, right.id] rfl
    (forall_mem_cons.mpr ⟨typedLeft, forall_mem_singleton.mpr typedRight⟩)
    (problemsAt_violation tag.span _ _)

/-- Both operands are checked unless the operator tests for equality. -/
theorem binary_amounts (tag : Tag) (op : BinaryOp) {left right : Expr}
    (typedLeft : a.typing.HasType left.id (a.typeAt left.id))
    (typedRight : a.typing.HasType right.id (a.typeAt right.id)) :
    Amounts t a.reactor ((Checks.binaryRules tag op left right).map .register)
      (a.resolved.operands tag op left right) := by
  have compared := comparable_amounts (t := t) tag op typedLeft typedRight
  have both := fun accepted => (oneOf_amounts (t := t) "check left operand" accepted typedLeft).append
    (oneOf_amounts "check right operand" accepted typedRight)
  cases op with
  | eq | ne => exact compared
  | lt | gt | le | ge => exact (both [.boolean, .int, .float, .string]).append compared
  | and | or => exact both [.boolean]
  | add | sub | mul | div | mod => exact both [.int, .float]

theorem unary_amounts (op : UnaryOp) (typed : a.typing.HasType e.id (a.typeAt e.id)) :
    Amounts t a.reactor [.register (Checks.oneOf "check unary operand" e op.accepted)]
      (a.resolved.operand op e) := by
  cases op with
  | neg => exact oneOf_amounts _ [.int, .float] typed
  | not => exact oneOf_amounts _ [.boolean] typed

theorem message_incompatible (position : Nat) (expected actual : Ty) :
    (ArgumentProblem.incompatible position expected actual).message =
      Resolved.mismatch position expected actual := rfl

/-- Problems with arguments are at the arguments. -/
theorem incompatibleFrom_violation (span : Span) (before : List Span) (params : List Member)
    (args : List Expr) :
    ((incompatibleFrom before.length params (args.map fun arg => a.typeAt arg.id)).map
        (Checks.argumentError span (before ++ args.map (·.span)))).map .violation =
      a.resolved.mismatches before.length params args := by
  induction params generalizing before args with
  | nil => rfl
  | cons param params ih =>
    cases args with
    | nil => rfl
    | cons arg args =>
      have rest := ih (before ++ [arg.span]) args
      rw [length_append, length_singleton, append_assoc] at rest
      have here : (before ++ (arg :: args).map (·.span))[before.length]? = some arg.span := by
        simp
      simp only [map_cons, incompatibleFrom, Resolved.mismatches, ← rest]
      cases fine : (a.typeAt arg.id).assignable param.type with
      | true => simp [resolved, fine]
      | false => simp [resolved, fine, Checks.argumentError, message_incompatible]

theorem call_amounts (name : String) (span : Span) {source : Owner} {args : List Expr}
    (parameters : Ty → Option (List Member)) (typed : a.typing.HasType source (a.typeAt source))
    (typedArgs : ∀ arg ∈ args, a.typing.HasType arg.id (a.typeAt arg.id)) :
    Amounts t a.reactor [.register (Checks.call name span (typeOf source) args parameters)]
      (a.resolved.arguments span args (parameters (a.typeAt source))) := by
  refine check_amounts (source :: args.map fun arg => .node arg.id) (by simp) ?_ ?_
  · refine forall_mem_cons.mpr ⟨typed, fun owner listed => ?_⟩
    obtain ⟨arg, mem, rfl⟩ := mem_map.mp listed
    exact typedArgs arg mem
  · rw [map_cons, map_map]
    dsimp only
    cases parameters (a.typeAt source) with
    | none => rfl
    | some params =>
      have each := incompatibleFrom_violation (a := a) span [] params args
      rw [length_nil, nil_append] at each
      simp only [argumentProblems, Resolved.arguments, map_append, length_map,
        Function.comp_def, each]
      congr 1
      split <;> rfl

theorem return_amounts (tag : Tag) (callable : Owner) (value : Option Expr)
    (typed : a.typing.HasType callable (a.typeAt callable))
    (typedValue : ∀ v ∈ value, a.typing.HasType v.id (a.typeAt v.id)) :
    Amounts t a.reactor [.register (Checks.check "check return"
        (typeOf callable :: value.toList.map fun v => typeOf v.id)
        (Checks.returnErrors tag.span value))]
      (a.resolved.returned tag (some (a.typeAt callable)) value) := by
  refine check_amounts (callable :: value.toList.map fun v => .node v.id) (by simp) ?_ ?_
  · refine forall_mem_cons.mpr ⟨typed, fun owner listed => ?_⟩
    obtain ⟨v, mem, rfl⟩ := mem_map.mp listed
    exact typedValue v (Option.mem_toList.mp mem)
  · rw [map_cons, map_map]
    cases a.typeAt callable with
    | function params expected =>
      cases value with
      | none =>
        simp only [Checks.returnErrors, Resolved.returned, Option.toList_none, map_nil]
        split <;> rfl
      | some v =>
        simp only [Checks.returnErrors, Resolved.returned, Option.toList_some, map_cons,
          map_nil, Function.comp_apply]
        cases fine : (a.typeAt v.id).assignable expected <;> simp [resolved, fine]
    | _ => cases value <;> rfl

end Checks

/-! ### Parts -/

section Known

variable (h : Known unit a₁ a₂ a₃)

include h

/-- Looking for missing types changes none of them. -/
theorem Known.still {owner : Owner} (typed : a₂.typing.HasType owner (a₂.typeAt owner)) :
    a₃.typing.HasType owner (a₃.typeAt owner) := by
  rw [hasType_iff, typeAt, valueAt, h.get?_eq]
  exact hasType_iff.mp typed

theorem Known.expr_still (entered : .expr e expected ∈ unit.entered) :
    a₃.typing.HasType e.id (a₃.typeAt e.id) := h.still (h.expr_typed entered)

/-- What a node is bound to has a type. -/
theorem Known.bound_still {n : NodeId} {s : SymbolId}
    (bound : a₃.reactor.get? (AttrName.symbol.of n) = some (.symbol s)) :
    a₃.typing.HasType s (a₃.typeAt s) := by
  have fits : Fits (table unit) (AttrName.symbol.of n) (.symbol s) := h.settled.healthy.holds bound
  obtain ⟨_, same, present⟩ := fits.symbol rfl
  cases same
  exact h.still (h.symbol_typed present)

theorem Known.assign_amounts {tag : Tag} {target value : Expr}
    (entered : .expr (.assign tag target value) expected ∈ unit.entered) :
    Amounts (table unit) a₃.reactor (Checks.assignRequests a₃.reactor (table unit) target value)
      (a₃.resolved.assigned target value) := by
  have inside : .expr target none ∈ unit.entered :=
    child_entered entered (by simp [Part.children, Expr.operands])
  have given : .expr value none ∈ unit.entered :=
    child_entered entered (by simp [Part.children, Expr.operands])
  have fits : Amounts (table unit) a₃.reactor (Checks.assignmentRequests true target value)
      (a₃.resolved.fits value (a₃.typeAt target.id)) :=
    assignable_amounts _ (h.expr_still given) (h.expr_still inside)
  cases target with
  | reference tag name =>
    rw [Checks.assignRequests_reference h.bindings inside]
    rw [Resolved.assigned, isTarget_resolved, h.symbols_eq]
    cases Checks.isTarget (table unit) (symbolAt a₃.reactor tag.id) with
    | true => exact fits
    | false => exact .target _
  | select tag object field => exact fits
  | index tag object position => exact fits
  | _ => exact .target _

theorem Known.expr_amounts (entered : .expr e expected ∈ unit.entered) :
    Amounts (table unit) a₃.reactor (Checks.exprRequests a₃.reactor (table unit) e)
      (a₃.resolved.atExpr e) := by
  have typed : ∀ child ∈ e.children, a₃.typing.HasType child.id (a₃.typeAt child.id) :=
    fun child mem => h.still (h.child_typed entered child mem)
  cases e with
  | index tag object position =>
    exact oneOf_amounts _ _ (typed position (by simp [Expr.children, Expr.operands]))
  | unary tag op inner =>
    exact unary_amounts op (typed inner (by simp [Expr.children, Expr.operands]))
  | binary tag op left right =>
    exact binary_amounts tag op (typed left (by simp [Expr.children, Expr.operands]))
      (typed right (by simp [Expr.children, Expr.operands]))
  | assign tag target value => exact h.assign_amounts entered
  | call tag callee args =>
    rw [Resolved.atExpr, Resolved.parameters_eq]
    exact call_amounts _ _ _ (typed callee (by simp [Expr.children, Expr.operands]))
      fun arg mem => typed arg (by simp [Expr.children, Expr.operands, mem])
  | methodCall tag receiver method args =>
    rw [Resolved.atExpr, Resolved.methodParameters_eq]
    exact call_amounts _ _ _ (typed receiver (by simp [Expr.children, Expr.operands]))
      fun arg mem => typed arg (by simp [Expr.children, Expr.operands, mem])
  | _ => exact .nil

/-- What the pass asks for about a part comes to what is wrong with it. -/
theorem Known.site_amounts {site : Part × List Part} (mem : site ∈ unit.sites) :
    Amounts (table unit) a₃.reactor (Checks.partRequests a₃.reactor (table unit) site.1)
      (a₃.resolved.atSite site) := by
  obtain ⟨part, around⟩ := site
  have entered : part ∈ unit.entered := by
    rw [unit.entered_eq, ← map_fst_sitesFrom [] unit.tour]
    exact mem_map_of_mem (f := Prod.fst) mem
  cases part with
  | varDecl decl =>
    have bound := (h.bindings.symbolAt entered rfl rfl).2
    rw [Checks.variable_requests h.bindings entered]
    obtain ⟨expected, child⟩ : ∃ expected,
        .expr decl.initializer expected ∈ (Part.varDecl decl).children := by
      cases told : decl.type with
      | none => exact ⟨none, by simp [Part.children, told]⟩
      | some written => exact ⟨some ⟨written.id, 0⟩, by simp [Part.children, told]⟩
    exact assignable_amounts _ (h.expr_still (child_entered entered child))
      (h.bound_still bound)
  | ifElse tag condition first second =>
    have inside : .expr condition none ∈ unit.entered :=
      child_entered entered (by simp [Part.children])
    exact oneOf_amounts _ _ (h.expr_still inside)
  | whileLoop tag condition =>
    have inside : .expr condition none ∈ unit.entered :=
      child_entered entered (by simp [Part.children])
    exact oneOf_amounts _ _ (h.expr_still inside)
  | returnStmt tag value =>
    obtain ⟨decl, s, nearest, bound, inside⟩ := h.bindings.inFunction mem
    have requests : Checks.partRequests a₃.reactor (table unit) (.returnStmt tag value) =
        [.register (Checks.check "check return"
          (typeOf s :: value.toList.map fun v => typeOf v.id)
          (Checks.returnErrors tag.span value))] := Reactor.withSymbol_eq inside _
    have callable : a₃.resolved.callable around = some (a₃.typeAt s) := by
      rw [Resolved.callable, nearest]
      simp only [resolved, symbolAt_eq bound]
    rw [requests, Resolved.atSite, callable]
    refine return_amounts tag s value (h.bound_still bound) fun v found => ?_
    have inside : .expr v none ∈ unit.entered :=
      child_entered entered (by simp [Part.children, Option.mem_def.mp found])
    exact h.expr_still inside
  | expr e expected => exact h.expr_amounts entered
  | _ => exact .nil

theorem Known.plan_amounts : Amounts (table unit) a₃.reactor
    (Checks.plan unit (table unit) a₃.reactor) (a₃.resolved.walk unit) := by
  rw [Checks.plan, unit.entered_eq, ← map_fst_sitesFrom [] unit.tour, flatMap_map,
    Resolved.walk_eq]
  exact .flatMap fun site mem => h.site_amounts mem

end Known

end Analysis

/-- The errors of the pass over type checks are those that one walk over the unit finds with the
types that are known before, in the same order, and none of its rules is left over. -/
theorem checks_are_direct {unit : CompilationUnit} {a : Analysis}
    (passed : analyzeUntil unit .checkInferred = .ok a) :
    ∃ ready stats last,
      a.reactor.performRequests (Checks.plan unit a.symbols a.reactor) = .ok ready ∧
      ready.run a.symbols = (.ok stats, last) ∧ stats.discarded = 0 ∧
      last.rootErrors = Complaint.told (a.resolved.walk unit) ∧
      analyzeUntil unit .checkTypes =
        if Complaint.told (a.resolved.walk unit) = [] then .ok { a with reactor := last }
        else .error (.rejected .checkTypes (Complaint.told (a.resolved.walk unit))) := by
  obtain ⟨_, a₁, a₂, known⟩ := known_of_analyzeUntil passed
  have amounts := known.plan_amounts
  obtain ⟨ready, stats, last, performed, ran, discarded, roots⟩ :=
    known.settled.resting.pass_in_order amounts.prompt
  rw [known.clean, List.nil_append, amounts.certain, amounts.owed] at roots
  have told : last.rootErrors = Complaint.told (a.resolved.walk unit) := roots
  rw [← known.symbols_eq] at performed ran
  refine ⟨ready, stats, last, performed, ran, discarded, told, ?_⟩
  have advanced : a.advance .checkTypes = .ok { a with reactor := last } := by
    have pass := Reactor.runPass_eq_ok.mpr ⟨ready, stats, performed, ran⟩
    simp only [Analysis.advance, known.plan_eq, ← known.symbols_eq, pass, Except.map]
  rw [analyzeUntil_eq .checkInferred rfl, passed]
  simp only [Except.bind, Analysis.step, advanced, told, List.isEmpty_iff]

/-- A bad target inside an argument, an operand of the wrong type before it, one argument too many, a
return without a value, and one argument too few, which does not fit, for a method of an ancestor. -/
def slips : CompilationUnit := (Parser.ofText ("fun f(a: Int, b: String) -> Int { return; } " ++
  "var x = f(1 && true, 2 = 3, \"s\"); " ++
  "class C { fun m(n: Int, s: String) -> Int { return n; } } class D : C { } " ++
  "var y = D().m(true);").toList).unit

def slipMessages : List String :=
  ["invalid assignment target", "return without value in a function with non-Unit return type",
    "expected 2 arguments but got 3",
    "incompatible argument at position 1: expected Int but got Boolean",
    "incompatible argument at position 2: expected String but got Int",
    "invalid type Int, expecting one of Boolean",
    "expected 2 arguments but got 1",
    "incompatible argument at position 1: expected Int but got Boolean"]

/-- The messages of the errors that a unit is rejected with. -/
def rejections : Except AnalysisError Analysis → List String
  | .error (.rejected _ errors) => errors.map (·.message)
  | _ => []

theorem checks_are_direct_slips : ∃ a, analyzeUntil slips .checkInferred = .ok a ∧
    (Complaint.told (a.resolved.walk slips)).map (·.message) = slipMessages := by
  obtain ⟨a, passed⟩ : ∃ a, analyzeUntil slips .checkInferred = .ok a :=
    exists_of_isOk (by decide +kernel)
  refine ⟨a, passed, ?_⟩
  obtain ⟨_, _, _, _, _, _, _, result⟩ := checks_are_direct passed
  have refused : rejections (analyzeUntil slips .checkTypes) = slipMessages := by decide +kernel
  rw [result] at refused
  split at refused
  · cases refused
  · exact refused

end BlFront
