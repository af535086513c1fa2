import BlFront.Analysis.Request
import BlFront.Syntax.Tour
import BlFront.Typing

/-!
# Type checks

Every check is a rule without exports: it reads the types it needs and reports what is wrong.
-/

namespace BlFront.Checks

def check (name : String) (deps : List Attribute) (f : List Ty → List SemanticError) : Rule :=
  .computing name deps [] fun view => do
    let types ← view.getAll Kind.type deps
    return (f types).map .report

def problemsAt (span : Span) : Except TypeProblem Unit → List SemanticError
  | .ok () => []
  | .error problem => [⟨span, problem.message⟩]

def oneOf (name : String) (expr : Expr) (accepted : List Ty) : Rule :=
  check name [typeOf expr.id] fun types =>
    types.flatMap fun type => problemsAt expr.span (type.expectOneOf accepted)

def assignable (name : String) (value : Expr) (target : Attribute) : Rule :=
  check name [typeOf value.id, target] fun
    | [actual, expected] => problemsAt value.span (actual.expectAssignable expected)
    | _ => []

def comparable (tag : Tag) (op : BinaryOp) (left right : Expr) : Rule :=
  check "check operands are comparable" [typeOf left.id, typeOf right.id] fun
    | [leftType, rightType] => problemsAt tag.span (op.expectComparable leftType rightType)
    | _ => []

def binaryRules (tag : Tag) (op : BinaryOp) (left right : Expr) : List Rule :=
  (if op.accepted.isEmpty then []
    else [oneOf "check left operand" left op.accepted, oneOf "check right operand" right op.accepted])
  ++ (if op.isComparison || op.isEquality then [comparable tag op left right] else [])

/-- Where a problem with arguments is: at the call, or at the argument. -/
def argumentError (span : Span) (spans : List Span) (problem : ArgumentProblem) : SemanticError :=
  match problem with
  | .arity _ _ => ⟨span, problem.message⟩
  | .incompatible position _ _ => ⟨spans[position]?.getD span, problem.message⟩

/-- The arguments of a call against the parameters that the first type gives. -/
def call (name : String) (span : Span) (source : Attribute) (args : List Expr)
    (parameters : Ty → Option (List Member)) : Rule :=
  check name (source :: args.map fun arg => typeOf arg.id) fun
    | [] => []
    | type :: types => match parameters type with
        | none => []
        | some params =>
          (argumentProblems params types).map (argumentError span (args.map (·.span)))

def methodParameters (method : String) : Ty → Option (List Member)
  | .object own supers =>
    (ClassRow.lookup? (·.methods) method (own :: supers)).bind Ty.parameters?
  | _ => none

def isTarget (table : SymbolTable) (symbol : SymbolId) : Bool :=
  table.hasKind (fun kind => kind.isVar || kind.isField) symbol

def assignmentRequests (valid : Bool) (target value : Expr) : List Request :=
  if valid then
    [.register (assignable "check assigned value matches target type" value (typeOf target.id))]
  else [.reject ⟨target.span, "invalid assignment target"⟩ []]

def assignRequests (r : Reactor) (table : SymbolTable) (target value : Expr) : List Request :=
  match target with
  | .reference tag _ => r.withSymbol (AttrName.symbol.of tag.id) fun symbol =>
    assignmentRequests (isTarget table symbol) target value
  | .select _ _ _ | .index _ _ _ => assignmentRequests true target value
  | _ => assignmentRequests false target value

/-- What is wrong with a return in a function of some type. -/
def returnErrors (span : Span) (value : Option Expr) : List Ty → List SemanticError
  | .function _ expected :: types => match types, value with
      | [], _ =>
        if expected == .unit then []
        else [⟨span, "return without value in a function with non-Unit return type"⟩]
      | actual :: _, some value =>
        if actual.assignable expected then []
        else [⟨value.span, "incompatible return value, expected " ++ expected.text ++ " but got "
          ++ actual.text⟩]
      | _ :: _, none => []
  | _ => []

def returnRequests (r : Reactor) (tag : Tag) (value : Option Expr) : List Request :=
  r.withSymbol (AttrName.containingFunction.of tag.id) fun symbol =>
    let deps := typeOf symbol :: value.toList.map fun v => typeOf v.id
    [.register (check "check return" deps (returnErrors tag.span value))]

def exprRequests (r : Reactor) (table : SymbolTable) : Expr → List Request
  | .index _ _ position => [.register (oneOf "check index is Int" position [.int])]
  | .binary tag op left right => (binaryRules tag op left right).map .register
  | .unary _ op operand => [.register (oneOf "check unary operand" operand op.accepted)]
  | .assign _ target value => assignRequests r table target value
  | .call tag callee args =>
    [.register (call "check call arguments" tag.span (typeOf callee.id) args Ty.parameters?)]
  | .methodCall tag receiver method args =>
    [.register (call "check method call arguments" tag.span (typeOf receiver.id) args
      (methodParameters method))]
  | _ => []

def partRequests (r : Reactor) (table : SymbolTable) : Part → List Request
  | .varDecl decl => r.withSymbol (AttrName.symbol.of decl.tag.id) fun symbol =>
    [.register (assignable "check initializer matches variable type" decl.initializer
      (typeOf symbol))]
  | .ifElse _ condition _ _ => [.register (oneOf "check if condition" condition [.boolean])]
  | .whileLoop _ condition => [.register (oneOf "check while condition" condition [.boolean])]
  | .returnStmt tag value => returnRequests r tag value
  | .expr e _ => exprRequests r table e
  | _ => []

def plan (unit : CompilationUnit) (table : SymbolTable) (r : Reactor) : List Request :=
  unit.entered.flatMap (partRequests r table)

end BlFront.Checks
