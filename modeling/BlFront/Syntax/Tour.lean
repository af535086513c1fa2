import BlFront.Syntax.Basic

/-!
# Tours

A tour enters and leaves every part of a unit, in the order in which they stand in the
source; of a class, all fields come before all methods.  What is inside a part comes between
entering and leaving it.
-/

namespace BlFront

/-- What an annotation says about an array literal: it annotates the variable whose initializer
holds the literal inside so many other literals. -/
structure Expected where
  annotated : NodeId
  depth : Nat
  deriving DecidableEq, Repr

def Expected.deeper (e : Expected) : Expected := { e with depth := e.depth + 1 }

inductive Part where
  | function (decl : FunctionDecl)
  | param (decl : TypedName)
  | structDecl (decl : StructDecl)
  | classDecl (decl : ClassDecl)
  | field (decl : TypedName)
  | varDecl (decl : VarDecl)
  | typed (decl : VarDecl) (type : TypeExpr)
  | block (block : Block)
  | ifElse (tag : Tag) (condition : Expr) (thenBranch : Stmt) (elseBranch : Option Stmt)
  | whileLoop (tag : Tag) (condition : Expr)
  | returnStmt (tag : Tag) (value : Option Expr)
  | exprStmt (tag : Tag)
  | expr (expr : Expr) (expected : Option Expected)
  | type (type : TypeExpr)

inductive Visit where
  | enter (part : Part)
  | leave (part : Part)

/-- Enters a part, then visits what is inside it, then leaves it. -/
def Part.around (part : Part) (inside : List Visit) : List Visit :=
  .enter part :: (inside ++ [.leave part])

def TypeExpr.tour : TypeExpr → List Visit
  | t@(.named _ _) => (Part.type t).around []
  | t@(.array _ element) => (Part.type t).around element.tour

def paramTour (p : TypedName) : List Visit := (Part.param p).around p.type.tour

def fieldTour (f : TypedName) : List Visit := (Part.field f).around f.type.tour

mutual

def Expr.tour : Expr → Option Expected → List Visit
  | e@(.literal _ _), expected => (Part.expr e expected).around []
  | e@(.reference _ _), expected => (Part.expr e expected).around []
  | e@(.selfRef _), expected => (Part.expr e expected).around []
  | e@(.array _ elements), expected =>
    (Part.expr e expected).around (exprsTour elements (expected.map Expected.deeper))
  | e@(.unary _ _ operand), expected => (Part.expr e expected).around (operand.tour none)
  | e@(.binary _ _ left right), expected =>
    (Part.expr e expected).around (left.tour none ++ right.tour none)
  | e@(.assign _ target value), expected =>
    (Part.expr e expected).around (target.tour none ++ value.tour none)
  | e@(.call _ callee args), expected =>
    (Part.expr e expected).around (callee.tour none ++ exprsTour args none)
  | e@(.methodCall _ receiver _ args), expected =>
    (Part.expr e expected).around (receiver.tour none ++ exprsTour args none)
  | e@(.select _ object _), expected => (Part.expr e expected).around (object.tour none)
  | e@(.index _ object position), expected =>
    (Part.expr e expected).around (object.tour none ++ position.tour none)

def exprsTour : List Expr → Option Expected → List Visit
  | [], _ => []
  | e :: es, expected => e.tour expected ++ exprsTour es expected

end

def VarDecl.tour (decl : VarDecl) : List Visit :=
  (Part.varDecl decl).around <| match decl.type with
    | some type =>
      (Part.typed decl type).around type.tour ++ decl.initializer.tour (some ⟨type.id, 0⟩)
    | none => decl.initializer.tour none

def StructDecl.tour (decl : StructDecl) : List Visit :=
  (Part.structDecl decl).around (decl.fields.flatMap fieldTour)

mutual

def FunctionDecl.tour : FunctionDecl → List Visit
  | decl@⟨_, _, params, returnType, body⟩ =>
    (Part.function decl).around
      (params.flatMap paramTour ++ (returnType.toList.flatMap TypeExpr.tour ++ body.tour))

def Block.tour : Block → List Visit
  | block@⟨_, statements⟩ => (Part.block block).around (stmtsTour statements)

def ClassDecl.tour : ClassDecl → List Visit
  | decl@⟨_, _, _, fields, methods⟩ =>
    (Part.classDecl decl).around (fields.flatMap fieldTour ++ functionsTour methods)

def Stmt.tour : Stmt → List Visit
  | .funDecl decl => decl.tour
  | .structDecl decl => decl.tour
  | .classDecl decl => decl.tour
  | .varDecl decl => decl.tour
  | .block body => body.tour
  | .ifElse tag condition thenBranch none =>
    (Part.ifElse tag condition thenBranch none).around (condition.tour none ++ thenBranch.tour)
  | .ifElse tag condition thenBranch (some elseBranch) =>
    (Part.ifElse tag condition thenBranch (some elseBranch)).around
      (condition.tour none ++ (thenBranch.tour ++ elseBranch.tour))
  | .whileLoop tag condition body =>
    (Part.whileLoop tag condition).around (condition.tour none ++ body.tour)
  | .returnStmt tag value =>
    (Part.returnStmt tag value).around (value.toList.flatMap (Expr.tour · none))
  | .exprStmt tag expr => (Part.exprStmt tag).around (expr.tour none)

def stmtsTour : List Stmt → List Visit
  | [] => []
  | s :: ss => s.tour ++ stmtsTour ss

def functionsTour : List FunctionDecl → List Visit
  | [] => []
  | f :: fs => f.tour ++ functionsTour fs

end

namespace CompilationUnit

def tour (unit : CompilationUnit) : List Visit := stmtsTour unit.statements

/-- The parts of a unit, each before what is inside it. -/
def entered (unit : CompilationUnit) : List Part :=
  unit.tour.filterMap fun | .enter part => some part | .leave _ => none

/-- The parts of a unit, each behind what is inside it. -/
def left (unit : CompilationUnit) : List Part :=
  unit.tour.filterMap fun | .enter _ => none | .leave part => some part

end CompilationUnit

end BlFront
