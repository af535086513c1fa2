import BlFront.Syntax.Basic

/-!
# Walking the syntax

A walk visits the statements, expressions and types of a unit, each before what is inside
it, in the order in which they stand in the source; of a class, all fields come before all
methods.  The body of a function and the methods of a class are no statements of their own;
only what is inside them is visited.
-/

namespace BlFront

inductive Node where
  | stmt (s : Stmt)
  | expr (e : Expr)
  | type (t : TypeExpr)

namespace Node

def id : Node → NodeId
  | .stmt s => s.id
  | .expr e => e.id
  | .type t => t.id

def describe : Node → String
  | .stmt s => "stmt " ++ toString s.id
  | .expr e => "expr " ++ toString e.id
  | .type t => "type " ++ toString t.id

end Node

section

variable {m : Type → Type} [Monad m] (visit : Node → m Unit)

def TypeExpr.walk : TypeExpr → m Unit
  | t@(.named _ _) => visit (.type t)
  | t@(.array _ element) => do
      visit (.type t)
      element.walk

def walkTypes : List TypedName → m Unit
  | [] => pure ()
  | x :: xs => do
      x.type.walk visit
      walkTypes xs

mutual

def Expr.walk (e : Expr) : m Unit := do
  visit (.expr e)
  match e with
  | .literal _ _ | .reference _ _ | .selfRef _ => pure ()
  | .array _ elements => walkExprs elements
  | .unary _ _ operand => operand.walk
  | .binary _ _ left right => do
      left.walk
      right.walk
  | .assign _ target value => do
      target.walk
      value.walk
  | .call _ callee args => do
      callee.walk
      walkExprs args
  | .methodCall _ receiver _ args => do
      receiver.walk
      walkExprs args
  | .select _ object _ => object.walk
  | .index _ object position => do
      object.walk
      position.walk

def walkExprs : List Expr → m Unit
  | [] => pure ()
  | e :: es => do
      e.walk
      walkExprs es

end

mutual

def FunctionDecl.walk : FunctionDecl → m Unit
  | ⟨_, _, params, returnType, body⟩ => do
      walkTypes visit params
      match returnType with
      | some type => type.walk visit
      | none => pure ()
      body.walk

def Block.walk : Block → m Unit
  | ⟨_, statements⟩ => walkStmts statements

def ClassDecl.walk : ClassDecl → m Unit
  | ⟨_, _, _, fields, methods⟩ => do
      walkTypes visit fields
      walkFunctions methods

def Stmt.walk (s : Stmt) : m Unit := do
  visit (.stmt s)
  match s with
  | .funDecl decl => decl.walk
  | .structDecl decl => walkTypes visit decl.fields
  | .classDecl decl => decl.walk
  | .varDecl decl => do
      match decl.type with
      | some type => type.walk visit
      | none => pure ()
      decl.initializer.walk visit
  | .block body => body.walk
  | .ifElse _ condition thenBranch none => do
      condition.walk visit
      thenBranch.walk
  | .ifElse _ condition thenBranch (some elseBranch) => do
      condition.walk visit
      thenBranch.walk
      elseBranch.walk
  | .whileLoop _ condition body => do
      condition.walk visit
      body.walk
  | .returnStmt _ none => pure ()
  | .returnStmt _ (some value) => value.walk visit
  | .exprStmt _ expr => expr.walk visit

def walkStmts : List Stmt → m Unit
  | [] => pure ()
  | s :: ss => do
      s.walk
      walkStmts ss

def walkFunctions : List FunctionDecl → m Unit
  | [] => pure ()
  | f :: fs => do
      f.walk
      walkFunctions fs

end

def CompilationUnit.walk (unit : CompilationUnit) : m Unit := walkStmts visit unit.statements

end

/-! ### Records of a walk -/

/-- A walk that records what it visits and may be stopped by an error. -/
abbrev Recorder := ExceptT String (StateM (List Node))

/-- Records a node, or stops if as many as the limit are recorded. -/
def record (limit : Option Nat) (node : Node) : Recorder Unit := do
  let seen ← get
  if limit.any (· ≤ seen.length) then throw ("stopped at " ++ node.describe)
  else set (seen ++ [node])

structure WalkRecord where
  visited : List Node
  stopped : Option String

/-- The nodes of a unit in the order of the walk, at most as many as the limit. -/
def CompilationUnit.visits (unit : CompilationUnit) (limit : Option Nat) : WalkRecord :=
  match ((unit.walk (record limit)).run).run [] with
  | (.ok _, visited) => ⟨visited, none⟩
  | (.error e, visited) => ⟨visited, some e⟩

end BlFront
