import BlFront.Number.Binary64
import BlFront.Syntax.Operator

/-!
# Abstract syntax

A compilation unit is a list of statements; declarations are statements too.  Every node
carries a tag with its identity, unique within the unit, and its place in the source.
-/

namespace BlFront

structure NodeId where
  index : Nat
  deriving DecidableEq, Repr, Inhabited

instance : ToString NodeId where
  toString n := "node#" ++ toString n.index

structure Tag where
  id : NodeId
  span : Span
  deriving DecidableEq, Repr, Inhabited

structure Ident where
  name : String
  span : Span
  deriving DecidableEq, Repr

/-! ### Types -/

inductive TypeExpr where
  | named (tag : Tag) (name : String)
  | array (tag : Tag) (element : TypeExpr)
  deriving DecidableEq, Repr

namespace TypeExpr

def tag : TypeExpr → Tag
  | .named tag _ => tag
  | .array tag _ => tag

def id (t : TypeExpr) : NodeId := t.tag.id

def span (t : TypeExpr) : Span := t.tag.span

def text : TypeExpr → String
  | .named _ name => name
  | .array _ element => "[" ++ element.text ++ "]"

end TypeExpr

structure TypedName where
  tag : Tag
  name : String
  type : TypeExpr
  deriving DecidableEq, Repr

/-! ### Expressions -/

inductive Literal where
  | int (value : Int)
  | float (value : Binary64)
  | string (value : String)
  | bool (value : Bool)
  | unit
  deriving DecidableEq, Repr

inductive Expr where
  | literal (tag : Tag) (value : Literal)
  | array (tag : Tag) (elements : List Expr)
  | reference (tag : Tag) (name : String)
  | selfRef (tag : Tag)
  | unary (tag : Tag) (op : UnaryOp) (operand : Expr)
  | binary (tag : Tag) (op : BinaryOp) (left right : Expr)
  | assign (tag : Tag) (target value : Expr)
  | call (tag : Tag) (callee : Expr) (args : List Expr)
  | methodCall (tag : Tag) (receiver : Expr) (method : String) (args : List Expr)
  | select (tag : Tag) (object : Expr) (field : String)
  | index (tag : Tag) (object position : Expr)
  deriving Repr

namespace Expr

def tag : Expr → Tag
  | .literal tag _ => tag
  | .array tag _ => tag
  | .reference tag _ => tag
  | .selfRef tag => tag
  | .unary tag _ _ => tag
  | .binary tag _ _ _ => tag
  | .assign tag _ _ => tag
  | .call tag _ _ => tag
  | .methodCall tag _ _ _ => tag
  | .select tag _ _ => tag
  | .index tag _ _ => tag

def id (e : Expr) : NodeId := e.tag.id

def span (e : Expr) : Span := e.tag.span

/-- The same expression at another place, as parentheses around it make it. -/
def withSpan (span : Span) : Expr → Expr
  | .literal tag value => .literal { tag with span } value
  | .array tag elements => .array { tag with span } elements
  | .reference tag name => .reference { tag with span } name
  | .selfRef tag => .selfRef { tag with span }
  | .unary tag op operand => .unary { tag with span } op operand
  | .binary tag op left right => .binary { tag with span } op left right
  | .assign tag target value => .assign { tag with span } target value
  | .call tag callee args => .call { tag with span } callee args
  | .methodCall tag receiver method args => .methodCall { tag with span } receiver method args
  | .select tag object field => .select { tag with span } object field
  | .index tag object position => .index { tag with span } object position

end Expr

/-! ### Statements -/

structure StructDecl where
  tag : Tag
  name : String
  fields : List TypedName
  deriving Repr

structure VarDecl where
  tag : Tag
  name : String
  type : Option TypeExpr
  initializer : Expr
  deriving Repr

mutual

/-- A function; inside a class it is a method. -/
structure FunctionDecl where
  tag : Tag
  name : String
  params : List TypedName
  returnType : Option TypeExpr
  body : Block

structure Block where
  tag : Tag
  statements : List Stmt

structure ClassDecl where
  tag : Tag
  name : String
  superclass : Option Ident
  fields : List TypedName
  methods : List FunctionDecl

inductive Stmt where
  | funDecl (decl : FunctionDecl)
  | structDecl (decl : StructDecl)
  | classDecl (decl : ClassDecl)
  | varDecl (decl : VarDecl)
  | block (block : Block)
  | ifElse (tag : Tag) (condition : Expr) (thenBranch : Stmt) (elseBranch : Option Stmt)
  | whileLoop (tag : Tag) (condition : Expr) (body : Stmt)
  | returnStmt (tag : Tag) (value : Option Expr)
  | exprStmt (tag : Tag) (expr : Expr)

end

namespace Stmt

def tag : Stmt → Tag
  | .funDecl d => d.tag
  | .structDecl d => d.tag
  | .classDecl d => d.tag
  | .varDecl d => d.tag
  | .block b => b.tag
  | .ifElse tag _ _ _ => tag
  | .whileLoop tag _ _ => tag
  | .returnStmt tag _ => tag
  | .exprStmt tag _ => tag

def id (s : Stmt) : NodeId := s.tag.id

def span (s : Stmt) : Span := s.tag.span

def isReturn : Stmt → Bool
  | .returnStmt _ _ => true
  | _ => false

end Stmt

structure CompilationUnit where
  tag : Tag
  statements : List Stmt

end BlFront
