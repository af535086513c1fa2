import BlFront.Number.Shortest
import BlFront.Output.Tree
import BlFront.Syntax.Basic
import BlFront.Text.Quoted

/-!
# Outlines of the syntax

The syntax of a unit as a tree of records, one for every node, with its identity first and
its place last.
-/

namespace BlFront.Outline

open Output

def ofSpan (s : Span) : Tree :=
  .record "Span" [("start", .leaf (toString s.start)), ("end", .leaf (toString s.stop))]

def ofId (id : NodeId) : Tree := .tuple "NodeId" [.leaf (toString id.index)]

def ofText (text : String) : Tree := .leaf (Text.quote text)

def node (name : String) (tag : Tag) (entries : List (String × Tree)) : Tree :=
  .record name ([("id", ofId tag.id)] ++ entries ++ [("span", ofSpan tag.span)])

def ofIdent (i : Ident) : Tree :=
  .record "Ident" [("name", ofText i.name), ("span", ofSpan i.span)]

/-! ### Types -/

def ofType : TypeExpr → Tree
  | .named tag name => node "TypeExpr" tag [("kind", .tuple "Named" [ofText name])]
  | .array tag element => node "TypeExpr" tag [("kind", .tuple "Array" [ofType element])]

def ofTypedName (record : String) (n : TypedName) : Tree :=
  node record n.tag [("name", ofText n.name), ("ty", ofType n.type)]

def ofParam : TypedName → Tree := ofTypedName "Param"

def ofField : TypedName → Tree := ofTypedName "FieldDecl"

/-! ### Expressions -/

def ofBinaryOp : BinaryOp → Tree
  | .add => .leaf "Add"
  | .sub => .leaf "Sub"
  | .mul => .leaf "Mul"
  | .div => .leaf "Div"
  | .mod => .leaf "Mod"
  | .eq => .leaf "Eq"
  | .ne => .leaf "Neq"
  | .lt => .leaf "Lt"
  | .gt => .leaf "Gt"
  | .le => .leaf "Lte"
  | .ge => .leaf "Gte"
  | .and => .leaf "And"
  | .or => .leaf "Or"

def ofUnaryOp : UnaryOp → Tree
  | .neg => .leaf "Neg"
  | .not => .leaf "Not"

def ofLiteral : Literal → Tree
  | .int value => .tuple "Int" [.leaf (toString value)]
  | .float value => .tuple "Float" [.leaf value.text]
  | .string value => .tuple "String" [ofText value]
  | .bool value => .tuple "Bool" [.leaf (if value then "true" else "false")]
  | .unit => .leaf "Unit"

def expr (tag : Tag) (kind : Tree) : Tree := node "Expr" tag [("kind", kind)]

mutual

def ofExpr : Expr → Tree
  | .literal tag value => expr tag (ofLiteral value)
  | .array tag elements => expr tag (.tuple "Array" [.list (ofExprs elements)])
  | .reference tag name => expr tag (.tuple "Reference" [ofText name])
  | .selfRef tag => expr tag (.leaf "SelfRef")
  | .unary tag op operand =>
    expr tag (.record "Unary" [("op", ofUnaryOp op), ("operand", ofExpr operand)])
  | .binary tag op left right =>
    expr tag (.record "Binary"
      [("op", ofBinaryOp op), ("left", ofExpr left), ("right", ofExpr right)])
  | .assign tag target value =>
    expr tag (.record "Assign" [("target", ofExpr target), ("value", ofExpr value)])
  | .call tag callee args =>
    expr tag (.record "Call" [("callee", ofExpr callee), ("args", .list (ofExprs args))])
  | .methodCall tag receiver method args =>
    expr tag (.record "MethodCall"
      [("receiver", ofExpr receiver), ("method", ofText method), ("args", .list (ofExprs args))])
  | .select tag object field =>
    expr tag (.record "FieldSelect" [("object", ofExpr object), ("field", ofText field)])
  | .index tag object position =>
    expr tag (.record "Index" [("object", ofExpr object), ("index", ofExpr position)])

def ofExprs : List Expr → List Tree
  | [] => []
  | e :: es => ofExpr e :: ofExprs es

end

/-! ### Statements -/

def ofStruct (d : StructDecl) : Tree :=
  node "StructDecl" d.tag [("name", ofText d.name), ("fields", .list (d.fields.map ofField))]

def ofVar (d : VarDecl) : Tree :=
  node "VariableDecl" d.tag
    [("name", ofText d.name), ("ty", .option (d.type.map ofType)),
     ("initializer", ofExpr d.initializer)]

mutual

def ofFunction : FunctionDecl → Tree
  | ⟨tag, name, params, returnType, body⟩ =>
    node "FunctionDecl" tag
      [("name", ofText name), ("params", .list (params.map ofParam)),
       ("return_type", .option (returnType.map ofType)), ("body", ofBlock body)]

def ofBlock : Block → Tree
  | ⟨tag, statements⟩ => node "Block" tag [("statements", .list (ofStmts statements))]

def ofClass : ClassDecl → Tree
  | ⟨tag, name, superclass, fields, methods⟩ =>
    node "ClassDecl" tag
      [("name", ofText name), ("superclass", .option (superclass.map ofIdent)),
       ("fields", .list (fields.map ofField)), ("methods", .list (ofFunctions methods))]

def ofStmt : Stmt → Tree
  | .funDecl d => .tuple "Function" [ofFunction d]
  | .structDecl d => .tuple "Struct" [ofStruct d]
  | .classDecl d => .tuple "Class" [ofClass d]
  | .varDecl d => .tuple "Variable" [ofVar d]
  | .block b => .tuple "Block" [ofBlock b]
  | .ifElse tag condition thenBranch elseBranch =>
    .tuple "If" [node "IfStmt" tag
      [("condition", ofExpr condition), ("then_branch", ofStmt thenBranch),
       ("else_branch", ofElse elseBranch)]]
  | .whileLoop tag condition body =>
    .tuple "While" [node "WhileStmt" tag [("condition", ofExpr condition), ("body", ofStmt body)]]
  | .returnStmt tag value =>
    .tuple "Return" [node "ReturnStmt" tag [("value", .option (value.map ofExpr))]]
  | .exprStmt tag e => .tuple "Expr" [node "ExprStmt" tag [("expr", ofExpr e)]]

def ofElse : Option Stmt → Tree
  | none => .option none
  | some s => .option (some (ofStmt s))

def ofStmts : List Stmt → List Tree
  | [] => []
  | s :: ss => ofStmt s :: ofStmts ss

def ofFunctions : List FunctionDecl → List Tree
  | [] => []
  | f :: fs => ofFunction f :: ofFunctions fs

end

def ofUnit (u : CompilationUnit) : Tree :=
  node "CompilationUnit" u.tag [("statements", .list (ofStmts u.statements))]

end BlFront.Outline
