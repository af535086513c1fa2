import BlFront.Analysis.Flow
import BlFront.Analysis.Request
import BlFront.Symbol.Inheritance
import BlFront.Syntax.Tour
import BlFront.Typing

/-!
# Types

Types flow upward from literals, annotations and builtin symbols.  Downward they flow only
from the annotation of a variable into empty array literals of its initializer.  A function
without a return type has the joined type of its reachable returns.
-/

namespace BlFront.Types

def problemAt (span : Span) : Except TypeProblem Ty → Except SemanticError Value
  | .ok type => .ok (.type type)
  | .error problem => .error ⟨span, problem.message⟩

/-! ### Declarations -/

def memberTypes (view : View) : List (String × Attribute) → Except ReactorError (List Member)
  | [] => .ok []
  | (name, attr) :: members => do
      let type ← view.get Kind.type attr
      return ⟨name, type⟩ :: (← memberTypes view members)

/-- The return type of a function: the annotated one, or what its body returns. -/
def resultType (view : View) (annotated : Bool) (result : Attribute) : Except ReactorError Ty :=
  if annotated then view.get Kind.type result
  else do return (← view.get Kind.flow result).type.getD .unit

def functionRule (decl : FunctionDecl) (symbol : SymbolId) (params : List SymbolId) : Rule :=
  let typed := (decl.params.map (·.name)).zip (typesOf params)
  let result := match decl.returnType with
    | some type => typeOf type.id
    | none => AttrName.returnType.of decl.body.tag.id
  .computing "type function" (typed.map Prod.snd ++ [result]) [typeOf symbol] fun view => do
    let params ← memberTypes view typed
    let result ← resultType view decl.returnType.isSome result
    return [.write (typeOf symbol) (.value (.type (.function params result)))]

def structRule (table : SymbolTable) (decl : StructDecl) (symbol : SymbolId)
    (fields : List SymbolId) : Rule :=
  .flatMap "type struct" Kind.type (typesOf fields) (typeOf symbol) fun types _ =>
    let members := (decl.fields.map (·.name)).zipWith Member.mk types
    .ok (.type (.struct symbol (table.qualifiedName symbol "_") members))

def superChain (view : View) : Option Attribute → Except ReactorError (List ClassRow)
  | none => .ok []
  | some attr => do
      match ← view.get Kind.type attr with
      | .object own supers => return own :: supers
      | _ => return []

def classRule (table : SymbolTable) (decl : ClassDecl) (symbol : SymbolId)
    (superclass : Option SymbolId) (fields methods : List SymbolId) : Rule :=
  let typedFields := (decl.fields.map (·.name)).zip (typesOf fields)
  let typedMethods := (decl.methods.map (·.name)).zip (typesOf methods)
  let above := superclass.map fun s => typeOf s
  let deps := (typedFields ++ typedMethods).map Prod.snd ++ above.toList
  .computing "type class" deps [typeOf symbol] fun view => do
    let fields ← memberTypes view typedFields
    let methods ← memberTypes view typedMethods
    let supers ← superChain view above
    let own := ⟨symbol, table.qualifiedName symbol "_", fields, methods⟩
    return [.write (typeOf symbol) (.value (.type (.object own supers)))]

/-! ### Statements -/

def blockRule (block : Block) : Rule :=
  .flatMap "block return type" Kind.flow
    (AttrName.returnType.ofNodes (contributing block.statements))
    (AttrName.returnType.of block.tag.id)
    fun flows _ => .ok (.flow (ReturnFlow.sequence flows))

/-- The flow of a branch; one that takes no part falls through. -/
def branchFlow (view : View) : Option Attribute → Except ReactorError ReturnFlow
  | some attr => view.get Kind.flow attr
  | none => .ok .fallsThrough

def flowOf? (branch : Stmt) : Option Attribute :=
  if branch.contributes then some (AttrName.returnType.of branch.id) else none

def ifRule (tag : Tag) (thenBranch : Stmt) (elseBranch : Option Stmt) : Rule :=
  let thenFlow := flowOf? thenBranch
  let elseFlow := elseBranch.bind flowOf?
  let target := AttrName.returnType.of tag.id
  .computing "if return type" (thenFlow.toList ++ elseFlow.toList) [target] fun view => do
    let first ← branchFlow view thenFlow
    let second ← branchFlow view elseFlow
    return [.write target (.value (.flow (.branch elseBranch.isSome first second)))]

def returnRequest (tag : Tag) : Option Expr → Request
  | some value =>
    .register <| .map "return type" Kind.type (typeOf value.id) (AttrName.returnType.of tag.id)
      fun type _ => .ok (.flow (.returning type))
  | none => .seed (AttrName.returnType.of tag.id) (.flow (.returning .unit))

/-! ### Expressions -/

def literalType : Literal → Ty
  | .int _ => .int
  | .float _ => .float
  | .string _ => .string
  | .bool _ => .boolean
  | .unit => .unit

def untypedArray (span : Span) : SemanticError :=
  ⟨span, "unable to determine type for array literal"⟩

/-- A type without so many layers of arrays. -/
def peelArrays : Nat → Ty → Option Ty
  | 0, type => some type
  | depth + 1, .array element => peelArrays depth element
  | _ + 1, _ => none

/-- An empty literal takes its type from the annotation that it stands under. -/
def emptyArrayRequest (tag : Tag) : Option Expected → Request
  | some expected =>
    .register <| .map "type empty array literal" Kind.type (typeOf expected.annotated)
      (typeOf tag.id) fun type _ => match peelArrays expected.depth type with
        | some (.array element) => .ok (.type (.array element))
        | _ => .error (untypedArray tag.span)
  | none => .reject (untypedArray tag.span) [typeOf tag.id]

/-- The type that covers all of some types, joined from the left. -/
def joinAll : List Ty → Ty
  | [] => .any
  | type :: types => types.foldl Ty.join type

def arrayRule (tag : Tag) (elements : List Expr) : Rule :=
  .flatMap "type array literal" Kind.type (elements.map fun e => typeOf e.id) (typeOf tag.id)
    fun types _ => .ok (.type (.array (joinAll types)))

def unaryRule (tag : Tag) (op : UnaryOp) (operand : Expr) : Rule :=
  .map "type unary expression" Kind.type (typeOf operand.id) (typeOf tag.id)
    fun type _ => problemAt tag.span (op.result type)

def binaryRule (tag : Tag) (op : BinaryOp) (left right : Expr) : Rule :=
  .computing "type binary expression" [typeOf left.id, typeOf right.id] [typeOf tag.id]
    fun view => do
      let leftType ← view.get Kind.type (typeOf left.id)
      let rightType ← view.get Kind.type (typeOf right.id)
      return [.write (typeOf tag.id) (.ofResult (problemAt tag.span (op.result leftType rightType)))]

/-- The type of a call; calling a struct or class makes an instance of it. -/
def callType (span : Span) : Ty → Except SemanticError Value
  | .function _ result => .ok (.type result)
  | .struct symbol name fields => .ok (.type (.struct symbol name fields))
  | .object own supers => .ok (.type (.object own supers))
  | _ => .error ⟨span, "expression is not callable"⟩

def callRule (tag : Tag) (callee : Expr) : Rule :=
  .map "type call" Kind.type (typeOf callee.id) (typeOf tag.id) fun type _ => callType tag.span type

def methodMeaning (span : Span) (method : String) (receiver : Ty) (table : SymbolTable) :
    Except SemanticError Value :=
  match receiver with
  | .object own _ => match table.resolveMethod? own.symbol method with
      | some symbol => .ok (.symbol symbol)
      | none => .error ⟨span, "unknown method " ++ method ++ " in " ++ own.name⟩
  | other => .error ⟨span, "expression must be Class, not " ++ other.text⟩

def methodResult (span : Span) (method : String) (receiver : Ty) : Except SemanticError Value :=
  let found := match receiver with
    | .object own supers => ClassRow.lookup? (·.methods) method (own :: supers)
    | _ => none
  match found with
  | some (.function _ result) => .ok (.type result)
  | _ => .error ⟨span, method ++ " is not a callable method"⟩

def methodRules (tag : Tag) (receiver : Expr) (method : String) : List Rule :=
  let source := typeOf receiver.id
  let resolved := AttrName.symbol.of tag.id
  [.map "resolve method" Kind.type source resolved (methodMeaning tag.span method),
   .computing "type method call" [source, resolved] [typeOf tag.id] fun view => do
     let type ← view.get Kind.type source
     return [.write (typeOf tag.id) (.ofResult (methodResult tag.span method type))]]

def fieldNamed (span : Span) (field owner : String) : Option Ty → Except SemanticError Value
  | some type => .ok (.type type)
  | none => .error ⟨span, "unknown field " ++ field ++ " in " ++ owner⟩

def fieldType (span : Span) (field : String) : Ty → Except SemanticError Value
  | .struct _ name fields => fieldNamed span field name (Member.lookup? field fields)
  | .object own supers =>
    fieldNamed span field own.name (ClassRow.lookup? (·.fields) field (own :: supers))
  | other => .error ⟨span, "expression must be Struct, not " ++ other.text⟩

def selectRule (tag : Tag) (object : Expr) (field : String) : Rule :=
  .map "type field select" Kind.type (typeOf object.id) (typeOf tag.id)
    fun type _ => fieldType tag.span field type

def elementType (span : Span) : Ty → Except SemanticError Value
  | .array element => .ok (.type element)
  | other => .error ⟨span, "expression must be Array, not " ++ other.text⟩

def indexRule (tag : Tag) (object : Expr) : Rule :=
  .map "type index" Kind.type (typeOf object.id) (typeOf tag.id)
    fun type _ => elementType tag.span type

def exprRequests (r : Reactor) (expected : Option Expected) : Expr → List Request
  | .literal tag value => [.seed (typeOf tag.id) (.type (literalType value))]
  | .array tag [] => [emptyArrayRequest tag expected]
  | .array tag elements => [.register (arrayRule tag elements)]
  | .reference tag _ => r.withSymbol (AttrName.symbol.of tag.id) fun symbol =>
    [.register (.copy "type reference" (typeOf symbol) (typeOf tag.id))]
  | .selfRef tag => r.withSymbol (AttrName.containingClass.of tag.id) fun symbol =>
    [.register (.copy "type self" (typeOf symbol) (typeOf tag.id))]
  | .unary tag op operand => [.register (unaryRule tag op operand)]
  | .binary tag op left right => [.register (binaryRule tag op left right)]
  | .assign tag _ value =>
    [.register (.copy "type assignment" (typeOf value.id) (typeOf tag.id))]
  | .call tag callee _ => [.register (callRule tag callee)]
  | .methodCall tag receiver method _ => (methodRules tag receiver method).map .register
  | .select tag object field => [.register (selectRule tag object field)]
  | .index tag object _ => [.register (indexRule tag object)]

/-! ### Type expressions -/

def typeRequests (r : Reactor) (table : SymbolTable) : TypeExpr → List Request
  | .named tag name => r.withSymbol (AttrName.symbol.of tag.id) fun symbol =>
    if table.hasKind (·.isType) symbol then
      [.register (.copy "type named type" (typeOf symbol) (typeOf tag.id))]
    else [.reject ⟨tag.span, name ++ " is not a type"⟩ [typeOf tag.id]]
  | .array tag element =>
    [.register <| .map "type array type" Kind.type (typeOf element.id) (typeOf tag.id)
      fun type _ => .ok (.type (.array type))]

/-! ### Parts -/

def partRequests (r : Reactor) (table : SymbolTable) : Part → List Request
  | .function decl =>
    r.withSymbol (AttrName.symbol.of decl.tag.id) fun symbol =>
      r.withSymbols (decl.params.map (·.tag.id)) fun params =>
        [.register (functionRule decl symbol params)]
  | .param decl => r.withSymbol (AttrName.symbol.of decl.tag.id) fun symbol =>
    [.register (.copy "type parameter" (typeOf decl.type.id) (typeOf symbol))]
  | .structDecl decl =>
    r.withSymbol (AttrName.symbol.of decl.tag.id) fun symbol =>
      r.withSymbols (decl.fields.map (·.tag.id)) fun fields =>
        [.register (structRule table decl symbol fields)]
  | .classDecl decl =>
    r.withSymbol (AttrName.symbol.of decl.tag.id) fun symbol =>
      r.withSymbols (decl.fields.map (·.tag.id)) fun fields =>
        r.withSymbols (decl.methods.map (·.tag.id)) fun methods =>
          let superclass := r.getAs? Kind.symbol (AttrName.superclass.of symbol)
          [.register (classRule table decl symbol superclass fields methods)]
  | .field decl => r.withSymbol (AttrName.symbol.of decl.tag.id) fun symbol =>
    [.register (.copy "type field" (typeOf decl.type.id) (typeOf symbol))]
  | .varDecl decl => match decl.type with
      | some _ => []
      | none => r.withSymbol (AttrName.symbol.of decl.tag.id) fun symbol =>
        [.register (.copy "type inferred variable" (typeOf decl.initializer.id) (typeOf symbol))]
  | .typed decl type => r.withSymbol (AttrName.symbol.of decl.tag.id) fun symbol =>
    [.register (.copy "type annotated variable" (typeOf type.id) (typeOf symbol))]
  | .block block => [.register (blockRule block)]
  | .ifElse tag _ thenBranch elseBranch => [.register (ifRule tag thenBranch elseBranch)]
  | .whileLoop _ _ => []
  | .returnStmt tag value => [returnRequest tag value]
  | .exprStmt _ => []
  | .expr e expected => exprRequests r expected e
  | .type t => typeRequests r table t

def plan (unit : CompilationUnit) (table : SymbolTable) (r : Reactor) : List Request :=
  unit.left.flatMap (partRequests r table)

end BlFront.Types
