import BlFront.Syntax.Parser.Expr
import BlFront.Syntax.Parser.Type
import BlFront.Token.Scan

/-!
# Parsing statements

A statement that fails is skipped up to a boundary and leaves no node behind.  As for
expressions, the parsers of compound statements are given the parser of what is inside.
-/

namespace BlFront.Parser

/-! ### Simple statements -/

def varDeclaration : Parse VarDecl := do
  let start ← currentSpan
  let _ ← advance
  let name ← expectName
  let type ← if ← eat .colon then some <$> typeExpr else pure none
  let _ ← expect .equal
  let initializer ← expression
  let _ ← expect .semicolon
  let span ← spanFrom start
  return ⟨← freshTag span, name.name, type, initializer⟩

def returnStatement : Parse Stmt := do
  let start ← currentSpan
  let _ ← advance
  let value ← if (← peek) = .semicolon then pure none else some <$> expression
  let _ ← expect .semicolon
  let span ← spanFrom start
  return .returnStmt (← freshTag span) value

def expressionStatement : Parse Stmt := do
  let expr ← expression
  let _ ← expect .semicolon
  let span ← spanFrom expr.span
  return .exprStmt (← freshTag span) expr

def condition : Parse Expr := do
  let _ ← expect .leftParen
  let expr ← expression
  let _ ← expect .rightParen
  return expr

/-- The fields of a struct; a comma may also stand behind the last one. -/
def structFields : Nat → Parse (List TypedName)
  | 0 => .exhaust
  | fuel + 1 => do
      if (← peek) = .rightBrace then return []
      else
        let field ← typedName
        if ← eat .comma then return field :: (← structFields fuel)
        else return [field]

def structDeclaration : Parse StructDecl := do
  let start ← currentSpan
  let _ ← advance
  let name ← expectName
  let _ ← expect .leftBrace
  let fields ← .sized structFields
  let _ ← expect .rightBrace
  let span ← spanFrom start
  return ⟨← freshTag span, name.name, fields⟩

/-! ### Blocks -/

/-- Whether the end of what was read of a block can be reached: yes, not since a return that
was read just now, or not since an earlier one. -/
inductive Reach where
  | yes
  | notSince (returned : Span)
  | no
  deriving DecidableEq, Repr

/-- Only the first return of a block makes the rest unreachable, and only the statement right
behind it is reported. -/
def Reach.after : Reach → Stmt → Reach
  | .yes, .returnStmt tag _ => .notSince tag.span
  | .yes, _ => .yes
  | .notSince _, _ => .no
  | .no, _ => .no

def unreachable (returned : Span) (stmt : Stmt) : Diagnostic :=
  { Diagnostic.warningAt "unreachable statement" stmt.span with
    related := [⟨returned, "any code after this return is never run"⟩] }

def warnUnreachable (reach : Reach) (stmt : Stmt) : Parse Unit :=
  match reach with
  | .notSince returned => report (unreachable returned stmt)
  | _ => pure ()

/-- Statements up to the end of the text or a closing token, with recovery from bad ones. -/
def statements (closes : TokenKind → Bool) (statement : Parse Stmt) :
    Nat → Reach → Parse (List Stmt)
  | 0, _ => .exhaust
  | fuel + 1, reach => do
      let kind ← peek
      if kind = .eof ∨ closes kind = true then return []
      else match ← statement.attempt with
        | some stmt =>
          warnUnreachable reach stmt
          return stmt :: (← statements closes statement fuel (reach.after stmt))
        | none =>
          synchronize
          statements closes statement fuel reach

def block (statement : Parse Stmt) : Parse Block := do
  let start ← currentSpan
  let _ ← expect .leftBrace
  let stmts ← .sized fun n => statements (· == .rightBrace) statement n .yes
  let _ ← expect .rightBrace
  let span ← spanFrom start
  return ⟨← freshTag span, stmts⟩

/-! ### Compound statements -/

def funDeclaration (statement : Parse Stmt) : Parse FunctionDecl := do
  let start ← currentSpan
  let _ ← advance
  let name ← expectName
  let _ ← expect .leftParen
  let params ← listUntil .rightParen typedName
  let returnType ← if ← eat .arrow then some <$> typeExpr else pure none
  let body ← block statement
  return ⟨← freshTag (start.merge body.tag.span), name.name, params, returnType, body⟩

def classMembers (statement : Parse Stmt) : Nat → Parse (List TypedName × List FunctionDecl)
  | 0 => .exhaust
  | fuel + 1 => do
      match ← peek with
      | .rightBrace | .eof => return ([], [])
      | .kwFun =>
        let method ← funDeclaration statement
        let (fields, methods) ← classMembers statement fuel
        return (fields, method :: methods)
      | _ =>
        let field ← typedName
        let _ ← expect .semicolon
        let (fields, methods) ← classMembers statement fuel
        return (field :: fields, methods)

def classDeclaration (statement : Parse Stmt) : Parse ClassDecl := do
  let start ← currentSpan
  let _ ← advance
  let name ← expectName
  let superclass ← if ← eat .colon then some <$> expectName else pure none
  let _ ← expect .leftBrace
  let (fields, methods) ← .sized (classMembers statement)
  let _ ← expect .rightBrace
  let span ← spanFrom start
  return ⟨← freshTag span, name.name, superclass, fields, methods⟩

/-- An `else` belongs to the nearest `if` that has none. -/
def ifStatement (statement : Parse Stmt) : Parse Stmt := do
  let start ← currentSpan
  let _ ← advance
  let cond ← condition
  let thenBranch ← statement
  let elseBranch ← if ← eat .kwElse then some <$> statement else pure none
  let span ← spanFrom start
  return .ifElse (← freshTag span) cond thenBranch elseBranch

def whileStatement (statement : Parse Stmt) : Parse Stmt := do
  let start ← currentSpan
  let _ ← advance
  let cond ← condition
  let body ← statement
  let span ← spanFrom start
  return .whileLoop (← freshTag span) cond body

/-- One layer of a statement, given the parser of the statements inside it. -/
def statementLayer (statement : Parse Stmt) : Parse Stmt := do
  match ← peek with
  | .kwFun => .funDecl <$> funDeclaration statement
  | .kwStruct => .structDecl <$> structDeclaration
  | .kwClass => .classDecl <$> classDeclaration statement
  | .kwVar => .varDecl <$> varDeclaration
  | .leftBrace => .block <$> block statement
  | .kwIf => ifStatement statement
  | .kwWhile => whileStatement statement
  | .kwReturn => returnStatement
  | _ => expressionStatement

def statementAt : Nat → Parse Stmt
  | 0 => .exhaust
  | depth + 1 => statementLayer (statementAt depth)

def statement : Parse Stmt := .sized statementAt

/-! ### Units -/

structure Parsed where
  unit : CompilationUnit
  diagnostics : List Diagnostic

def unit : Parse CompilationUnit := do
  let start ← currentSpan
  let stmts ← .sized fun n => statements (fun _ => false) statement n .no
  let stop ← currentSpan
  return ⟨← freshTag (start.merge stop), stmts⟩

def ofTokens (tokens : List Token) : Parsed :=
  let start := State.ofTokens tokens
  match unit start with
  | (some u, s) => ⟨u, s.diagnostics⟩
  | (none, s) => ⟨⟨⟨⟨s.nextId⟩, start.current.span⟩, []⟩, s.diagnostics⟩

/-- The unit of a source text, with the reports on its tokens before those on its statements. -/
def ofText (source : List Char) : Parsed :=
  let scan := Token.scan source
  let parsed := ofTokens scan.tokens
  { parsed with diagnostics := scan.diagnostics ++ parsed.diagnostics }

end BlFront.Parser
