import BlFront.Number.Decimal
import BlFront.Syntax.Parser.Basic

/-!
# Parsing expressions

An expression is a prefix part, its suffixes, and operators whose binding power decides
where the right operand ends.  The parts are given the parser of the expressions inside
them, so that the recursion is in one place.
-/

namespace BlFront.Parser

/-- The lexeme of a number without the underscores that group its digits. -/
def digitsOf (lexeme : String) : List Char := lexeme.toList.filter (· != '_')

/-- An integer; one that is too great counts as zero, with a report. -/
def intLiteral (token : Token) : Parse Literal :=
  match Decimal.int64? (digitsOf token.lexeme) with
  | some value => return .int value
  | none => do
      report (.errorAt ("integer literal '" ++ token.lexeme ++ "' is out of range") token.span)
      return .int 0

/-- A decimal fraction; a malformed one counts as zero, with a report. -/
def floatLiteral (token : Token) : Parse Literal :=
  match Decimal.float? (digitsOf token.lexeme) with
  | some value => return .float value
  | none => do
      report (.errorAt ("invalid float literal '" ++ token.lexeme ++ "'") token.span)
      return .float .zero

def literalOf? (token : Token) : Option (Parse Literal) :=
  match token.kind with
  | .intLiteral => some (intLiteral token)
  | .floatLiteral => some (floatLiteral token)
  | .stringLiteral => some (return .string token.lexeme)
  | .kwTrue => some (return .bool true)
  | .kwFalse => some (return .bool false)
  | .kwUnit => some (return .unit)
  | _ => none

def primary (expr : Parse Expr) : Parse Expr := do
  let start ← currentSpan
  let token ← current
  match literalOf? token with
  | some literal =>
    let _ ← advance
    let value ← literal
    return .literal (← freshTag (← spanFrom start)) value
  | none =>
  match token.kind with
  | .kwSelf =>
    let _ ← advance
    return .selfRef (← freshTag (← spanFrom start))
  | .identifier =>
    let _ ← advance
    return .reference (← freshTag (← spanFrom start)) token.lexeme
  | .leftParen =>
    let _ ← advance
    let inner ← expr
    let _ ← expect .rightParen
    return inner.withSpan (← spanFrom start)
  | .leftBracket =>
    let _ ← advance
    let elements ← listUntil .rightBracket expr
    return .array (← freshTag (← spanFrom start)) elements
  | _ => refuse "expression"

/-- An operand: a primary expression behind any number of unary operators. -/
def operand (expr : Nat → Parse Expr) : Parse Expr := do
  let start ← currentSpan
  match UnaryOp.ofToken? (← peek) with
  | some op =>
    let _ ← advance
    let inner ← expr UnaryOp.power
    return .unary (← freshTag (start.merge inner.span)) op inner
  | none => primary (expr 0)

/-- What follows a point: a field, or a method with its arguments. -/
def member (expr : Parse Expr) (object : Expr) : Parse Expr := do
  let name ← expectName
  if ← eat .leftParen then
    let args ← listUntil .rightParen expr
    return .methodCall (← freshTag (← spanFrom object.span)) object name.name args
  else return .select (← freshTag (← spanFrom object.span)) object name.name

/-- One call, member or index behind an expression, if there is one. -/
def suffix? (expr : Parse Expr) (head : Expr) : Parse (Option Expr) := do
  match ← peek with
  | .leftParen =>
    let _ ← advance
    let args ← listUntil .rightParen expr
    return some (.call (← freshTag (← spanFrom head.span)) head args)
  | .dot =>
    let _ ← advance
    return some (← member expr head)
  | .leftBracket =>
    let _ ← advance
    let index ← expr
    let _ ← expect .rightBracket
    return some (.index (← freshTag (← spanFrom head.span)) head index)
  | _ => return none

def suffixes (expr : Parse Expr) : Nat → Expr → Parse Expr
  | 0, _ => .exhaust
  | fuel + 1, head => do
      match ← suffix? expr head with
      | some longer => suffixes expr fuel longer
      | none => return head

/-- The operator expression that a token between two operands makes; all but `=` are binary. -/
def combine (tag : Tag) (kind : TokenKind) (left right : Expr) : Expr :=
  match BinaryOp.ofToken? kind with
  | some op => .binary tag op left right
  | none => .assign tag left right

/-- Operators that bind at least as tightly as `least`, each with its right operand. -/
def operators (expr : Nat → Parse Expr) (least : Nat) : Nat → Expr → Parse Expr
  | 0, _ => .exhaust
  | fuel + 1, head => do
      let left ← .sized fun n => suffixes (expr 0) n head
      let kind ← peek
      match bindingPower? kind with
      | none => return left
      | some (toLeft, toRight) =>
        if toLeft < least then return left
        else
          let _ ← advance
          let right ← expr toRight
          let tag ← freshTag (left.span.merge right.span)
          operators expr least fuel (combine tag kind left right)

/-- One layer of an expression, given the parser of the layers inside it. -/
def layer (expr : Nat → Parse Expr) (least : Nat) : Parse Expr := do
  let head ← operand expr
  .sized fun n => operators expr least n head

/-- An expression of at most `depth` layers whose operators bind at least as tightly as `least`. -/
def exprAt : Nat → Nat → Parse Expr
  | 0, _ => .exhaust
  | depth + 1, least => layer (exprAt depth) least

/-- An expression.  Each layer inside another starts behind a token of that other, so the
tokens to come bound their number. -/
def expression : Parse Expr := .sized fun n => exprAt n 0

end BlFront.Parser
