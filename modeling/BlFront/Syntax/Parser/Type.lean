import BlFront.Syntax.Parser.Basic

/-!
# Parsing types
-/

namespace BlFront.Parser

/-- A type, of which at most `depth` layers are read. -/
def typeAt : Nat → Parse TypeExpr
  | 0 => .exhaust
  | depth + 1 => do
      let start ← currentSpan
      match ← peek with
      | .identifier =>
        let token ← advance
        return .named (← freshTag start) token.lexeme
      | .leftBracket =>
        let _ ← advance
        let element ← typeAt depth
        let _ ← expect .rightBracket
        let span ← spanFrom start
        return .array (← freshTag span) element
      | _ => refuse "type"

def typeExpr : Parse TypeExpr := .sized typeAt

def typedName : Parse TypedName := do
  let name ← expectName
  let _ ← expect .colon
  let type ← typeExpr
  return ⟨← freshTag (name.span.merge type.span), name.name, type⟩

end BlFront.Parser
