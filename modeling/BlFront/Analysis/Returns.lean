import BlFront.Analysis.Flow
import BlFront.Analysis.Request
import BlFront.Syntax.Tour

/-!
# Missing returns

A function whose return type is not `Unit` must return on every path.
-/

namespace BlFront.Returns

/-- A block returns if one of its statements does. -/
def blockRule (block : Block) : Rule :=
  .flatMap "block returns" Kind.flag
    (AttrName.returns.ofNodes (contributing block.statements))
    (AttrName.returns.of block.tag.id)
    fun returns _ => .ok (.flag (returns.any id))

def ifRule (tag : Tag) (thenBranch elseBranch : Stmt) : Rule :=
  .flatMap "if returns" Kind.flag
    [AttrName.returns.of thenBranch.id, AttrName.returns.of elseBranch.id]
    (AttrName.returns.of tag.id)
    fun returns _ => .ok (.flag (returns.all id))

/-- Without an `else`, or with a branch that cannot return, some path falls through. -/
def ifRequest (tag : Tag) (thenBranch : Stmt) : Option Stmt → Request
  | some elseBranch =>
    if thenBranch.contributes && elseBranch.contributes then
      .register (ifRule tag thenBranch elseBranch)
    else .seed (AttrName.returns.of tag.id) (.flag false)
  | none => .seed (AttrName.returns.of tag.id) (.flag false)

def needsReturn : Ty → Bool
  | .function _ result => !(result == .unit)
  | _ => false

def functionRule (decl : FunctionDecl) (symbol : SymbolId) : Rule :=
  let returns := AttrName.returns.of decl.body.tag.id
  .computing "check function returns" [typeOf symbol, returns] [] fun view => do
    let type ← view.get Kind.type (typeOf symbol)
    if needsReturn type then
      if ← view.get Kind.flag returns then return []
      else return [.report ⟨decl.tag.span, "missing return"⟩]
    else return []

def partRequests (r : Reactor) : Part → List Request
  | .function decl => r.withSymbol (AttrName.symbol.of decl.tag.id) fun symbol =>
    [.register (functionRule decl symbol)]
  | .block block => [.register (blockRule block)]
  | .ifElse tag _ thenBranch elseBranch => [ifRequest tag thenBranch elseBranch]
  | .returnStmt tag _ => [.seed (AttrName.returns.of tag.id) (.flag true)]
  | _ => []

def plan (unit : CompilationUnit) (r : Reactor) : List Request :=
  unit.left.flatMap (partRequests r)

end BlFront.Returns
