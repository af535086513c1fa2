import BlFront.Syntax.Basic
import BlFront.Value

/-!
# Flow of returns

How the returns of statements combine.  Only blocks, conditionals and returns take part; a
loop may run not at all, so it neither returns nor contributes a type.
-/

namespace BlFront

/-- Whether a statement takes part in the analysis of returns. -/
def Stmt.contributes : Stmt → Bool
  | .block _ | .ifElse _ _ _ _ | .returnStmt _ _ => true
  | _ => false

/-- The statements of a block that take part, up to its first own return. -/
def contributing : List Stmt → List NodeId
  | [] => []
  | s :: ss =>
    if s.isReturn then [s.id]
    else if s.contributes then s.id :: contributing ss
    else contributing ss

namespace ReturnFlow

def joinTypes : Option Ty → Option Ty → Option Ty
  | some a, some b => some (a.join b)
  | a, none => a
  | none, b => b

/-- The flow of one statement after another, from a type on: the first that terminates ends it. -/
def sequenceFrom (type : Option Ty) : List ReturnFlow → ReturnFlow
  | [] => ⟨type, false⟩
  | flow :: flows =>
    let type := joinTypes type flow.type
    if flow.terminates then ⟨type, true⟩ else sequenceFrom type flows

def sequence (flows : List ReturnFlow) : ReturnFlow := sequenceFrom none flows

/-- The flow of a conditional; without an `else` it may be passed by. -/
def branch (hasElse : Bool) (thenFlow elseFlow : ReturnFlow) : ReturnFlow :=
  ⟨joinTypes thenFlow.type elseFlow.type,
    hasElse && thenFlow.terminates && elseFlow.terminates⟩

end ReturnFlow

end BlFront
