import BlFront.Ty

/-!
# Values of attributes
-/

namespace BlFront

/-- What a statement tells the function around it: the joined type of its reachable returns, if
it has any, and whether control never reaches its end. -/
structure ReturnFlow where
  type : Option Ty
  terminates : Bool

namespace ReturnFlow

def fallsThrough : ReturnFlow := ⟨none, false⟩

def returning (type : Ty) : ReturnFlow := ⟨some type, true⟩

def text : ReturnFlow → String
  | ⟨some type, true⟩ => "returns " ++ type.text
  | ⟨some type, false⟩ => "may return " ++ type.text
  | ⟨none, _⟩ => "falls through"

instance : BEq ReturnFlow where
  beq a b := a.type == b.type && a.terminates == b.terminates

end ReturnFlow

inductive Value where
  | scope (id : ScopeId)
  | symbol (id : SymbolId)
  | type (type : Ty)
  | flag (flag : Bool)
  | flow (flow : ReturnFlow)

namespace Value

def kind : Value → String
  | .scope _ => "scope"
  | .symbol _ => "symbol"
  | .type _ => "type"
  | .flag _ => "flag"
  | .flow _ => "return flow"

def text : Value → String
  | .scope id => toString id
  | .symbol id => toString id
  | .type t => t.text
  | .flag b => toString b
  | .flow f => f.text

instance : BEq Value where
  beq
    | .scope a, .scope b => a == b
    | .symbol a, .symbol b => a == b
    | .type a, .type b => a == b
    | .flag a, .flag b => a == b
    | .flow a, .flow b => a == b
    | _, _ => false

end Value

/-- A kind of value that a reader asks for, with the way to take it out. -/
structure Kind (α : Type) where
  name : String
  extract : Value → Option α

namespace Kind

def value : Kind Value := ⟨"value", some⟩

def scope : Kind ScopeId := ⟨"scope", fun | .scope id => some id | _ => none⟩

def symbol : Kind SymbolId := ⟨"symbol", fun | .symbol id => some id | _ => none⟩

def type : Kind Ty := ⟨"type", fun | .type t => some t | _ => none⟩

def flag : Kind Bool := ⟨"flag", fun | .flag b => some b | _ => none⟩

def flow : Kind ReturnFlow := ⟨"return flow", fun | .flow f => some f | _ => none⟩

/-- The same kind with the value itself as what is taken out. -/
def whole (k : Kind α) : Kind Value := ⟨k.name, fun v => (k.extract v).map fun _ => v⟩

end Kind

end BlFront
