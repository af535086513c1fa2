import BlFront.Symbol.Id
import BlFront.Syntax.Basic

/-!
# Attributes

An attribute is a fact about a node or a symbol that the analysis finds out: it has an owner
and a name.
-/

namespace BlFront

inductive Owner where
  | node (id : NodeId)
  | symbol (id : SymbolId)
  deriving DecidableEq, Repr

instance : ToString Owner where
  toString
    | .node id => toString id
    | .symbol id => toString id

instance : Coe NodeId Owner := ⟨.node⟩

instance : Coe SymbolId Owner := ⟨.symbol⟩

inductive AttrName where
  | scope
  | symbol
  | type
  | returnType
  | returns
  | containingFunction
  | containingClass
  | superclass
  deriving DecidableEq, Repr

namespace AttrName

def all : List AttrName :=
  [.scope, .symbol, .type, .returnType, .returns, .containingFunction, .containingClass,
   .superclass]

def text : AttrName → String
  | .scope => "scope"
  | .symbol => "symbol"
  | .type => "type"
  | .returnType => "returnType"
  | .returns => "returns"
  | .containingFunction => "containingFunction"
  | .containingClass => "containingClass"
  | .superclass => "superclass"

def ofText? (text : String) : Option AttrName := all.find? (·.text == text)

end AttrName

structure Attribute where
  owner : Owner
  name : AttrName
  deriving DecidableEq, Repr

instance : ToString Attribute where
  toString a := "(" ++ toString a.owner ++ " :: " ++ a.name.text ++ ")"

def AttrName.of (name : AttrName) (owner : Owner) : Attribute := ⟨owner, name⟩

end BlFront
