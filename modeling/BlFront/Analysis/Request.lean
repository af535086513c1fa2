import BlFront.Reactor.Run

/-!
# Requests to a reactor

A pass over a unit is a list of requests: values that are known, errors that are certain, and
rules for what follows from other attributes.
-/

namespace BlFront

inductive Request where
  | seed (attr : Attribute) (value : Value)
  | reject (error : SemanticError) (affected : List Attribute)
  | register (rule : Rule)
  /-- A value that an earlier pass should have left is not there. -/
  | abort (error : ReactorError)

namespace Reactor

def performRequest (r : Reactor) : Request → Except ReactorError Reactor
  | .seed attr value => r.seed attr value
  | .reject error affected => .ok (r.reject error affected)
  | .register rule => .ok (r.register rule)
  | .abort error => .error error

def performRequests (r : Reactor) (requests : List Request) : Except ReactorError Reactor :=
  requests.foldlM performRequest r

def runPass (r : Reactor) (symbols : SymbolTable) (requests : List Request) :
    Except ReactorError Reactor := do
  let r ← r.performRequests requests
  match r.run symbols with
  | (.ok _, r) => return r
  | (.error e, _) => throw e

/-- The requests that depend on a symbol which an attribute holds. -/
def withSymbol (r : Reactor) (attr : Attribute) (requests : SymbolId → List Request) :
    List Request :=
  match r.getAs? Kind.symbol attr with
  | some symbol => requests symbol
  | none => [.abort (.unexpectedValue attr Kind.symbol.name)]

def withSymbols (r : Reactor) : List NodeId → (List SymbolId → List Request) → List Request
  | [], requests => requests []
  | node :: nodes, requests =>
    r.withSymbol (AttrName.symbol.of node) fun symbol =>
      r.withSymbols nodes fun symbols => requests (symbol :: symbols)

end Reactor

def typeOf (owner : Owner) : Attribute := AttrName.type.of owner

def typesOf (symbols : List SymbolId) : List Attribute := symbols.map fun s => typeOf (.symbol s)

def AttrName.ofNodes (name : AttrName) (nodes : List NodeId) : List Attribute :=
  nodes.map fun n => name.of (.node n)

end BlFront
