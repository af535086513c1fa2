import BlFront.OrderedMap
import BlFront.Span
import BlFront.Symbol.Id

/-!
# Symbols and scopes

A symbol is a declared name, a scope the names declared together.  Functions, methods,
structs and classes own a scope for their members.
-/

namespace BlFront

inductive ScopeKind where
  | builtin
  | topLevel
  | inner
  | membersOf (owner : SymbolId)
  deriving DecidableEq, Repr

namespace ScopeKind

def text : ScopeKind → String
  | .builtin => "builtin"
  | .topLevel => "global"
  | .inner => "local"
  | .membersOf owner => "symbol " ++ toString owner

end ScopeKind

structure Scope where
  kind : ScopeKind
  parent : Option ScopeId
  /-- The last symbol declared under each name, the names in order of their first declaration. -/
  declarations : OrderedMap String SymbolId
  deriving Repr

inductive SymbolKind where
  | primitiveType
  | var
  | field
  | function (members : ScopeId)
  | method (members : ScopeId)
  | structType (members : ScopeId)
  | classType (members : ScopeId) (superclass : Option String)
  deriving DecidableEq, Repr

namespace SymbolKind

def name : SymbolKind → String
  | .primitiveType => "primitive type"
  | .var => "variable"
  | .field => "field"
  | .function _ => "function"
  | .method _ => "method"
  | .structType _ => "struct"
  | .classType _ _ => "class"

def members? : SymbolKind → Option ScopeId
  | .function members => some members
  | .method members => some members
  | .structType members => some members
  | .classType members _ => some members
  | _ => none

def isVar : SymbolKind → Bool
  | .var => true
  | _ => false

def isField : SymbolKind → Bool
  | .field => true
  | _ => false

def isMethod : SymbolKind → Bool
  | .method _ => true
  | _ => false

def isClass : SymbolKind → Bool
  | .classType _ _ => true
  | _ => false

def isCallable : SymbolKind → Bool
  | .function _ | .method _ => true
  | _ => false

def isType : SymbolKind → Bool
  | .primitiveType | .structType _ | .classType _ _ => true
  | _ => false

end SymbolKind

structure Symbol where
  name : String
  scope : ScopeId
  kind : SymbolKind
  span : Option Span
  deriving Repr

end BlFront
