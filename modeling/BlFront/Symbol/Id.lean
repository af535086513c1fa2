/-!
# Identities of symbols and scopes
-/

namespace BlFront

structure SymbolId where
  index : Nat
  deriving DecidableEq, Repr, Inhabited

instance : ToString SymbolId where
  toString s := "symbol#" ++ toString s.index

structure ScopeId where
  index : Nat
  deriving DecidableEq, Repr, Inhabited

instance : ToString ScopeId where
  toString s := "scope#" ++ toString s.index

end BlFront
