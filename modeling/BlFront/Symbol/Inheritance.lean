import BlFront.Symbol.Table

/-!
# Inheritance

A class names its superclass, which is looked up where the class is declared.  Members are
found in the class itself or in the nearest ancestor that has them.
-/

namespace BlFront.SymbolTable

def superclassName? (t : SymbolTable) (id : SymbolId) : Option String :=
  match t.kind? id with
  | some (.classType _ superclass) => superclass
  | _ => none

/-- The superclass, if its name stands for a class. -/
def superclass? (t : SymbolTable) (id : SymbolId) : Option SymbolId := do
  let name ← t.superclassName? id
  let symbol ← t.symbol? id
  let found ← t.lookup? symbol.scope name
  guard (t.hasKind (·.isClass) found)
  return found

/-- A class and its superclasses that are not among those seen, at most as many as the fuel. -/
def ancestorsFrom (t : SymbolTable) : Nat → List SymbolId → SymbolId → List SymbolId
  | 0, _, id => [id]
  | fuel + 1, seen, id => match t.superclass? id with
      | none => [id]
      | some parent =>
        if (id :: seen).contains parent then [id]
        else id :: ancestorsFrom t fuel (id :: seen) parent

/-- A class and its superclasses, the nearest first, each once also where they form a cycle. -/
def ancestors (t : SymbolTable) (id : SymbolId) : List SymbolId :=
  t.ancestorsFrom t.symbols.length [] id

/-- Whether the superclasses of a class lead back to it. -/
def isCyclic (t : SymbolTable) (id : SymbolId) : Bool :=
  match (t.ancestors id).getLast?.bind t.superclass? with
  | some next => next == id
  | none => false

/-- The member with a name and a kind in the first of some owners that has one. -/
def findMember? (t : SymbolTable) (owners : List SymbolId) (wanted : SymbolKind → Bool)
    (name : String) : Option SymbolId :=
  owners.findSome? fun owner => do
    let scope ← (t.members? owner).bind t.scope?
    let found ← scope.declarations.get? name
    guard (t.hasKind wanted found)
    return found

def resolveMethod? (t : SymbolTable) (id : SymbolId) (name : String) : Option SymbolId :=
  t.findMember? (t.ancestors id) (·.isMethod) name

def resolveField? (t : SymbolTable) (id : SymbolId) (name : String) : Option SymbolId :=
  let owners := if t.hasKind (·.isClass) id then t.ancestors id else [id]
  t.findMember? owners (·.isField) name

def overridden? (t : SymbolTable) (id : SymbolId) : Option SymbolId := do
  let symbol ← t.symbol? id
  guard symbol.kind.isMethod
  let owner ← t.classOfScope? symbol.scope
  t.findMember? (t.ancestors owner).tail (·.isMethod) symbol.name

end BlFront.SymbolTable
