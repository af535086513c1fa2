import BlFront.Symbol.Inheritance

/-!
# What a table can answer

An identity may name a scope or a symbol that a table does not hold, and a scope may stand
inside one that is missing.  A question has an answer only if all that it looks at is there: a
search through the scopes around a scope looks no further than where it stops.
-/

namespace BlFront.SymbolTable

def hasScope (t : SymbolTable) (id : ScopeId) : Bool := (t.scope? id).isSome

def hasSymbol (t : SymbolTable) (id : SymbolId) : Bool := (t.symbol? id).isSome

/-! ### Scopes around a scope -/

def hasOwner (t : SymbolTable) (s : Scope) : Bool :=
  match s.kind with
  | .membersOf owner => t.hasSymbol owner
  | _ => true

def isOwnedBy (t : SymbolTable) (wanted : SymbolKind → Bool) (s : Scope) : Bool :=
  match s.kind with
  | .membersOf owner => t.hasKind wanted owner
  | _ => false

def isRooted (t : SymbolTable) (scope : ScopeId) : Bool :=
  (t.enclosing scope).getLast?.any (·.parent.isNone)

/-- Whether a search outwards from a scope stops before it leaves the table. -/
def searchEnds (t : SymbolTable) (stop : Scope → Bool) (scope : ScopeId) : Bool :=
  (t.enclosing scope).any stop || t.isRooted scope

def canLookup (t : SymbolTable) (scope : ScopeId) (name : String) : Bool :=
  t.searchEnds (fun s => (s.declarations.get? name).isSome) scope

/-- Whether the nearest owner of a kind can be told: those nearer are in the table as well. -/
def canFindOwner (t : SymbolTable) (wanted : SymbolKind → Bool) (scope : ScopeId) : Bool :=
  t.searchEnds (t.isOwnedBy wanted) scope
    && ((t.enclosing scope).takeWhile fun s => !t.isOwnedBy wanted s).all t.hasOwner

/-- A function is a method or not by the owner of its scope. -/
def canDeclareFunction (t : SymbolTable) (scope : ScopeId) : Bool :=
  (t.scope? scope).any t.hasOwner

/-- A qualified name takes the names of all owners. -/
def canQualify (t : SymbolTable) (id : SymbolId) : Bool :=
  (t.symbol? id).any fun s => t.isRooted s.scope && (t.enclosing s.scope).all t.hasOwner

/-! ### Inheritance -/

def canInherit (t : SymbolTable) (id : SymbolId) : Bool :=
  (t.symbol? id).any fun s => (t.superclassName? id).all (t.canLookup s.scope)

def canTrace (t : SymbolTable) (id : SymbolId) : Bool := (t.ancestors id).all t.canInherit

/-- Only a method overrides; it is looked for in all superclasses of its class. -/
def canOverride (t : SymbolTable) (id : SymbolId) : Bool :=
  (t.symbol? id).any fun s => !s.kind.isMethod || (t.classOfScope? s.scope).all t.canTrace

end BlFront.SymbolTable
