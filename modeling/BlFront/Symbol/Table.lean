import BlFront.Symbol.Basic
import BlFront.Ty

/-!
# Symbol tables

All scopes and symbols of one unit; an identity is a position in its list.  A name is looked
up in a scope and then in the scopes around it, the nearest first.
-/

namespace BlFront

structure SymbolTable where
  scopes : List Scope
  symbols : List Symbol

namespace SymbolTable

def empty : SymbolTable := ⟨[], []⟩

def builtinScope : ScopeId := ⟨0⟩

def scope? (t : SymbolTable) (id : ScopeId) : Option Scope := t.scopes[id.index]?

def symbol? (t : SymbolTable) (id : SymbolId) : Option Symbol := t.symbols[id.index]?

def kind? (t : SymbolTable) (id : SymbolId) : Option SymbolKind := (t.symbol? id).map (·.kind)

def hasKind (t : SymbolTable) (wanted : SymbolKind → Bool) (id : SymbolId) : Bool :=
  (t.kind? id).any wanted

def name (t : SymbolTable) (id : SymbolId) : String := ((t.symbol? id).map (·.name)).getD ""

def members? (t : SymbolTable) (id : SymbolId) : Option ScopeId :=
  (t.kind? id).bind (·.members?)

def entries (t : SymbolTable) : List (SymbolId × Symbol) :=
  t.symbols.zipIdx.map fun (symbol, index) => (⟨index⟩, symbol)

/-! ### Declarations -/

def nextScope (t : SymbolTable) : ScopeId := ⟨t.scopes.length⟩

def nextSymbol (t : SymbolTable) : SymbolId := ⟨t.symbols.length⟩

def pushScope (t : SymbolTable) (parent : Option ScopeId) (kind : ScopeKind) :
    ScopeId × SymbolTable :=
  (t.nextScope, { t with scopes := t.scopes ++ [⟨kind, parent, []⟩] })

/-- A new symbol in a scope, in place of an earlier one of the same name. -/
def declare (t : SymbolTable) (scope : ScopeId) (name : String) (kind : SymbolKind)
    (span : Option Span) : SymbolId × SymbolTable :=
  let id := t.nextSymbol
  let bindName (s : Scope) := { s with declarations := s.declarations.insert name id }
  (id, ⟨t.scopes.modify scope.index bindName, t.symbols ++ [⟨name, scope, kind, span⟩]⟩)

def declareOwner (t : SymbolTable) (scope : ScopeId) (name : String)
    (kind : ScopeId → SymbolKind) (span : Option Span) : SymbolId × SymbolTable :=
  let (members, t) := t.pushScope (some scope) (.membersOf t.nextSymbol)
  t.declare scope name (kind members) span

def classOfKind? (t : SymbolTable) : ScopeKind → Option SymbolId
  | .membersOf owner => if t.hasKind (·.isClass) owner then some owner else none
  | _ => none

def classOfScope? (t : SymbolTable) (scope : ScopeId) : Option SymbolId :=
  (t.scope? scope).bind fun s => t.classOfKind? s.kind

def declareVar (t : SymbolTable) (scope : ScopeId) (name : String) (span : Option Span) :
    SymbolId × SymbolTable :=
  t.declare scope name .var span

def declareField (t : SymbolTable) (scope : ScopeId) (name : String) (span : Option Span) :
    SymbolId × SymbolTable :=
  t.declare scope name .field span

/-- A function among the members of a class is a method. -/
def declareFunction (t : SymbolTable) (scope : ScopeId) (name : String) (span : Option Span) :
    SymbolId × SymbolTable :=
  let kind := if (t.classOfScope? scope).isSome then SymbolKind.method else SymbolKind.function
  t.declareOwner scope name kind span

def declareStruct (t : SymbolTable) (scope : ScopeId) (name : String) (span : Option Span) :
    SymbolId × SymbolTable :=
  t.declareOwner scope name .structType span

def declareClass (t : SymbolTable) (scope : ScopeId) (name : String)
    (superclass : Option String) (span : Option Span) : SymbolId × SymbolTable :=
  t.declareOwner scope name (.classType · superclass) span

/-! ### Scopes around a scope -/

/-- A scope and the scopes around it, at most as many as the fuel. -/
def chainFrom (t : SymbolTable) : Nat → ScopeId → List Scope
  | 0, _ => []
  | fuel + 1, id => match t.scope? id with
      | none => []
      | some s => s :: match s.parent with
          | some parent => chainFrom t fuel parent
          | none => []

/-- A scope and all scopes around it, the nearest first.  A parent is older than its child, so
there are no more of them than scopes. -/
def enclosing (t : SymbolTable) (scope : ScopeId) : List Scope :=
  t.chainFrom t.scopes.length scope

def lookup? (t : SymbolTable) (scope : ScopeId) (name : String) : Option SymbolId :=
  (t.enclosing scope).findSome? fun s => s.declarations.get? name

def containingFunction? (t : SymbolTable) (scope : ScopeId) : Option SymbolId :=
  (t.enclosing scope).findSome? fun s => match s.kind with
    | .membersOf owner => if t.hasKind (·.isCallable) owner then some owner else none
    | _ => none

def containingClass? (t : SymbolTable) (scope : ScopeId) : Option SymbolId :=
  (t.enclosing scope).findSome? fun s => t.classOfKind? s.kind

/-- A variable is a parameter if it is declared among the members of a function or method. -/
def isParameter (t : SymbolTable) (id : SymbolId) : Bool :=
  match t.symbol? id with
  | some ⟨_, scope, .var, _⟩ => match (t.scope? scope).map Scope.kind with
      | some (.membersOf owner) => t.hasKind (·.isCallable) owner
      | _ => false
  | _ => false

/-- The name of a symbol behind the names of the symbols around it, outermost first. -/
def qualifiedName (t : SymbolTable) (id : SymbolId) (separator : String) : String :=
  match t.symbol? id with
  | none => ""
  | some symbol =>
    let owners := (t.enclosing symbol.scope).filterMap fun s => match s.kind with
      | .membersOf owner => some (t.name owner)
      | _ => none
    separator.intercalate (symbol.name :: owners).reverse

/-! ### Members -/

def membersOfKind (t : SymbolTable) (wanted : SymbolKind → Bool) (id : SymbolId) :
    List SymbolId :=
  match (t.members? id).bind t.scope? with
  | some s => (s.declarations.map Prod.snd).filter (t.hasKind wanted)
  | none => []

def parameters (t : SymbolTable) (callable : SymbolId) : List SymbolId :=
  t.membersOfKind (·.isVar) callable

def fields (t : SymbolTable) (id : SymbolId) : List SymbolId := t.membersOfKind (·.isField) id

def methods (t : SymbolTable) (id : SymbolId) : List SymbolId := t.membersOfKind (·.isMethod) id

/-! ### Builtins -/

structure BuiltinFunction where
  name : String
  params : List Member
  result : Ty

def builtinFunctions : List BuiltinFunction :=
  [⟨"print", [⟨"any", .any⟩], .unit⟩,
   ⟨"str", [⟨"any", .any⟩], .string⟩,
   ⟨"concat", [⟨"s1", .string⟩, ⟨"s2", .string⟩], .string⟩,
   ⟨"len", [⟨"array", .array .any⟩], .int⟩]

structure Builtins where
  table : SymbolTable
  types : List (SymbolId × Ty)

def Builtins.addPrimitive (b : Builtins) (primitive : String × Ty) : Builtins :=
  let (id, table) := b.table.declare builtinScope primitive.1 .primitiveType none
  ⟨table, b.types ++ [(id, primitive.2)]⟩

def Builtins.addParam (members : ScopeId) (b : Builtins) (param : Member) : Builtins :=
  let (id, table) := b.table.declareVar members param.name none
  ⟨table, b.types ++ [(id, param.type)]⟩

def Builtins.addFunction (b : Builtins) (f : BuiltinFunction) : Builtins :=
  let members := b.table.nextScope
  let (id, table) := b.table.declareFunction builtinScope f.name none
  let b := f.params.foldl (Builtins.addParam members) ⟨table, b.types⟩
  ⟨b.table, b.types ++ [(id, .function f.params f.result)]⟩

def builtins : Builtins :=
  let start := ⟨(empty.pushScope none .builtin).2, []⟩
  builtinFunctions.foldl Builtins.addFunction (Ty.primitives.foldl Builtins.addPrimitive start)

/-- The table before any declaration of a unit. -/
def initial : SymbolTable := builtins.table

/-- The types of the builtin symbols, those of parameters before that of their function. -/
def builtinTypes : List (SymbolId × Ty) := builtins.types

end SymbolTable

end BlFront
