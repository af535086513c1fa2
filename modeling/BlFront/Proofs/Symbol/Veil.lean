import Mathlib.Data.Option.Basic
import BlFront.Proofs.Syntax.Veil
import BlFront.Symbol.Inheritance

/-!
# Tables under a veil

A table keeps where each symbol is declared, and no question about scopes and symbols depends on it:
a table and the veiled table give the same answers.  Declaring a symbol in the one is declaring it in
the other.
-/

namespace BlFront

def Symbol.veiled (V : Veil) (s : Symbol) : Symbol := { s with span := s.span.map V.place }

namespace SymbolTable

def veiled (V : Veil) (t : SymbolTable) : SymbolTable :=
  { t with symbols := t.symbols.map (Symbol.veiled V) }

/-- The table as if its symbols were declared nowhere in particular. -/
def bare (t : SymbolTable) : SymbolTable := t.veiled .dense

variable (V : Veil) (t : SymbolTable)

@[simp] theorem scope?_veiled (id : ScopeId) : (t.veiled V).scope? id = t.scope? id := rfl

@[simp] theorem nextSymbol_veiled : (t.veiled V).nextSymbol = t.nextSymbol := by
  simp [nextSymbol, veiled]

@[simp] theorem bare_veiled : (t.veiled V).bare = t.bare := by
  have same : Symbol.veiled .dense ∘ Symbol.veiled V = Symbol.veiled .dense := funext fun s => by
    rw [Function.comp_apply, Symbol.veiled, Symbol.veiled, Option.map_map]
    rfl
  rw [bare, bare, veiled, veiled, List.map_map, same, veiled]

theorem veiled_clear : t.veiled .clear = t := by
  have same : Symbol.veiled .clear = id := funext fun s => by
    rw [Symbol.veiled, show Veil.clear.place = id from rfl, Option.map_id]
    rfl
  rw [veiled, same, List.map_id]

@[simp] theorem symbol?_veiled (id : SymbolId) : (t.veiled V).symbol? id = (t.symbol? id).map (Symbol.veiled V) :=
  List.getElem?_map

/-! ### Questions -/

@[simp] theorem kind?_veiled (id : SymbolId) : (t.veiled V).kind? id = t.kind? id := by
  rw [kind?, kind?, symbol?_veiled, Option.map_map]
  rfl

@[simp] theorem hasKind_veiled (wanted : SymbolKind → Bool) (id : SymbolId) :
    (t.veiled V).hasKind wanted id = t.hasKind wanted id := by
  rw [hasKind, hasKind, kind?_veiled]

theorem chainFrom_veiled (fuel : Nat) (id : ScopeId) :
    (t.veiled V).chainFrom fuel id = t.chainFrom fuel id := by
  induction fuel generalizing id with
  | zero => rfl
  | succ fuel ih => simp only [chainFrom, scope?_veiled, ih]

@[simp] theorem enclosing_veiled (scope : ScopeId) : (t.veiled V).enclosing scope = t.enclosing scope :=
  t.chainFrom_veiled V _ scope

@[simp] theorem lookup?_veiled (scope : ScopeId) (name : String) :
    (t.veiled V).lookup? scope name = t.lookup? scope name := by
  rw [lookup?, lookup?, enclosing_veiled]

@[simp] theorem classOfKind?_veiled (kind : ScopeKind) :
    (t.veiled V).classOfKind? kind = t.classOfKind? kind := by
  cases kind with
  | membersOf owner => simp only [classOfKind?, hasKind_veiled]
  | _ => rfl

@[simp] theorem classOfScope?_veiled (scope : ScopeId) :
    (t.veiled V).classOfScope? scope = t.classOfScope? scope := by
  simp only [classOfScope?, scope?_veiled, classOfKind?_veiled]

@[simp] theorem containingFunction?_veiled (scope : ScopeId) :
    (t.veiled V).containingFunction? scope = t.containingFunction? scope := by
  simp only [containingFunction?, enclosing_veiled, hasKind_veiled]

@[simp] theorem containingClass?_veiled (scope : ScopeId) :
    (t.veiled V).containingClass? scope = t.containingClass? scope := by
  simp only [containingClass?, enclosing_veiled, classOfKind?_veiled]

/-! ### Names and inheritance -/

@[simp] theorem name_veiled (id : SymbolId) : (t.veiled V).name id = t.name id := by
  rw [name, name, symbol?_veiled, Option.map_map]
  rfl

@[simp] theorem qualifiedName_veiled (id : SymbolId) (separator : String) :
    (t.veiled V).qualifiedName id separator = t.qualifiedName id separator := by
  simp only [qualifiedName, symbol?_veiled, enclosing_veiled, name_veiled]
  cases t.symbol? id <;> rfl

@[simp] theorem superclass?_veiled (id : SymbolId) : (t.veiled V).superclass? id = t.superclass? id := by
  simp only [superclass?, superclassName?, kind?_veiled, symbol?_veiled, lookup?_veiled,
    hasKind_veiled]
  cases t.symbol? id <;> rfl

theorem ancestorsFrom_veiled (fuel : Nat) (seen : List SymbolId) (id : SymbolId) :
    (t.veiled V).ancestorsFrom fuel seen id = t.ancestorsFrom fuel seen id := by
  induction fuel generalizing seen id with
  | zero => rfl
  | succ fuel ih => simp only [ancestorsFrom, superclass?_veiled, ih]

@[simp] theorem ancestors_veiled (id : SymbolId) : (t.veiled V).ancestors id = t.ancestors id := by
  rw [ancestors, ancestors, ancestorsFrom_veiled, veiled, List.length_map]

@[simp] theorem isCyclic_veiled (id : SymbolId) : (t.veiled V).isCyclic id = t.isCyclic id := by
  rw [isCyclic, isCyclic, ancestors_veiled, funext (t.superclass?_veiled V)]

@[simp] theorem resolveMethod?_veiled (id : SymbolId) (name : String) :
    (t.veiled V).resolveMethod? id name = t.resolveMethod? id name := by
  have scopes : (t.veiled V).scope? = t.scope? := rfl
  simp only [resolveMethod?, findMember?, members?, ancestors_veiled, kind?_veiled, hasKind_veiled,
    scopes]

/-! ### Declarations -/

@[simp] theorem pushScope_veiled (parent : Option ScopeId) (kind : ScopeKind) :
    (t.veiled V).pushScope parent kind = ((t.pushScope parent kind).1, (t.pushScope parent kind).2.veiled V) :=
  rfl

variable (scope : ScopeId) (name : String) (span : Option Span)

theorem declare_veiled (kind : SymbolKind) :
    (t.veiled V).declare scope name kind (span.map V.place) =
      ((t.declare scope name kind span).1, (t.declare scope name kind span).2.veiled V) := by
  simp [declare, veiled, Symbol.veiled, nextSymbol]

theorem declareOwner_veiled (kind : ScopeId → SymbolKind) :
    (t.veiled V).declareOwner scope name kind (span.map V.place) =
      ((t.declareOwner scope name kind span).1, (t.declareOwner scope name kind span).2.veiled V) := by
  rw [declareOwner, nextSymbol_veiled, pushScope_veiled]
  exact declare_veiled V _ scope name span _

theorem declareFunction_veiled :
    (t.veiled V).declareFunction scope name (span.map V.place) =
      ((t.declareFunction scope name span).1, (t.declareFunction scope name span).2.veiled V) := by
  rw [declareFunction, classOfScope?_veiled]
  exact t.declareOwner_veiled V scope name span _

end SymbolTable

end BlFront
