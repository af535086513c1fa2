import BlFront.Analysis.Request
import BlFront.Symbol.Inheritance
import BlFront.Syntax.Tour

/-!
# Names

One tour builds the scopes, declares a symbol for every binding and records for each node the
scope it stands in.  A name that has a meaning when the tour comes to it is bound at once;
the others are looked up again when all scopes are complete, and then never mean a variable.
-/

namespace BlFront.Names

/-- What a tour has found so far.  The innermost scope comes first. -/
structure Walk where
  table : SymbolTable
  scopes : List ScopeId
  requests : List Request
  classes : List (SymbolId × ClassDecl)

namespace Walk

def scope (w : Walk) : ScopeId := w.scopes.head?.getD SymbolTable.builtinScope

def request (w : Walk) (request : Request) : Walk :=
  { w with requests := w.requests ++ [request] }

/-- Records the scope in which a node stands. -/
def place (w : Walk) (node : NodeId) : Walk :=
  w.request (.seed (AttrName.scope.of node) (.scope w.scope))

def bindNode (w : Walk) (node : NodeId) (symbol : SymbolId) : Walk :=
  w.request (.seed (AttrName.symbol.of node) (.symbol symbol))

def declare (w : Walk) (node : NodeId)
    (declared : SymbolTable → ScopeId → SymbolId × SymbolTable) : Walk :=
  let (symbol, table) := declared w.table w.scope
  { w with table := table }.bindNode node symbol

def enterScope (w : Walk) (scope : ScopeId) : Walk := { w with scopes := scope :: w.scopes }

def leaveScope (w : Walk) : Walk := { w with scopes := w.scopes.tail }

def declareOwner (w : Walk) (node : NodeId)
    (declared : SymbolTable → ScopeId → SymbolId × SymbolTable) : Walk :=
  let members := w.table.nextScope
  (w.declare node declared).enterScope members

def enterNew (w : Walk) (kind : ScopeKind) : Walk :=
  let (scope, table) := w.table.pushScope (some w.scope) kind
  { w with table := table }.enterScope scope

/-- What a name stands for once every scope is complete. -/
def lateMeaning (name : String) (span : Span) (scope : ScopeId) (table : SymbolTable) :
    Except SemanticError Value :=
  match table.lookup? scope name with
  | some symbol =>
    if table.hasKind (·.isVar) symbol then .error ⟨span, "unknown identifier: " ++ name⟩
    else .ok (.symbol symbol)
  | none => .error ⟨span, "unknown identifier: " ++ name⟩

def resolveName (w : Walk) (tag : Tag) (name : String) : Walk :=
  match w.table.lookup? w.scope name with
  | some symbol => w.bindNode tag.id symbol
  | none => w.request <| .register <|
      .map "resolve reference" Kind.scope (AttrName.scope.of tag.id) (AttrName.symbol.of tag.id)
        (lateMeaning name tag.span)

/-- Records what stands around a node, or that it must not stand there. -/
def containing (w : Walk) (attr : Attribute) (found : Option SymbolId) (span : Span)
    (message : String) : Walk :=
  match found with
  | some symbol => w.request (.seed attr (.symbol symbol))
  | none => w.request (.reject ⟨span, message⟩ [attr])

def enter (w : Walk) : Part → Walk
  | .function decl =>
    (w.place decl.tag.id).declareOwner decl.tag.id
      (·.declareFunction · decl.name (some decl.tag.span))
  | .param decl => w.place decl.tag.id
  | .structDecl decl =>
    (w.place decl.tag.id).declareOwner decl.tag.id
      (·.declareStruct · decl.name (some decl.tag.span))
  | .classDecl decl =>
    let symbol := w.table.nextSymbol
    let w := (w.place decl.tag.id).declareOwner decl.tag.id
      (·.declareClass · decl.name (decl.superclass.map (·.name)) (some decl.tag.span))
    { w with classes := w.classes ++ [(symbol, decl)] }
  | .field decl => w.place decl.tag.id
  | .varDecl decl => w.place decl.tag.id
  | .typed _ _ => w
  | .block block => (w.place block.tag.id).enterNew .inner
  | .ifElse tag _ _ _ => w.place tag.id
  | .whileLoop tag _ => w.place tag.id
  | .returnStmt tag _ =>
    (w.place tag.id).containing (AttrName.containingFunction.of tag.id)
      (w.table.containingFunction? w.scope) tag.span "return outside of function"
  | .exprStmt tag => w.place tag.id
  | .expr (.reference tag name) _ => (w.place tag.id).resolveName tag name
  | .expr (.selfRef tag) _ =>
    (w.place tag.id).containing (AttrName.containingClass.of tag.id)
      (w.table.containingClass? w.scope) tag.span "self outside of class"
  | .expr e _ => w.place e.id
  | .type (.named tag name) => (w.place tag.id).resolveName tag name
  | .type t => w.place t.id

/-- A variable is declared behind its initializer, which therefore does not see it. -/
def leave (w : Walk) : Part → Walk
  | .function _ | .structDecl _ | .classDecl _ | .block _ => w.leaveScope
  | .param decl => w.declare decl.tag.id (·.declareVar · decl.name (some decl.tag.span))
  | .field decl => w.declare decl.tag.id (·.declareField · decl.name (some decl.tag.span))
  | .varDecl decl => w.declare decl.tag.id (·.declareVar · decl.name (some decl.tag.span))
  | _ => w

def visit (w : Walk) : Visit → Walk
  | .enter part => w.enter part
  | .leave part => w.leave part

end Walk

def superclassRequests (table : SymbolTable) (symbol : SymbolId) (decl : ClassDecl) :
    List Request :=
  match decl.superclass with
  | none => []
  | some written =>
    let attr := AttrName.superclass.of symbol
    match table.superclass? symbol with
    | none => [.reject ⟨written.span, "unknown superclass " ++ written.name⟩ [attr]]
    | some superclass =>
      if table.isCyclic symbol then
        [.reject ⟨written.span, "cyclic inheritance involving " ++ decl.name⟩ [attr]]
      else [.seed attr (.symbol superclass)]

/-- The tour of a unit.  The unit itself stands in the builtin scope. -/
def walk (unit : CompilationUnit) (table : SymbolTable) : Walk :=
  let start : Walk := ⟨table, [SymbolTable.builtinScope], [], []⟩
  unit.tour.foldl Walk.visit ((start.place unit.tag.id).enterNew .topLevel)

def plan (unit : CompilationUnit) (table : SymbolTable) : SymbolTable × List Request :=
  let w := walk unit table
  (w.table, w.requests ++ w.classes.flatMap fun (symbol, decl) =>
    superclassRequests w.table symbol decl)

end BlFront.Names
