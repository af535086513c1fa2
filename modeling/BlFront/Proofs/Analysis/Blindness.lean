import BlFront.Analysis
import BlFront.Proofs.Analysis.Naming
import BlFront.Proofs.Reactor.Veil

/-!
# Names and missing types under a veil

The passes over names and over missing types take the place of a node only as the place of a symbol or
of an error.  So what they ask for about a veiled unit is what they ask for about the unit, veiled.
-/

namespace BlFront

open List SymbolTable

variable (V : Veil)

/-! ### Missing types -/

namespace Inferred

def Findings.veiled (f : Findings) : Findings :=
  { f with requests := f.requests.map (Request.veiled V) }

variable (r : Reactor) (f : Findings)

theorem report_veiled (span : Span) (what : String) :
    report (f.veiled V) (V.place span) what = (report f span what).veiled V := by
  simp [report, Findings.veiled, Request.veiled]

theorem expectSymbol_veiled (symbol : SymbolId) (span : Span) (name : String) :
    expectSymbol r (f.veiled V) symbol (V.place span) name =
      (expectSymbol r f symbol span name).veiled V := by
  have reported : (f.veiled V).reported = f.reported := rfl
  simp only [expectSymbol, reported]
  split
  · rfl
  · split
    · exact report_veiled V { f with reported := symbol :: f.reported } span name
    · rfl

theorem expectDeclared_veiled (tag : Tag) (name : String) :
    expectDeclared r (f.veiled V) (tag.veiled V) name =
      (expectDeclared r f tag name).veiled V := by
  simp only [expectDeclared, Tag.id_veiled, Tag.span_veiled]
  cases r.getAs? Kind.symbol (AttrName.symbol.of tag.id) with
  | some symbol => exact expectSymbol_veiled V r f symbol tag.span name
  | none => simp [Findings.veiled, Request.veiled]

theorem expectNode_veiled (tag : Tag) (what : String) :
    expectNode r (f.veiled V) (tag.veiled V) what = (expectNode r f tag what).veiled V := by
  rw [expectNode, expectNode, Tag.id_veiled, Tag.span_veiled, report_veiled]
  split <;> rfl

theorem expectUse_veiled (tag : Tag) (name : String) :
    expectUse r (f.veiled V) (tag.veiled V) name = (expectUse r f tag name).veiled V := by
  simp only [expectUse, Tag.id_veiled, Tag.span_veiled, expectNode_veiled, expectSymbol_veiled]
  cases r.getAs? Kind.symbol (AttrName.symbol.of tag.id) with
  | none => rfl
  | some symbol => simp only; split <;> rfl

theorem inspect_veiled (part : Part) :
    inspect r (f.veiled V) (part.veiled V) = (inspect r f part).veiled V := by
  cases part with
  | function decl =>
    rw [Part.veiled, inspect, decl.tag_veiled, decl.name_veiled]
    exact expectDeclared_veiled V r f decl.tag decl.name
  | structDecl decl => exact expectDeclared_veiled V r f decl.tag decl.name
  | classDecl decl =>
    rw [Part.veiled, inspect, decl.tag_veiled, decl.name_veiled]
    exact expectDeclared_veiled V r f decl.tag decl.name
  | varDecl decl => exact expectDeclared_veiled V r f decl.tag decl.name
  | expr e expected =>
    cases e with
    | reference tag name => exact expectUse_veiled V r f tag name
    | array tag elements => exact expectNode_veiled V r f tag "array literal"
    | _ => rfl
  | type type =>
    cases type with
    | named tag name => exact expectUse_veiled V r f tag name
    | array tag element => rfl
  | _ => rfl

theorem plan_veiled (unit : CompilationUnit) :
    (plan unit r).map (Request.veiled V) = plan (unit.veiled V) r := by
  rw [plan, plan, unit.entered_veiled, foldl_map]
  exact congrArg Findings.requests
    (foldl_hom (Findings.veiled V) (l := unit.entered) (inspect_veiled V r)).symm

end Inferred

/-! ### Names -/

namespace Names

theorem lateMeaning_veiled (name : String) (span : Span) (scope : ScopeId) (t : SymbolTable) :
    (Walk.lateMeaning name span scope t.bare).mapError (SemanticError.veiled V) =
      Walk.lateMeaning name (V.place span) scope t := by
  simp only [Walk.lateMeaning, bare, lookup?_veiled,
    hasKind_veiled]
  cases t.lookup? scope name with
  | none => rfl
  | some symbol => simp only; split <;> rfl

theorem lateRule_veiled (tag : Tag) (name : String) :
    (lateRule tag name).veiled V = lateRule (tag.veiled V) name :=
  Rule.map_veiled (lateMeaning_veiled V name tag.span)

namespace Walk

def veiled (w : Walk) : Walk :=
  ⟨w.table.veiled V, w.scopes, w.requests.map (Request.veiled V),
    w.classes.map (Prod.map id (ClassDecl.veiled V))⟩

variable (w : Walk)

theorem request_veiled (q : Request) : (w.veiled V).request (q.veiled V) = (w.request q).veiled V := by
  simp [request, veiled]

theorem place_veiled (node : NodeId) : (w.veiled V).place node = (w.place node).veiled V :=
  w.request_veiled V (.seed (AttrName.scope.of node) (.scope w.scope))

theorem bindNode_veiled (node : NodeId) (symbol : SymbolId) :
    (w.veiled V).bindNode node symbol = (w.bindNode node symbol).veiled V :=
  w.request_veiled V (.seed (AttrName.symbol.of node) (.symbol symbol))

variable {declared declared' : SymbolTable → ScopeId → SymbolId × SymbolTable}

theorem declare_veiled (node : NodeId) (same : ∀ t scope,
      declared' (t.veiled V) scope = ((declared t scope).1, (declared t scope).2.veiled V)) :
    (w.veiled V).declare node declared' = (w.declare node declared).veiled V := by
  have here : declared' (w.veiled V).table (w.veiled V).scope =
      ((declared w.table w.scope).1, (declared w.table w.scope).2.veiled V) := same w.table w.scope
  rw [declare, here]
  exact bindNode_veiled V { w with table := (declared w.table w.scope).2 } node _

theorem declareOwner_veiled (node : NodeId) (same : ∀ t scope,
      declared' (t.veiled V) scope = ((declared t scope).1, (declared t scope).2.veiled V)) :
    (w.veiled V).declareOwner node declared' = (w.declareOwner node declared).veiled V := by
  rw [declareOwner, w.declare_veiled V node same]
  rfl

theorem resolveName_veiled (tag : Tag) (name : String) :
    (w.veiled V).resolveName (tag.veiled V) name = (w.resolveName tag name).veiled V := by
  have known : (w.veiled V).table.lookup? (w.veiled V).scope name = w.table.lookup? w.scope name :=
    w.table.lookup?_veiled V w.scope name
  rw [resolveName, resolveName, known]
  cases w.table.lookup? w.scope name with
  | some symbol => exact w.bindNode_veiled V tag.id symbol
  | none =>
    have late : (Request.register (lateRule tag name)).veiled V =
        .register (lateRule (tag.veiled V) name) :=
      congrArg Request.register (lateRule_veiled V tag name)
    exact late ▸ w.request_veiled V (.register (lateRule tag name))

theorem containing_veiled (attr : Attribute) (found : Option SymbolId) (span : Span)
    (message : String) : (w.veiled V).containing attr found (V.place span) message =
      (w.containing attr found span message).veiled V := by
  cases found with
  | some symbol => exact w.request_veiled V (.seed attr (.symbol symbol))
  | none => exact w.request_veiled V (.reject ⟨span, message⟩ [attr])

theorem enter_veiled (part : Part) : (w.veiled V).enter (part.veiled V) = (w.enter part).veiled V := by
  cases part with
  | function decl =>
    simp only [Part.veiled, enter, decl.tag_veiled, decl.name_veiled, Tag.id_veiled,
      Tag.span_veiled, place_veiled]
    exact declareOwner_veiled V _ _ fun t scope =>
      t.declareFunction_veiled V scope decl.name (some decl.tag.span)
  | structDecl decl =>
    simp only [Part.veiled, StructDecl.veiled, enter, Tag.id_veiled, Tag.span_veiled, place_veiled]
    exact declareOwner_veiled V _ _ fun t scope =>
      t.declareOwner_veiled V scope decl.name (some decl.tag.span) .structType
  | classDecl decl =>
    have named : (decl.superclass.map (Ident.veiled V)).map (·.name) =
        decl.superclass.map (·.name) := by
      cases decl.superclass <;> rfl
    have owner : ((w.place decl.tag.id).veiled V).declareOwner decl.tag.id
          (·.declareClass · decl.name (decl.superclass.map (·.name))
            (some (V.place decl.tag.span))) =
        ((w.place decl.tag.id).declareOwner decl.tag.id
          (·.declareClass · decl.name (decl.superclass.map (·.name))
            (some decl.tag.span))).veiled V :=
      declareOwner_veiled V _ _ fun t scope =>
        t.declareOwner_veiled V scope decl.name (some decl.tag.span)
          fun members => .classType members (decl.superclass.map Ident.name)
    have next : (w.veiled V).table.nextSymbol = w.table.nextSymbol := w.table.nextSymbol_veiled V
    simp only [Part.veiled, enter, decl.tag_veiled, decl.name_veiled, decl.superclass_veiled, named,
      Tag.id_veiled, Tag.span_veiled, place_veiled, owner, next]
    simp [veiled]
  | block body =>
    simp only [Part.veiled, enter, body.tag_veiled, Tag.id_veiled, place_veiled]
    rfl
  | returnStmt tag value =>
    have found : (w.veiled V).table.containingFunction? (w.veiled V).scope =
        w.table.containingFunction? w.scope := w.table.containingFunction?_veiled V w.scope
    simp only [Part.veiled, enter, Tag.id_veiled, place_veiled, found]
    exact containing_veiled V _ _ _ tag.span _
  | expr e expected =>
    cases e with
    | reference tag name =>
      simp only [Part.veiled, Expr.veiled, enter, Tag.id_veiled, place_veiled]
      exact resolveName_veiled V _ tag name
    | selfRef tag =>
      have found : (w.veiled V).table.containingClass? (w.veiled V).scope =
          w.table.containingClass? w.scope := w.table.containingClass?_veiled V w.scope
      simp only [Part.veiled, Expr.veiled, enter, Tag.id_veiled, place_veiled, found]
      exact containing_veiled V _ _ _ tag.span _
    | _ => exact w.place_veiled V _
  | type type =>
    cases type with
    | named tag name =>
      simp only [Part.veiled, TypeExpr.veiled, enter, Tag.id_veiled, place_veiled]
      exact resolveName_veiled V _ tag name
    | array tag element => exact w.place_veiled V _
  | typed _ _ => rfl
  | _ => exact w.place_veiled V _

theorem leave_veiled (part : Part) : (w.veiled V).leave (part.veiled V) = (w.leave part).veiled V := by
  have declared (node : NodeId) (name : String) (span : Span) (kind : SymbolKind) :
      (w.veiled V).declare node (·.declare · name kind (some (V.place span))) =
        (w.declare node (·.declare · name kind (some span))).veiled V :=
    w.declare_veiled V node fun t scope => t.declare_veiled V scope name (some span) kind
  cases part with
  | param decl => exact declared decl.tag.id decl.name decl.tag.span .var
  | field decl => exact declared decl.tag.id decl.name decl.tag.span .field
  | varDecl decl => exact declared decl.tag.id decl.name decl.tag.span .var
  | _ => rfl

theorem visit_veiled (v : Visit) : (w.veiled V).visit (v.veiled V) = (w.visit v).veiled V := by
  cases v with
  | enter part => exact w.enter_veiled V part
  | leave part => exact w.leave_veiled V part

end Walk

theorem walk_veiled (unit : CompilationUnit) (t : SymbolTable) :
    walk (unit.veiled V) (t.veiled V) = (walk unit t).veiled V := by
  have start : ((⟨t.veiled V, [builtinScope], [], []⟩ : Walk).place
        (unit.veiled V).tag.id).enterNew .topLevel =
      (((⟨t, [builtinScope], [], []⟩ : Walk).place unit.tag.id).enterNew
        .topLevel).veiled V := rfl
  rw [walk, walk, unit.tour_veiled, foldl_map, start]
  exact foldl_hom (Walk.veiled V) (Walk.visit_veiled V)

theorem superclassRequests_veiled (t : SymbolTable) (symbol : SymbolId) (decl : ClassDecl) :
    superclassRequests (t.veiled V) symbol (decl.veiled V) =
      (superclassRequests t symbol decl).map (Request.veiled V) := by
  simp only [superclassRequests, decl.superclass_veiled, decl.name_veiled,
    superclass?_veiled, isCyclic_veiled]
  cases decl.superclass with
  | none => rfl
  | some written =>
    simp only [Option.map_some]
    cases t.superclass? symbol with
    | none => rfl
    | some superclass => simp only; split <;> rfl

/-- What is to be done about the superclasses of all classes. -/
def Walk.superclasses (w : Walk) : List Request :=
  w.classes.flatMap fun entry => superclassRequests w.table entry.1 entry.2

theorem Walk.superclasses_veiled (w : Walk) :
    (w.veiled V).superclasses = w.superclasses.map (Request.veiled V) := by
  rw [superclasses, superclasses, veiled, flatMap_map, map_flatMap]
  exact congrArg (List.flatMap · _) (funext fun entry =>
    superclassRequests_veiled V w.table entry.1 entry.2)

theorem plan_veiled (unit : CompilationUnit) (t : SymbolTable) :
    plan (unit.veiled V) (t.veiled V) =
      ((plan unit t).1.veiled V, (plan unit t).2.map (Request.veiled V)) := by
  have planned (unit : CompilationUnit) (t : SymbolTable) : plan unit t =
      ((walk unit t).table, (walk unit t).requests ++ (walk unit t).superclasses) := rfl
  rw [planned, planned, walk_veiled, map_append, ← Walk.superclasses_veiled]
  rfl

end Names

end BlFront
