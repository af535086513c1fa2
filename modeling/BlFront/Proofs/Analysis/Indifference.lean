import BlFront.Analysis.Checks
import BlFront.Analysis.Returns
import BlFront.Analysis.Types
import BlFront.Proofs.Reactor.Veil

/-!
# Types, checks and returns under a veil

The passes behind the one over names take the place of a node only as the place of an error, and ask the
table nothing about places.  So what they ask for about a veiled part is what they ask for about the part,
veiled.
-/

namespace BlFront

open List

variable {V : Veil} {t : SymbolTable} {r : Reactor}

/-! ### Requests -/

theorem registers_veiled {rule rule' : Rule} (same : rule.veiled V = rule') :
    [Request.register rule].map (Request.veiled V) = [.register rule'] := by
  rw [← same]
  rfl

namespace Reactor

theorem withSymbol_veiled {attr : Attribute} {requests requests' : SymbolId → List Request}
    (each : ∀ s, (requests s).map (Request.veiled V) = requests' s) :
    (r.withSymbol attr requests).map (Request.veiled V) = (r.veiled V).withSymbol attr requests' := by
  have found : (r.veiled V).getAs? Kind.symbol attr = r.getAs? Kind.symbol attr := rfl
  rw [withSymbol, withSymbol, found]
  cases r.getAs? Kind.symbol attr with
  | none => rfl
  | some s => exact each s

theorem withSymbols_veiled {nodes : List NodeId} {requests requests' : List SymbolId → List Request}
    (each : ∀ ss, (requests ss).map (Request.veiled V) = requests' ss) :
    (r.withSymbols nodes requests).map (Request.veiled V) =
      (r.veiled V).withSymbols nodes requests' := by
  induction nodes generalizing requests requests' with
  | nil => exact each []
  | cons n nodes ih => exact withSymbol_veiled fun s => ih fun ss => each (s :: ss)

end Reactor

open Reactor

namespace Stmt

@[simp] theorem contributes_veiled (V : Veil) (s : Stmt) : (s.veiled V).contributes = s.contributes := by
  cases s with
  | ifElse _ _ _ elseBranch => cases elseBranch <;> rfl
  | _ => rfl

@[simp] theorem isReturn_veiled (V : Veil) (s : Stmt) : (s.veiled V).isReturn = s.isReturn := by
  cases s with
  | ifElse _ _ _ elseBranch => cases elseBranch <;> rfl
  | _ => rfl

end Stmt

@[simp] theorem contributing_veiled (V : Veil) (ss : List Stmt) :
    contributing (ss.map (Stmt.veiled V)) = contributing ss := by
  induction ss with
  | nil => rfl
  | cons s ss ih =>
    simp only [map_cons, contributing, Stmt.isReturn_veiled, Stmt.id_veiled,
      Stmt.contributes_veiled, ih]

/-! ### Types of declarations -/

namespace Types

theorem problemAt_veiled (span : Span) (result : Except TypeProblem Ty) :
    (problemAt span result).mapError (SemanticError.veiled V) = problemAt (V.place span) result := by
  cases result <;> rfl

theorem memberTypes_bare (view : View) (typed : List (String × Attribute)) :
    memberTypes view.bare typed = memberTypes view typed := by
  induction typed with
  | nil => rfl
  | cons p typed ih => rw [memberTypes, memberTypes, ih, View.get_bare]

theorem superChain_bare (view : View) (above : Option Attribute) :
    superChain view.bare above = superChain view above := by
  cases above <;> rfl

theorem branchFlow_bare (view : View) (branch : Option Attribute) :
    branchFlow view.bare branch = branchFlow view branch := by
  cases branch <;> rfl

theorem functionRule_veiled (decl : FunctionDecl) (s : SymbolId) (params : List SymbolId) :
    (functionRule decl s params).veiled V = functionRule (decl.veiled V) s params := by
  have same : functionRule (decl.veiled V) s params = functionRule decl s params := by
    cases h : decl.returnType <;> simp [functionRule, h, Function.comp_def, TypedName.veiled]
  rw [same]
  refine Rule.computing_veiled fun view => ?_
  rw [memberTypes_bare]
  exact Rule.bind_veiled fun params => Rule.bind_veiled fun result => rfl

theorem structRule_veiled (decl : StructDecl) (s : SymbolId) (fields : List SymbolId) :
    (structRule t decl s fields).veiled V = structRule (t.veiled V) (decl.veiled V) s fields := by
  have same : structRule (t.veiled V) (decl.veiled V) s fields = structRule t decl s fields := by
    simp [structRule, Function.comp_def, TypedName.veiled]
  rw [same]
  exact Rule.flatMap_veiled fun types _ => rfl

theorem classRule_veiled (decl : ClassDecl) (s : SymbolId) (superclass : Option SymbolId)
    (fields methods : List SymbolId) : (classRule t decl s superclass fields methods).veiled V =
      classRule (t.veiled V) (decl.veiled V) s superclass fields methods := by
  have same : classRule (t.veiled V) (decl.veiled V) s superclass fields methods =
      classRule t decl s superclass fields methods := by
    simp [classRule, Function.comp_def, TypedName.veiled]
  rw [same]
  refine Rule.computing_veiled fun view => ?_
  simp only [memberTypes_bare, superChain_bare]
  exact Rule.bind_veiled fun fields => Rule.bind_veiled fun methods =>
    Rule.bind_veiled fun supers => rfl

/-! ### Types of statements -/

theorem blockRule_veiled (block : Block) : (blockRule block).veiled V = blockRule (block.veiled V) := by
  rw [show blockRule (block.veiled V) = blockRule block by simp [blockRule]]
  exact Rule.flatMap_veiled fun flows _ => rfl

theorem ifRule_veiled (tag : Tag) (thenBranch : Stmt) (elseBranch : Option Stmt) :
    (ifRule tag thenBranch elseBranch).veiled V =
      ifRule (tag.veiled V) (thenBranch.veiled V) (elseBranch.map (Stmt.veiled V)) := by
  have same : ifRule (tag.veiled V) (thenBranch.veiled V) (elseBranch.map (Stmt.veiled V)) =
      ifRule tag thenBranch elseBranch := by
    cases elseBranch <;> simp [ifRule, flowOf?]
  rw [same]
  refine Rule.computing_veiled fun view => ?_
  simp only [branchFlow_bare]
  exact Rule.bind_veiled fun first => Rule.bind_veiled fun second => rfl

theorem returnRequest_veiled (tag : Tag) (value : Option Expr) :
    (returnRequest tag value).veiled V =
      returnRequest (tag.veiled V) (value.map (Expr.veiled V)) := by
  cases value with
  | none => rfl
  | some value =>
    rw [Option.map_some, returnRequest, returnRequest, value.id_veiled]
    exact congrArg Request.register (Rule.map_veiled fun type _ => rfl)

/-! ### Types of expressions -/

theorem emptyArrayRequest_veiled (tag : Tag) (expected : Option Expected) :
    (emptyArrayRequest tag expected).veiled V = emptyArrayRequest (tag.veiled V) expected := by
  cases expected with
  | none => rfl
  | some expected =>
    refine congrArg Request.register (Rule.map_veiled fun type _ => ?_)
    cases peelArrays expected.depth type with
    | none => rfl
    | some type => cases type <;> rfl

theorem arrayRule_veiled (tag : Tag) (elements : List Expr) :
    (arrayRule tag elements).veiled V = arrayRule (tag.veiled V) (elements.map (Expr.veiled V)) := by
  rw [show arrayRule (tag.veiled V) (elements.map (Expr.veiled V)) = arrayRule tag elements by
    simp [arrayRule, Function.comp_def]]
  exact Rule.flatMap_veiled fun types _ => rfl

theorem unaryRule_veiled (tag : Tag) (op : UnaryOp) (operand : Expr) :
    (unaryRule tag op operand).veiled V = unaryRule (tag.veiled V) op (operand.veiled V) := by
  rw [unaryRule, unaryRule, operand.id_veiled]
  exact Rule.map_veiled fun type _ => problemAt_veiled tag.span _

/-- A rule that writes a result, which is an error at a place or no error. -/
theorem write_veiled {result result' : Except SemanticError Value} (attr : Attribute)
    (same : result.mapError (SemanticError.veiled V) = result') :
    (Except.ok [Effect.write attr (.ofResult result)] : Except ReactorError _).map
        (List.map (Effect.veiled V)) = .ok [.write attr (.ofResult result')] := by
  rw [← same, Output.ofResult_veiled]
  rfl

theorem binaryRule_veiled (tag : Tag) (op : BinaryOp) (left right : Expr) :
    (binaryRule tag op left right).veiled V =
      binaryRule (tag.veiled V) op (left.veiled V) (right.veiled V) := by
  rw [binaryRule, binaryRule, left.id_veiled, right.id_veiled]
  exact Rule.computing_veiled fun view => Rule.bind_veiled fun a => Rule.bind_veiled fun b =>
    write_veiled _ (problemAt_veiled tag.span _)

theorem callRule_veiled (tag : Tag) (callee : Expr) :
    (callRule tag callee).veiled V = callRule (tag.veiled V) (callee.veiled V) := by
  rw [callRule, callRule, callee.id_veiled]
  refine Rule.map_veiled fun type _ => ?_
  cases type <;> rfl

theorem methodMeaning_veiled (span : Span) (method : String) (type : Ty) (t : SymbolTable) :
    (methodMeaning span method type t.bare).mapError (SemanticError.veiled V) =
      methodMeaning (V.place span) method type t := by
  cases type with
  | object own supers =>
    simp only [methodMeaning, SymbolTable.bare, SymbolTable.resolveMethod?_veiled]
    cases t.resolveMethod? own.symbol method <;> rfl
  | _ => rfl

theorem methodResult_veiled (span : Span) (method : String) (type : Ty) :
    (methodResult span method type).mapError (SemanticError.veiled V) =
      methodResult (V.place span) method type := by
  cases type with
  | object own supers =>
    simp only [methodResult]
    cases ClassRow.lookup? (·.methods) method (own :: supers) with
    | none => rfl
    | some found => cases found <;> rfl
  | _ => rfl

theorem methodRules_veiled (tag : Tag) (receiver : Expr) (method : String) :
    (methodRules tag receiver method).map (Rule.veiled V) =
      methodRules (tag.veiled V) (receiver.veiled V) method := by
  rw [methodRules, methodRules, receiver.id_veiled]
  refine congrArg₂ List.cons (Rule.map_veiled (methodMeaning_veiled tag.span method))
    (congrArg (fun rule => [rule]) ?_)
  exact Rule.computing_veiled fun view => Rule.bind_veiled fun type =>
    write_veiled _ (methodResult_veiled tag.span method type)

theorem selectRule_veiled (tag : Tag) (object : Expr) (field : String) :
    (selectRule tag object field).veiled V = selectRule (tag.veiled V) (object.veiled V) field := by
  rw [selectRule, selectRule, object.id_veiled]
  refine Rule.map_veiled fun type _ => ?_
  have named (owner : String) (found : Option Ty) :
      (fieldNamed tag.span field owner found).mapError (SemanticError.veiled V) =
        fieldNamed (V.place tag.span) field owner found := by
    cases found <;> rfl
  cases type with
  | struct _ _ _ => exact named _ _
  | object _ _ => exact named _ _
  | _ => rfl

theorem indexRule_veiled (tag : Tag) (object : Expr) :
    (indexRule tag object).veiled V = indexRule (tag.veiled V) (object.veiled V) := by
  rw [indexRule, indexRule, object.id_veiled]
  refine Rule.map_veiled fun type _ => ?_
  cases type <;> rfl

/-! ### Parts -/

theorem exprRequests_veiled (expected : Option Expected) (e : Expr) :
    (exprRequests r expected e).map (Request.veiled V) =
      exprRequests (r.veiled V) expected (e.veiled V) := by
  cases e with
  | literal tag value => rfl
  | array tag elements =>
    rw [Expr.veiled, veiledExprs_eq_map]
    cases elements with
    | nil => exact congrArg (fun q => [q]) (emptyArrayRequest_veiled tag expected)
    | cons e es => exact registers_veiled (arrayRule_veiled tag (e :: es))
  | reference tag name => exact withSymbol_veiled fun s => registers_veiled (Rule.copy_veiled _ _ _)
  | selfRef tag => exact withSymbol_veiled fun s => registers_veiled (Rule.copy_veiled _ _ _)
  | unary tag op operand => exact registers_veiled (unaryRule_veiled tag op operand)
  | binary tag op left right => exact registers_veiled (binaryRule_veiled tag op left right)
  | assign tag target value =>
    rw [Expr.veiled, exprRequests, exprRequests, value.id_veiled]
    exact registers_veiled (Rule.copy_veiled _ _ _)
  | call tag callee args => exact registers_veiled (callRule_veiled tag callee)
  | methodCall tag receiver method args =>
    simp only [Expr.veiled, exprRequests, ← methodRules_veiled, map_map]
    rfl
  | select tag object field => exact registers_veiled (selectRule_veiled tag object field)
  | index tag object position => exact registers_veiled (indexRule_veiled tag object)

theorem typeRequests_veiled (written : TypeExpr) :
    (typeRequests r t written).map (Request.veiled V) =
      typeRequests (r.veiled V) (t.veiled V) (written.veiled V) := by
  cases written with
  | named tag name =>
    refine withSymbol_veiled fun s => ?_
    rw [SymbolTable.hasKind_veiled]
    split
    · exact registers_veiled (Rule.copy_veiled _ _ _)
    · rfl
  | array tag element =>
    rw [TypeExpr.veiled, typeRequests, typeRequests, element.id_veiled]
    exact registers_veiled (Rule.map_veiled fun type _ => rfl)

/-- What the pass over types asks for about a part. -/
theorem partRequests_veiled (part : Part) : (partRequests r t part).map (Request.veiled V) =
    partRequests (r.veiled V) (t.veiled V) (part.veiled V) := by
  cases part with
  | function decl =>
    rw [Part.veiled, partRequests, partRequests, decl.tag_veiled, decl.params_veiled, map_map]
    exact withSymbol_veiled fun s => withSymbols_veiled fun params =>
      registers_veiled (functionRule_veiled decl s params)
  | structDecl decl =>
    rw [Part.veiled, partRequests, partRequests, StructDecl.fields_veiled, map_map]
    exact withSymbol_veiled fun s => withSymbols_veiled fun fields =>
      registers_veiled (structRule_veiled decl s fields)
  | classDecl decl =>
    rw [Part.veiled, partRequests, partRequests, decl.tag_veiled, decl.fields_veiled,
      decl.methods_veiled, map_map, map_map]
    simp only [Function.comp_def, FunctionDecl.tag_veiled]
    exact withSymbol_veiled fun s => withSymbols_veiled fun fields => withSymbols_veiled fun methods =>
      registers_veiled (classRule_veiled decl s _ fields methods)
  | param decl =>
    rw [Part.veiled, partRequests, partRequests, TypedName.veiled, decl.type.id_veiled]
    exact withSymbol_veiled fun s => registers_veiled (Rule.copy_veiled _ _ _)
  | field decl =>
    rw [Part.veiled, partRequests, partRequests, TypedName.veiled, decl.type.id_veiled]
    exact withSymbol_veiled fun s => registers_veiled (Rule.copy_veiled _ _ _)
  | varDecl decl =>
    simp only [Part.veiled, VarDecl.veiled, partRequests]
    cases decl.type with
    | some written => rfl
    | none =>
      simp only [Option.map_none, decl.initializer.id_veiled]
      exact withSymbol_veiled fun s => registers_veiled (Rule.copy_veiled _ _ _)
  | typed decl written =>
    rw [Part.veiled, partRequests, partRequests, written.id_veiled]
    exact withSymbol_veiled fun s => registers_veiled (Rule.copy_veiled _ _ _)
  | block block => exact registers_veiled (blockRule_veiled block)
  | ifElse tag condition thenBranch elseBranch =>
    exact registers_veiled (ifRule_veiled tag thenBranch elseBranch)
  | returnStmt tag value => exact congrArg (fun q => [q]) (returnRequest_veiled tag value)
  | expr e expected => exact exprRequests_veiled expected e
  | type written => exact typeRequests_veiled written
  | _ => rfl

end Types

/-! ### Checks -/

namespace Checks

theorem check_veiled {name : String} {deps : List Attribute} {f f' : List Ty → List SemanticError}
    (same : ∀ types, (f types).map (SemanticError.veiled V) = f' types) :
    (check name deps f).veiled V = check name deps f' := by
  refine Rule.computing_veiled fun view => ?_
  rw [View.getAll_bare]
  refine Rule.bind_veiled fun types => congrArg Except.ok ?_
  rw [← same, map_map, map_map]
  rfl

theorem problemsAt_veiled (span : Span) (result : Except TypeProblem Unit) :
    (problemsAt span result).map (SemanticError.veiled V) = problemsAt (V.place span) result := by
  cases result <;> rfl

theorem oneOf_veiled (name : String) (e : Expr) (accepted : List Ty) :
    (oneOf name e accepted).veiled V = oneOf name (e.veiled V) accepted := by
  rw [oneOf, oneOf, e.id_veiled, e.span_veiled]
  exact check_veiled fun types => by simp only [map_flatMap, problemsAt_veiled]

theorem assignable_veiled (name : String) (value : Expr) (target : Attribute) :
    (assignable name value target).veiled V = assignable name (value.veiled V) target := by
  rw [assignable, assignable, value.id_veiled, value.span_veiled]
  refine check_veiled fun types => ?_
  rcases types with _ | ⟨actual, _ | ⟨expected, _ | ⟨_, _⟩⟩⟩
  · rfl
  · rfl
  · exact problemsAt_veiled value.span _
  · rfl

theorem comparable_veiled (tag : Tag) (op : BinaryOp) (left right : Expr) :
    (comparable tag op left right).veiled V =
      comparable (tag.veiled V) op (left.veiled V) (right.veiled V) := by
  rw [comparable, comparable, left.id_veiled, right.id_veiled]
  refine check_veiled fun types => ?_
  rcases types with _ | ⟨a, _ | ⟨b, _ | ⟨_, _⟩⟩⟩
  · rfl
  · rfl
  · exact problemsAt_veiled tag.span _
  · rfl

theorem binaryRules_veiled (tag : Tag) (op : BinaryOp) (left right : Expr) :
    (binaryRules tag op left right).map (Rule.veiled V) =
      binaryRules (tag.veiled V) op (left.veiled V) (right.veiled V) := by
  rw [binaryRules, binaryRules, map_append]
  congr 1
  · split
    · rfl
    · simp only [map_cons, map_nil, oneOf_veiled]
  · split
    · simp only [map_cons, map_nil, comparable_veiled]
    · rfl

theorem argumentError_veiled (span : Span) (spans : List Span) (problem : ArgumentProblem) :
    (argumentError span spans problem).veiled V =
      argumentError (V.place span) (spans.map V.place) problem := by
  cases problem with
  | arity expected got => rfl
  | incompatible position expected got =>
    simp only [argumentError, SemanticError.veiled_mk, List.getElem?_map, Option.getD_map]

theorem call_veiled (name : String) (span : Span) (source : Expr) (args : List Expr)
    (parameters : Ty → Option (List Member)) :
    (call name span (typeOf source.id) args parameters).veiled V =
      call name (V.place span) (typeOf (source.veiled V).id) (args.map (Expr.veiled V))
        parameters := by
  have spans : (args.map (Expr.veiled V)).map (·.span) = (args.map (·.span)).map V.place := by
    simp [Function.comp_def]
  have nodes : (args.map (Expr.veiled V)).map (typeOf ·.id) = args.map (typeOf ·.id) := by
    simp [Function.comp_def]
  rw [call, call, spans, nodes, source.id_veiled]
  refine check_veiled fun types => ?_
  cases types with
  | nil => rfl
  | cons type types =>
    dsimp only
    cases parameters type with
    | none => rfl
    | some params => exact (map_map ..).trans (map_congr_left fun problem _ => argumentError_veiled ..)

theorem assignmentRequests_veiled (valid : Bool) (target value : Expr) :
    (assignmentRequests valid target value).map (Request.veiled V) =
      assignmentRequests valid (target.veiled V) (value.veiled V) := by
  rw [assignmentRequests, assignmentRequests, target.id_veiled, target.span_veiled]
  cases valid with
  | true => exact registers_veiled (assignable_veiled _ value (typeOf target.id))
  | false => rfl

theorem assignRequests_veiled (target value : Expr) :
    (assignRequests r t target value).map (Request.veiled V) =
      assignRequests (r.veiled V) (t.veiled V) (target.veiled V) (value.veiled V) := by
  cases target with
  | reference tag name =>
    refine withSymbol_veiled fun s => ?_
    rw [isTarget, isTarget, SymbolTable.hasKind_veiled]
    exact assignmentRequests_veiled _ (.reference tag name) value
  | _ => exact assignmentRequests_veiled _ _ value

theorem returnErrors_veiled (span : Span) (value : Option Expr) (types : List Ty) :
    (returnErrors span value types).map (SemanticError.veiled V) =
      returnErrors (V.place span) (value.map (Expr.veiled V)) types := by
  rcases types with _ | ⟨type, types⟩
  · rfl
  · cases type with
    | function params expected =>
      rcases types with _ | ⟨actual, types⟩
      · simp only [returnErrors]
        split <;> rfl
      · cases value with
        | none => rfl
        | some value =>
          simp only [Option.map_some, returnErrors, value.span_veiled]
          split <;> rfl
    | _ => rfl

theorem returnRequests_veiled (tag : Tag) (value : Option Expr) :
    (returnRequests r tag value).map (Request.veiled V) =
      returnRequests (r.veiled V) (tag.veiled V) (value.map (Expr.veiled V)) := by
  have nodes : (value.map (Expr.veiled V)).toList.map (typeOf ·.id) = value.toList.map (typeOf ·.id) := by
    cases value <;> simp
  rw [returnRequests, returnRequests, nodes]
  exact withSymbol_veiled fun s => registers_veiled (check_veiled (returnErrors_veiled tag.span value))

theorem exprRequests_veiled (e : Expr) : (exprRequests r t e).map (Request.veiled V) =
    exprRequests (r.veiled V) (t.veiled V) (e.veiled V) := by
  cases e with
  | index tag object position => exact registers_veiled (oneOf_veiled _ position _)
  | binary tag op left right =>
    simp only [Expr.veiled, exprRequests, ← binaryRules_veiled, map_map]
    rfl
  | unary tag op operand => exact registers_veiled (oneOf_veiled _ operand _)
  | assign tag target value => exact assignRequests_veiled target value
  | call tag callee args =>
    rw [Expr.veiled, veiledExprs_eq_map]
    exact registers_veiled (call_veiled _ _ callee args _)
  | methodCall tag receiver method args =>
    rw [Expr.veiled, veiledExprs_eq_map]
    exact registers_veiled (call_veiled _ _ receiver args _)
  | _ => rfl

/-- What the checks ask for about a part. -/
theorem partRequests_veiled (part : Part) : (partRequests r t part).map (Request.veiled V) =
    partRequests (r.veiled V) (t.veiled V) (part.veiled V) := by
  cases part with
  | varDecl decl => exact withSymbol_veiled fun s => registers_veiled (assignable_veiled _ _ _)
  | ifElse tag condition thenBranch elseBranch => exact registers_veiled (oneOf_veiled _ condition _)
  | whileLoop tag condition => exact registers_veiled (oneOf_veiled _ condition _)
  | returnStmt tag value => exact returnRequests_veiled tag value
  | expr e expected => exact exprRequests_veiled e
  | _ => rfl

end Checks

/-! ### Missing returns -/

namespace Returns

theorem ifRequest_veiled (tag : Tag) (thenBranch : Stmt) (elseBranch : Option Stmt) :
    (ifRequest tag thenBranch elseBranch).veiled V =
      ifRequest (tag.veiled V) (thenBranch.veiled V) (elseBranch.map (Stmt.veiled V)) := by
  cases elseBranch with
  | none => rfl
  | some elseBranch =>
    simp only [ifRequest, Option.map_some, Stmt.contributes_veiled, ifRule, Stmt.id_veiled]
    split
    · exact congrArg Request.register (Rule.flatMap_veiled fun flags _ => rfl)
    · rfl

theorem blockRule_veiled (block : Block) : (blockRule block).veiled V = blockRule (block.veiled V) := by
  rw [show blockRule (block.veiled V) = blockRule block by simp [blockRule]]
  exact Rule.flatMap_veiled fun flags _ => rfl

theorem functionRule_veiled (decl : FunctionDecl) (s : SymbolId) :
    (functionRule decl s).veiled V = functionRule (decl.veiled V) s := by
  rw [functionRule, functionRule, decl.body_veiled, Block.tag_veiled, decl.tag_veiled]
  refine Rule.computing_veiled fun view => Rule.bind_veiled fun type => ?_
  split
  · refine Rule.bind_veiled fun flag => ?_
    cases flag <;> rfl
  · rfl

/-- What the pass over returns asks for about a part. -/
theorem partRequests_veiled (part : Part) : (partRequests r part).map (Request.veiled V) =
    partRequests (r.veiled V) (part.veiled V) := by
  cases part with
  | function decl =>
    rw [Part.veiled, partRequests, partRequests, decl.tag_veiled]
    exact withSymbol_veiled fun s => registers_veiled (functionRule_veiled decl s)
  | block block => exact registers_veiled (blockRule_veiled block)
  | ifElse tag condition thenBranch elseBranch =>
    exact congrArg (fun q => [q]) (ifRequest_veiled tag thenBranch elseBranch)
  | _ => rfl

end Returns

end BlFront
