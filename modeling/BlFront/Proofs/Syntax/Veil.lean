import BlFront.Diagnostic
import BlFront.Proofs.Syntax.Tours

/-!
# Trees under a veil

A veil shows what stands somewhere at another place, and changes nothing else: unlike a plain tree, a
veiled one keeps the identities of its nodes.  The tour of a veiled unit is the tour of the unit,
veiled.  Under a dense veil tokens, trees and reports are bare: they stand nowhere in particular.
-/

namespace BlFront

open List

/-- Where things are seen. -/
structure Veil where
  place : Span → Span
  place_dummy : place .dummy = .dummy

namespace Veil

/-- All is seen where it is. -/
def clear : Veil := ⟨id, rfl⟩

/-- Nothing has a place. -/
def dense : Veil := ⟨fun _ => .dummy, rfl⟩

@[simp] theorem place_clear (span : Span) : clear.place span = span := rfl

@[simp] theorem place_dense (span : Span) : dense.place span = .dummy := rfl

end Veil

/-! ### Tokens and reports -/

@[simp] theorem Span.merge_dummy : Span.dummy.merge .dummy = .dummy := rfl

def Token.bare (t : Token) : Token := { t with span := .dummy }

@[simp] theorem Token.bare_kind (t : Token) : t.bare.kind = t.kind := rfl

@[simp] theorem Token.bare_lexeme (t : Token) : t.bare.lexeme = t.lexeme := rfl

def Related.bare (r : Related) : Related := { r with span := .dummy }

def Diagnostic.bare (d : Diagnostic) : Diagnostic :=
  { d with span := d.span.map fun _ => .dummy, related := d.related.map Related.bare }

/-! ### Trees -/

variable (V : Veil)

def Tag.veiled (tag : Tag) : Tag := { tag with span := V.place tag.span }

def Ident.veiled (i : Ident) : Ident := { i with span := V.place i.span }

def TypeExpr.veiled : TypeExpr → TypeExpr
  | .named tag name => .named (tag.veiled V) name
  | .array tag element => .array (tag.veiled V) element.veiled

def TypedName.veiled (n : TypedName) : TypedName := ⟨n.tag.veiled V, n.name, n.type.veiled V⟩

mutual

/-- The expression with each of its nodes where it is seen. -/
def Expr.veiled : Expr → Expr
  | .literal tag value => .literal (tag.veiled V) value
  | .array tag elements => .array (tag.veiled V) (veiledExprs elements)
  | .reference tag name => .reference (tag.veiled V) name
  | .selfRef tag => .selfRef (tag.veiled V)
  | .unary tag op operand => .unary (tag.veiled V) op operand.veiled
  | .binary tag op left right => .binary (tag.veiled V) op left.veiled right.veiled
  | .assign tag target value => .assign (tag.veiled V) target.veiled value.veiled
  | .call tag callee args => .call (tag.veiled V) callee.veiled (veiledExprs args)
  | .methodCall tag receiver method args =>
    .methodCall (tag.veiled V) receiver.veiled method (veiledExprs args)
  | .select tag object field => .select (tag.veiled V) object.veiled field
  | .index tag object position => .index (tag.veiled V) object.veiled position.veiled

def veiledExprs : List Expr → List Expr
  | [] => []
  | e :: es => e.veiled :: veiledExprs es

end

def StructDecl.veiled (d : StructDecl) : StructDecl :=
  ⟨d.tag.veiled V, d.name, d.fields.map (TypedName.veiled V)⟩

def VarDecl.veiled (d : VarDecl) : VarDecl :=
  ⟨d.tag.veiled V, d.name, d.type.map (TypeExpr.veiled V), d.initializer.veiled V⟩

mutual

def FunctionDecl.veiled : FunctionDecl → FunctionDecl
  | ⟨tag, name, params, returnType, body⟩ =>
    ⟨tag.veiled V, name, params.map (TypedName.veiled V), returnType.map (TypeExpr.veiled V),
      body.veiled⟩

def Block.veiled : Block → Block
  | ⟨tag, statements⟩ => ⟨tag.veiled V, veiledStmts statements⟩

def ClassDecl.veiled : ClassDecl → ClassDecl
  | ⟨tag, name, superclass, fields, methods⟩ =>
    ⟨tag.veiled V, name, superclass.map (Ident.veiled V), fields.map (TypedName.veiled V),
      veiledMethods methods⟩

/-- The statement with each of its nodes where it is seen. -/
def Stmt.veiled : Stmt → Stmt
  | .funDecl decl => .funDecl decl.veiled
  | .structDecl decl => .structDecl (decl.veiled V)
  | .classDecl decl => .classDecl decl.veiled
  | .varDecl decl => .varDecl (decl.veiled V)
  | .block block => .block block.veiled
  | .ifElse tag condition thenBranch none =>
    .ifElse (tag.veiled V) (condition.veiled V) thenBranch.veiled none
  | .ifElse tag condition thenBranch (some elseBranch) =>
    .ifElse (tag.veiled V) (condition.veiled V) thenBranch.veiled (some elseBranch.veiled)
  | .whileLoop tag condition body => .whileLoop (tag.veiled V) (condition.veiled V) body.veiled
  | .returnStmt tag value => .returnStmt (tag.veiled V) (value.map (Expr.veiled V))
  | .exprStmt tag expr => .exprStmt (tag.veiled V) (expr.veiled V)

def veiledStmts : List Stmt → List Stmt
  | [] => []
  | s :: ss => s.veiled :: veiledStmts ss

def veiledMethods : List FunctionDecl → List FunctionDecl
  | [] => []
  | f :: fs => f.veiled :: veiledMethods fs

end

def CompilationUnit.veiled (u : CompilationUnit) : CompilationUnit :=
  ⟨u.tag.veiled V, veiledStmts V u.statements⟩

/-! The trees without the places of their nodes. -/

abbrev Expr.bare : Expr → Expr := Expr.veiled .dense

abbrev Stmt.bare : Stmt → Stmt := Stmt.veiled .dense

def CompilationUnit.bare (u : CompilationUnit) : CompilationUnit := u.veiled .dense

@[simp] theorem veiledExprs_eq_map (es : List Expr) : veiledExprs V es = es.map (Expr.veiled V) := by
  induction es with
  | nil => rfl
  | cons e es ih => rw [veiledExprs, ih, map_cons]

@[simp] theorem veiledStmts_eq_map (ss : List Stmt) : veiledStmts V ss = ss.map (Stmt.veiled V) := by
  induction ss with
  | nil => rfl
  | cons s ss ih => rw [veiledStmts, ih, map_cons]

@[simp] theorem veiledMethods_eq_map (fs : List FunctionDecl) :
    veiledMethods V fs = fs.map (FunctionDecl.veiled V) := by
  induction fs with
  | nil => rfl
  | cons f fs ih => rw [veiledMethods, ih, map_cons]

/-! ### What is seen of a tree -/

@[simp] theorem Tag.id_veiled (tag : Tag) : (tag.veiled V).id = tag.id := rfl

@[simp] theorem Tag.span_veiled (tag : Tag) : (tag.veiled V).span = V.place tag.span := rfl

@[simp] theorem TypeExpr.id_veiled (t : TypeExpr) : (t.veiled V).id = t.id := by cases t <;> rfl

@[simp] theorem TypeExpr.span_veiled (t : TypeExpr) : (t.veiled V).span = V.place t.span := by
  cases t <;> rfl

@[simp] theorem Expr.id_veiled (e : Expr) : (e.veiled V).id = e.id := by cases e <;> rfl

@[simp] theorem Expr.span_veiled (e : Expr) : (e.veiled V).span = V.place e.span := by
  cases e <;> rfl

@[simp] theorem Expr.withSpan_veiled (e : Expr) (span : Span) :
    (e.withSpan span).veiled V = (e.veiled V).withSpan (V.place span) := by
  cases e <;> rfl

@[simp] theorem FunctionDecl.tag_veiled (d : FunctionDecl) : (d.veiled V).tag = d.tag.veiled V := by
  cases d; rfl

@[simp] theorem Block.tag_veiled (b : Block) : (b.veiled V).tag = b.tag.veiled V := by cases b; rfl

@[simp] theorem ClassDecl.tag_veiled (d : ClassDecl) : (d.veiled V).tag = d.tag.veiled V := by
  cases d; rfl

@[simp] theorem Stmt.tag_veiled (s : Stmt) : (s.veiled V).tag = s.tag.veiled V := by
  cases s with
  | ifElse _ _ _ elseBranch => cases elseBranch <;> rfl
  | funDecl decl => exact decl.tag_veiled V
  | classDecl decl => exact decl.tag_veiled V
  | block block => exact block.tag_veiled V
  | _ => rfl

@[simp] theorem StructDecl.fields_veiled (d : StructDecl) :
    (d.veiled V).fields = d.fields.map (TypedName.veiled V) := rfl

@[simp] theorem FunctionDecl.name_veiled (d : FunctionDecl) : (d.veiled V).name = d.name := by
  cases d; rfl

@[simp] theorem FunctionDecl.params_veiled (d : FunctionDecl) :
    (d.veiled V).params = d.params.map (TypedName.veiled V) := by
  cases d; rfl

@[simp] theorem FunctionDecl.returnType_veiled (d : FunctionDecl) :
    (d.veiled V).returnType = d.returnType.map (TypeExpr.veiled V) := by
  cases d; rfl

@[simp] theorem FunctionDecl.body_veiled (d : FunctionDecl) : (d.veiled V).body = d.body.veiled V := by
  cases d; rfl

@[simp] theorem ClassDecl.name_veiled (d : ClassDecl) : (d.veiled V).name = d.name := by cases d; rfl

@[simp] theorem ClassDecl.superclass_veiled (d : ClassDecl) :
    (d.veiled V).superclass = d.superclass.map (Ident.veiled V) := by
  cases d; rfl

@[simp] theorem ClassDecl.fields_veiled (d : ClassDecl) :
    (d.veiled V).fields = d.fields.map (TypedName.veiled V) := by
  cases d; rfl

@[simp] theorem ClassDecl.methods_veiled (d : ClassDecl) :
    (d.veiled V).methods = d.methods.map (FunctionDecl.veiled V) := by
  cases d
  simp only [ClassDecl.veiled, veiledMethods_eq_map]

@[simp] theorem Block.statements_veiled (b : Block) :
    (b.veiled V).statements = b.statements.map (Stmt.veiled V) := by
  cases b
  simp only [Block.veiled, veiledStmts_eq_map]

@[simp] theorem Stmt.id_veiled (s : Stmt) : (s.veiled V).id = s.id := by
  rw [Stmt.id, Stmt.id, tag_veiled, Tag.id_veiled]

/-! ### Tours -/

def Part.veiled : Part → Part
  | .function decl => .function (decl.veiled V)
  | .param decl => .param (decl.veiled V)
  | .structDecl decl => .structDecl (decl.veiled V)
  | .classDecl decl => .classDecl (decl.veiled V)
  | .field decl => .field (decl.veiled V)
  | .varDecl decl => .varDecl (decl.veiled V)
  | .typed decl written => .typed (decl.veiled V) (written.veiled V)
  | .block body => .block (body.veiled V)
  | .ifElse tag condition thenBranch elseBranch =>
    .ifElse (tag.veiled V) (condition.veiled V) (thenBranch.veiled V) (elseBranch.map (Stmt.veiled V))
  | .whileLoop tag condition => .whileLoop (tag.veiled V) (condition.veiled V)
  | .returnStmt tag value => .returnStmt (tag.veiled V) (value.map (Expr.veiled V))
  | .exprStmt tag => .exprStmt (tag.veiled V)
  | .expr e expected => .expr (e.veiled V) expected
  | .type t => .type (t.veiled V)

def Visit.veiled : Visit → Visit
  | .enter part => .enter (part.veiled V)
  | .leave part => .leave (part.veiled V)

theorem Part.around_veiled (part : Part) (inside : List Visit) :
    (part.around inside).map (Visit.veiled V) =
      (part.veiled V).around (inside.map (Visit.veiled V)) := by
  simp [Part.around, Visit.veiled]

theorem Stmt.part_veiled (s : Stmt) : (s.veiled V).part = s.part.veiled V := by
  cases s with
  | ifElse _ _ _ second => cases second <;> rfl
  | _ => rfl

theorem Expr.operands_veiled (e : Expr) (expected : Option Expected) :
    (e.veiled V).operands expected =
      (e.operands expected).map fun operand => (operand.1.veiled V, operand.2) := by
  cases e <;> simp [Expr.veiled, Expr.operands]

namespace Branch

/-- The branch with each of its nodes where it is seen. -/
def veiled : Branch → Branch
  | .type written => .type (written.veiled V)
  | .param decl => .param (decl.veiled V)
  | .field decl => .field (decl.veiled V)
  | .typed decl written => .typed (decl.veiled V) (written.veiled V)
  | .expr e expected => .expr (e.veiled V) expected
  | .stmt s => .stmt (s.veiled V)

theorem part_veiled (b : Branch) : (b.veiled V).part = b.part.veiled V := by
  cases b with
  | stmt s => exact s.part_veiled V
  | _ => rfl

theorem inside_stmt_veiled (s : Stmt) : (s.veiled V).inside = s.inside.map (veiled V) := by
  cases s with
  | varDecl decl =>
    cases told : decl.type <;>
      simp [Stmt.veiled, VarDecl.veiled, Stmt.inside, told, veiled]
  | ifElse _ _ _ second => cases second <;> simp [Stmt.veiled, Stmt.inside, veiled]
  | _ => simp [Stmt.veiled, Stmt.inside, veiled, Option.toList_map, Function.comp_def]

theorem inside_veiled (b : Branch) : (b.veiled V).inside = b.inside.map (veiled V) := by
  cases b with
  | type written => cases written <;> rfl
  | expr e expected => simp [veiled, inside, e.operands_veiled, Function.comp_def]
  | stmt s => exact inside_stmt_veiled V s
  | _ => rfl

theorem tour_veiled (b : Branch) : (b.veiled V).tour = b.tour.map (Visit.veiled V) := by
  induction b using Branch.induction with
  | step b ih =>
    rw [tour_eq, b.tour_eq, Part.around_veiled, part_veiled, inside_veiled, flatMap_map,
      map_flatMap]
    exact congrArg _ (flatMap_congr ih)

end Branch

namespace CompilationUnit

variable (unit : CompilationUnit)

theorem tour_veiled : (unit.veiled V).tour = unit.tour.map (Visit.veiled V) := by
  rw [tour_eq, tour_eq, veiled, veiledStmts_eq_map, flatMap_map, map_flatMap]
  exact flatMap_congr fun s _ => Branch.tour_veiled V (.stmt s)

theorem entered_veiled : (unit.veiled V).entered = unit.entered.map (Part.veiled V) := by
  rw [entered, entered, tour_veiled, filterMap_map, map_filterMap]
  refine congrArg (List.filterMap · _) (funext fun visit => ?_)
  cases visit <;> rfl

theorem left_veiled : (unit.veiled V).left = unit.left.map (Part.veiled V) := by
  rw [left, left, tour_veiled, filterMap_map, map_filterMap]
  refine congrArg (List.filterMap · _) (funext fun visit => ?_)
  cases visit <;> rfl

end CompilationUnit

end BlFront
