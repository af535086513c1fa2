import BlFront.Syntax.Tour
import Mathlib.Data.List.Perm.Basic

/-!
# Tours as trees

A tour is properly nested: what is inside a part lies between entering and leaving it.  Hence the
parts that are entered are those that are left, a part comes with the parts right inside it, and
at every moment the parts that are open are those around the next one.
-/

namespace BlFront

open List

variable {unit : CompilationUnit} {visits : List Visit}

/-! ### Parts -/

/-- The node that a part is.  The annotation of a variable is no node besides its type. -/
def Part.id? : Part → Option NodeId
  | .function decl => some decl.tag.id
  | .param decl => some decl.tag.id
  | .structDecl decl => some decl.tag.id
  | .classDecl decl => some decl.tag.id
  | .field decl => some decl.tag.id
  | .varDecl decl => some decl.tag.id
  | .typed _ _ => none
  | .block body => some body.tag.id
  | .ifElse tag _ _ _ => some tag.id
  | .whileLoop tag _ => some tag.id
  | .returnStmt tag _ => some tag.id
  | .exprStmt tag => some tag.id
  | .expr e _ => some e.id
  | .type t => some t.id

def Stmt.part : Stmt → Part
  | .funDecl decl => .function decl
  | .structDecl decl => .structDecl decl
  | .classDecl decl => .classDecl decl
  | .varDecl decl => .varDecl decl
  | .block body => .block body
  | .ifElse tag condition thenBranch elseBranch => .ifElse tag condition thenBranch elseBranch
  | .whileLoop tag condition _ => .whileLoop tag condition
  | .returnStmt tag value => .returnStmt tag value
  | .exprStmt tag _ => .exprStmt tag

/-- The expressions right inside an expression, each with what is expected of it. -/
def Expr.operands : Expr → Option Expected → List (Expr × Option Expected)
  | .literal _ _, _ | .reference _ _, _ | .selfRef _, _ => []
  | .array _ elements, expected => elements.map (·, expected.map Expected.deeper)
  | .unary _ _ operand, _ => [(operand, none)]
  | .binary _ _ left right, _ => [(left, none), (right, none)]
  | .assign _ target value, _ => [(target, none), (value, none)]
  | .call _ callee args, _ => (callee, none) :: args.map (·, none)
  | .methodCall _ receiver _ args, _ => (receiver, none) :: args.map (·, none)
  | .select _ object _, _ => [(object, none)]
  | .index _ object position, _ => [(object, none), (position, none)]

/-- Parameters and variables. -/
def Part.isVariable : Part → Bool
  | .param _ | .varDecl _ => true
  | _ => false

/-- Where a part stands in the source. -/
def Part.span : Part → Span
  | .function decl => decl.tag.span
  | .param decl => decl.tag.span
  | .structDecl decl => decl.tag.span
  | .classDecl decl => decl.tag.span
  | .field decl => decl.tag.span
  | .varDecl decl => decl.tag.span
  | .typed _ written => written.span
  | .block body => body.tag.span
  | .ifElse tag _ _ _ => tag.span
  | .whileLoop tag _ => tag.span
  | .returnStmt tag _ => tag.span
  | .exprStmt tag => tag.span
  | .expr e _ => e.span
  | .type written => written.span

theorem Stmt.span_part (s : Stmt) : s.part.span = s.span := by
  cases s <;> rfl

/-- The parts right inside a part, as far as the part tells. -/
def Part.children : Part → List Part
  | .function decl =>
    decl.params.map .param ++ (decl.returnType.toList.map .type ++ [.block decl.body])
  | .param decl => [.type decl.type]
  | .structDecl decl => decl.fields.map .field
  | .classDecl decl => decl.fields.map .field ++ decl.methods.map .function
  | .field decl => [.type decl.type]
  | .varDecl decl => match decl.type with
      | some written => [.typed decl written, .expr decl.initializer (some ⟨written.id, 0⟩)]
      | none => [.expr decl.initializer none]
  | .typed _ written => [.type written]
  | .block body => body.statements.map Stmt.part
  | .ifElse _ condition thenBranch elseBranch =>
    .expr condition none :: thenBranch.part :: elseBranch.toList.map Stmt.part
  | .whileLoop _ condition => [.expr condition none]
  | .returnStmt _ value => value.toList.map (.expr · none)
  | .exprStmt _ => []
  | .expr e expected => (e.operands expected).map fun (operand, x) => .expr operand x
  | .type (.array _ element) => [.type element]
  | .type (.named _ _) => []

def Visit.entered? : Visit → Option Part
  | .enter part => some part
  | .leave _ => none

def Visit.left? : Visit → Option Part
  | .enter _ => none
  | .leave part => some part

theorem CompilationUnit.entered_eq (unit : CompilationUnit) :
    unit.entered = unit.tour.filterMap Visit.entered? := by
  refine congrArg (unit.tour.filterMap ·) ?_
  funext v
  cases v <;> rfl

theorem CompilationUnit.left_eq (unit : CompilationUnit) :
    unit.left = unit.tour.filterMap Visit.left? := by
  refine congrArg (unit.tour.filterMap ·) ?_
  funext v
  cases v <;> rfl

/-! ### Trees -/

/-- Visits that are properly nested. -/
inductive Tree : List Visit → Prop
  | nil : Tree []
  | part {part : Part} {inside rest : List Visit} (within : Tree inside) (after : Tree rest) :
      Tree (part.around inside ++ rest)

namespace Tree

theorem append {a b : List Visit} (ha : Tree a) (hb : Tree b) : Tree (a ++ b) := by
  induction ha with
  | nil => exact hb
  | part within _ _ ih =>
    rw [append_assoc]
    exact .part within ih

theorem around {inside : List Visit} (within : Tree inside) (part : Part) :
    Tree (part.around inside) := by
  rw [← append_nil (part.around inside)]
  exact .part within .nil

theorem flatMap {α : Type} {tour : α → List Visit} {xs : List α} (h : ∀ x ∈ xs, Tree (tour x)) :
    Tree (xs.flatMap tour) := by
  induction xs with
  | nil => exact .nil
  | cons x xs ih =>
    rw [flatMap_cons]
    exact (h x (by simp)).append (ih fun y hy => h y (by simp [hy]))

end Tree

/-! ### Branches -/

/-- A part together with all that is inside it. -/
inductive Branch where
  | type (written : TypeExpr)
  | param (decl : TypedName)
  | field (decl : TypedName)
  | typed (decl : VarDecl) (written : TypeExpr)
  | expr (e : Expr) (expected : Option Expected)
  | stmt (s : Stmt)

/-- What is right inside a statement. -/
def Stmt.inside : Stmt → List Branch
  | .funDecl decl =>
    decl.params.map .param ++ (decl.returnType.toList.map .type ++ [.stmt (.block decl.body)])
  | .structDecl decl => decl.fields.map .field
  | .classDecl decl => decl.fields.map .field ++ decl.methods.map fun f => .stmt (.funDecl f)
  | .varDecl decl => match decl.type with
      | some written => [.typed decl written, .expr decl.initializer (some ⟨written.id, 0⟩)]
      | none => [.expr decl.initializer none]
  | .block body => body.statements.map .stmt
  | .ifElse _ condition first second => .expr condition none :: .stmt first :: second.toList.map .stmt
  | .whileLoop _ condition body => [.expr condition none, .stmt body]
  | .returnStmt _ value => value.toList.map (.expr · none)
  | .exprStmt _ e => [.expr e none]

namespace Branch

def part : Branch → Part
  | .type written => .type written
  | .param decl => .param decl
  | .field decl => .field decl
  | .typed decl written => .typed decl written
  | .expr e expected => .expr e expected
  | .stmt s => s.part

def tour : Branch → List Visit
  | .type written => written.tour
  | .param decl => paramTour decl
  | .field decl => fieldTour decl
  | .typed decl written => (Part.typed decl written).around written.tour
  | .expr e expected => e.tour expected
  | .stmt s => s.tour

/-- What is right inside a branch. -/
def inside : Branch → List Branch
  | .type (.named _ _) => []
  | .type (.array _ element) => [.type element]
  | .param decl => [.type decl.type]
  | .field decl => [.type decl.type]
  | .typed _ written => [.type written]
  | .expr e expected => (e.operands expected).map fun operand => .expr operand.1 operand.2
  | .stmt s => s.inside

end Branch

theorem exprsTour_eq (es : List Expr) (expected : Option Expected) :
    exprsTour es expected = es.flatMap (·.tour expected) := by
  induction es with
  | nil => rfl
  | cons e es ih => rw [exprsTour, ih, flatMap_cons]

theorem stmtsTour_eq (ss : List Stmt) : stmtsTour ss = ss.flatMap Stmt.tour := by
  induction ss with
  | nil => rfl
  | cons s ss ih => rw [stmtsTour, ih, flatMap_cons]

theorem functionsTour_eq (fs : List FunctionDecl) : functionsTour fs = fs.flatMap FunctionDecl.tour := by
  induction fs with
  | nil => rfl
  | cons f fs ih => rw [functionsTour, ih, flatMap_cons]

theorem Expr.tour_eq (e : Expr) (expected : Option Expected) : e.tour expected =
    (Part.expr e expected).around
      ((e.operands expected).flatMap fun operand => operand.1.tour operand.2) := by
  cases e <;> simp [Expr.tour, Expr.operands, exprsTour_eq, flatMap_map]

theorem Stmt.tour_eq (s : Stmt) : s.tour = s.part.around (s.inside.flatMap Branch.tour) := by
  cases s with
  | funDecl decl =>
    obtain ⟨tag, name, params, returnType, body⟩ := decl
    simp [Stmt.tour, FunctionDecl.tour, inside, part, flatMap_map, Branch.tour]
  | structDecl decl => simp [Stmt.tour, StructDecl.tour, inside, part, flatMap_map, Branch.tour]
  | classDecl decl =>
    obtain ⟨tag, name, superclass, fields, methods⟩ := decl
    simp [Stmt.tour, ClassDecl.tour, inside, part, flatMap_map, Branch.tour, functionsTour_eq]
  | varDecl decl =>
    cases told : decl.type <;> simp [Stmt.tour, VarDecl.tour, inside, part, told, Branch.tour]
  | block body =>
    obtain ⟨tag, statements⟩ := body
    simp [Stmt.tour, Block.tour, inside, part, flatMap_map, Branch.tour, stmtsTour_eq]
  | ifElse tag condition first second =>
    cases second <;> simp [Stmt.tour, inside, part, Branch.tour]
  | whileLoop tag condition body => simp [Stmt.tour, inside, part, Branch.tour]
  | returnStmt tag value => simp [Stmt.tour, inside, part, flatMap_map, Branch.tour]
  | exprStmt tag e => simp [Stmt.tour, inside, part, Branch.tour]

namespace Branch

theorem tour_eq (b : Branch) : b.tour = b.part.around (b.inside.flatMap tour) := by
  cases b with
  | type written => cases written <;> simp [tour, TypeExpr.tour, inside, part]
  | param decl => simp [tour, paramTour, inside, part]
  | field decl => simp [tour, fieldTour, inside, part]
  | typed decl written => simp [tour, inside, part]
  | expr e expected => simpa [tour, inside, part, flatMap_map] using e.tour_eq expected
  | stmt s => exact s.tour_eq

theorem enter_mem_tour (b : Branch) : .enter b.part ∈ b.tour := by
  rw [b.tour_eq]
  exact .head _

theorem length_tour_lt {b c : Branch} (mem : c ∈ b.inside) : c.tour.length < b.tour.length := by
  have := (sublist_flatten_of_mem (mem_map_of_mem (f := tour) mem)).length_le
  rw [← flatMap_def] at this
  rw [b.tour_eq]
  simp only [Part.around, length_cons, length_append]
  omega

/-- What holds of a branch whenever it holds of all that is right inside it holds of all. -/
theorem induction {motive : Branch → Prop}
    (step : ∀ b : Branch, (∀ c ∈ b.inside, motive c) → motive b) (b : Branch) : motive b :=
  step b fun c mem => have := length_tour_lt mem; induction step c
termination_by b.tour.length

/-- Only a variable has an annotation inside it. -/
theorem typed_mem_inside {b : Branch} {decl : VarDecl} {written : TypeExpr}
    (mem : .typed decl written ∈ b.inside) :
    b = .stmt (.varDecl decl) ∧ decl.type = some written := by
  cases b with
  | type written => cases written <;> simp [inside] at mem
  | stmt s =>
    cases s with
    | varDecl decl =>
      cases told : decl.type <;> simp_all [inside, Stmt.inside]
    | _ => simp [inside, Stmt.inside] at mem
  | _ => simp [inside] at mem

theorem children_subset (b : Branch) : b.part.children ⊆ b.inside.map part := by
  cases b with
  | type written => cases written <;> exact List.Subset.refl _
  | expr e expected =>
    rw [inside, map_map]
    exact List.Subset.refl _
  | stmt s =>
    cases s with
    | varDecl decl =>
      cases told : decl.type <;> simp [part, Stmt.part, Part.children, inside, Stmt.inside, told]
    | whileLoop tag condition body => simp [part, Stmt.part, Part.children, inside, Stmt.inside]
    | exprStmt tag e => exact nil_subset _
    | _ =>
      simp only [inside, Stmt.inside, map_append, map_map, map_cons]
      exact List.Subset.refl _
  | _ => exact List.Subset.refl _

theorem tree (b : Branch) : Tree b.tour := by
  induction b using Branch.induction with
  | step b ih =>
    rw [b.tour_eq]
    exact .around (.flatMap ih) b.part

theorem tree_inside (b : Branch) : Tree (b.inside.flatMap tour) := .flatMap fun c _ => c.tree

end Branch

theorem TypeExpr.tree (t : TypeExpr) : Tree t.tour := Branch.tree (.type t)

theorem Stmt.tree (s : Stmt) : Tree s.tour := Branch.tree (.stmt s)

theorem CompilationUnit.tour_eq (unit : CompilationUnit) :
    unit.tour = unit.statements.flatMap Stmt.tour :=
  stmtsTour_eq unit.statements

theorem CompilationUnit.tree (unit : CompilationUnit) : Tree unit.tour := by
  rw [unit.tour_eq]
  exact .flatMap fun s _ => s.tree

/-! ### What is entered and what is left -/

theorem entered_around (part : Part) (inside : List Visit) :
    (part.around inside).filterMap Visit.entered? = part :: inside.filterMap Visit.entered? := by
  simp [Part.around, filterMap_append, Visit.entered?]

theorem left_around (part : Part) (inside : List Visit) :
    (part.around inside).filterMap Visit.left? = inside.filterMap Visit.left? ++ [part] := by
  rw [Part.around, filterMap_cons_none rfl, filterMap_append]
  rfl

private theorem around_perm {part : Part} {inside others : List Part} (h : inside.Perm others) :
    (inside ++ [part]).Perm (part :: others) :=
  (perm_append_singleton part inside).trans (h.cons part)

theorem Tree.left_perm_entered (h : Tree visits) :
    (visits.filterMap Visit.left?).Perm (visits.filterMap Visit.entered?) := by
  induction h with
  | nil => exact .refl _
  | part _ _ ihInside ihRest =>
    rw [filterMap_append, filterMap_append, left_around, entered_around]
    exact (around_perm ihInside).append ihRest

theorem CompilationUnit.left_perm_entered (unit : CompilationUnit) :
    unit.left.Perm unit.entered := by
  rw [unit.left_eq, unit.entered_eq]
  exact unit.tree.left_perm_entered

theorem CompilationUnit.mem_left {part : Part} : part ∈ unit.left ↔ part ∈ unit.entered :=
  unit.left_perm_entered.mem_iff

theorem CompilationUnit.mem_entered {part : Part} :
    part ∈ unit.entered ↔ .enter part ∈ unit.tour := by
  rw [unit.entered_eq, mem_filterMap]
  constructor
  · rintro ⟨v, hv, he⟩
    cases v with
    | enter q =>
      cases he
      exact hv
    | leave q => cases he
  · intro h
    exact ⟨_, h, rfl⟩

theorem CompilationUnit.leave_mem_tour {part : Part} :
    .leave part ∈ unit.tour ↔ part ∈ unit.entered := by
  rw [← mem_left, unit.left_eq, mem_filterMap]
  constructor
  · intro h
    exact ⟨_, h, rfl⟩
  · rintro ⟨v, hv, hl⟩
    cases v with
    | enter q => cases hl
    | leave q =>
      cases hl
      exact hv

theorem Branch.enter_mem_tour_iff {b : Branch} {part : Part} :
    .enter part ∈ b.tour ↔ part = b.part ∨ ∃ c ∈ b.inside, .enter part ∈ c.tour := by
  rw [b.tour_eq]
  simp [Part.around]

/-- A part comes with the parts right inside it. -/
theorem Branch.enter_child {b : Branch} {part child : Part} (entered : .enter part ∈ b.tour)
    (hc : child ∈ part.children) : .enter child ∈ b.tour := by
  induction b using Branch.induction with
  | step b ih =>
    rw [enter_mem_tour_iff] at entered ⊢
    rcases entered with rfl | ⟨c, mem, entered⟩
    · obtain ⟨c, mem, rfl⟩ := mem_map.mp (b.children_subset hc)
      exact .inr ⟨c, mem, c.enter_mem_tour⟩
    · exact .inr ⟨c, mem, ih c mem entered⟩

/-- An annotation belongs to a variable. -/
theorem Branch.enter_annotated {b : Branch} {decl : VarDecl} {written : TypeExpr}
    (entered : .enter (.typed decl written) ∈ b.tour) :
    b = .typed decl written ∨ .enter (.varDecl decl) ∈ b.tour ∧ decl.type = some written := by
  induction b using Branch.induction with
  | step b ih =>
    rcases enter_mem_tour_iff.mp entered with same | ⟨c, mem, entered⟩
    · cases b with
      | typed decl written =>
        cases same
        exact .inl rfl
      | stmt s => cases s <;> cases same
      | _ => cases same
    · right
      rcases ih c mem entered with rfl | ⟨entered, told⟩
      · obtain ⟨rfl, told⟩ := typed_mem_inside mem
        exact ⟨enter_mem_tour (.stmt (.varDecl decl)), told⟩
      · exact ⟨enter_mem_tour_iff.mpr (.inr ⟨c, mem, entered⟩), told⟩

theorem CompilationUnit.enter_mem_tour {part : Part} :
    .enter part ∈ unit.tour ↔ ∃ s ∈ unit.statements, .enter part ∈ s.tour := by
  rw [unit.tour_eq, mem_flatMap]

theorem CompilationUnit.child_entered {part child : Part} (h : part ∈ unit.entered)
    (hc : child ∈ part.children) : child ∈ unit.entered := by
  rw [mem_entered, enter_mem_tour] at h ⊢
  obtain ⟨s, mem, entered⟩ := h
  exact ⟨s, mem, Branch.enter_child (b := .stmt s) entered hc⟩

theorem CompilationUnit.operand_entered {e child : Expr} {expected inner : Option Expected}
    (h : .expr e expected ∈ unit.entered) (mem : (child, inner) ∈ e.operands expected) :
    .expr child inner ∈ unit.entered :=
  child_entered h (mem_map.mpr ⟨_, mem, rfl⟩)

theorem CompilationUnit.annotated_entered {decl : VarDecl} {written : TypeExpr}
    (h : .typed decl written ∈ unit.entered) :
    .varDecl decl ∈ unit.entered ∧ decl.type = some written := by
  rw [mem_entered, enter_mem_tour] at h
  obtain ⟨s, mem, entered⟩ := h
  obtain same | ⟨entered, told⟩ := Branch.enter_annotated (b := .stmt s) entered
  · cases same
  · exact ⟨mem_entered.mpr (enter_mem_tour.mpr ⟨s, mem, entered⟩), told⟩

/-! ### What is around a part -/

/-- The parts that are open after a visit, the innermost first. -/
def Visit.open (around : List Part) : Visit → List Part
  | .enter part => part :: around
  | .leave _ => around.tail

/-- Whether visits close what is open, given the parts that are open before them. -/
def Nested : List Part → List Visit → Prop
  | _, [] => True
  | around, .enter part :: visits => Nested (part :: around) visits
  | around, .leave part :: visits => around.head? = some part ∧ Nested around.tail visits

theorem Tree.nested (h : Tree visits) {around : List Part} {rest : List Visit}
    (after : Nested around rest) : Nested around (visits ++ rest) := by
  induction h generalizing around rest with
  | nil => exact after
  | part _ _ ihInside ihRest =>
    rw [append_assoc, Part.around, cons_append, append_assoc]
    exact ihInside ⟨rfl, ihRest after⟩

theorem Tree.closed (h : Tree visits) : Nested [] visits := by
  rw [← append_nil visits]
  exact h.nested trivial

theorem CompilationUnit.nested (unit : CompilationUnit) : Nested [] unit.tour := unit.tree.closed

/-- Every part that visits enter, with the parts around it. -/
def sitesFrom : List Part → List Visit → List (Part × List Part)
  | _, [] => []
  | around, .enter part :: visits => (part, around) :: sitesFrom (part :: around) visits
  | around, .leave _ :: visits => sitesFrom around.tail visits

/-- The parts of a unit, each with the parts around it, the innermost first. -/
def CompilationUnit.sites (unit : CompilationUnit) : List (Part × List Part) :=
  sitesFrom [] unit.tour

theorem map_fst_sitesFrom (around : List Part) (visits : List Visit) :
    (sitesFrom around visits).map Prod.fst = visits.filterMap Visit.entered? := by
  induction visits generalizing around with
  | nil => rfl
  | cons v visits ih =>
    cases v with
    | enter part =>
      rw [sitesFrom, map_cons, ih]
      rfl
    | leave part =>
      rw [sitesFrom, ih]
      rfl

theorem CompilationUnit.map_fst_sites (unit : CompilationUnit) :
    unit.sites.map Prod.fst = unit.entered := by
  rw [unit.entered_eq]
  exact map_fst_sitesFrom [] unit.tour

theorem CompilationUnit.exists_site {part : Part} (h : part ∈ unit.entered) :
    ∃ around, (part, around) ∈ unit.sites := by
  rw [← unit.map_fst_sites, mem_map] at h
  obtain ⟨⟨_, around⟩, hs, rfl⟩ := h
  exact ⟨around, hs⟩

theorem mem_around_of_mem_sitesFrom {around : List Part} {site : Part × List Part}
    (hs : site ∈ sitesFrom around visits) {part : Part} (mem : part ∈ site.2) :
    part ∈ around ∨ .enter part ∈ visits := by
  induction visits generalizing around with
  | nil => cases hs
  | cons v visits ih =>
    cases v with
    | enter q =>
      rcases mem_cons.mp hs with rfl | hs
      · exact .inl mem
      · rcases ih hs with inner | later
        · rcases mem_cons.mp inner with rfl | outer
          · exact .inr (.head _)
          · exact .inl outer
        · exact .inr (.tail _ later)
    | leave q =>
      rcases ih hs with outer | later
      · exact .inl (mem_of_mem_tail outer)
      · exact .inr (.tail _ later)

theorem CompilationUnit.around_entered {site : Part × List Part} (hs : site ∈ unit.sites)
    {part : Part} (mem : part ∈ site.2) : part ∈ unit.entered := by
  rcases mem_around_of_mem_sitesFrom hs mem with none | entered
  · cases none
  · exact mem_entered.mpr entered

end BlFront
