import BlFront.Proofs.Syntax.Tours

/-!
# The nodes of a unit

What stands in a unit, told from the syntax alone: the statements, expressions and types, each with
the nearest function and the nearest class around it.  The tour of a unit visits exactly these.
-/

namespace BlFront

open List

variable {e : Expr} {around : List Part} {s : Stmt} {α : Type}

/-- The nearest function and the nearest class around a node. -/
structure Surroundings where
  function? : Option FunctionDecl
  class? : Option ClassDecl

/-- The expressions right inside an expression. -/
def Expr.children (e : Expr) : List Expr := (e.operands none).map Prod.fst

namespace CompilationUnit

/-- The statements of a unit.  A method counts as the declaration of a function, and the body of a
function as a block. -/
inductive HasStmt (unit : CompilationUnit) : Surroundings → Stmt → Prop
  | top {s : Stmt} (mem : s ∈ unit.statements) : HasStmt unit ⟨none, none⟩ s
  | body {near : Surroundings} {decl : FunctionDecl} (h : HasStmt unit near (.funDecl decl)) :
      HasStmt unit { near with function? := some decl } (.block decl.body)
  | method {near : Surroundings} {decl : ClassDecl} {f : FunctionDecl}
      (h : HasStmt unit near (.classDecl decl)) (mem : f ∈ decl.methods) :
      HasStmt unit { near with class? := some decl } (.funDecl f)
  | inside {near : Surroundings} {body : Block} {s : Stmt} (h : HasStmt unit near (.block body))
      (mem : s ∈ body.statements) : HasStmt unit near s
  | thenBranch {near : Surroundings} {tag : Tag} {condition : Expr} {first : Stmt}
      {second : Option Stmt} (h : HasStmt unit near (.ifElse tag condition first second)) :
      HasStmt unit near first
  | elseBranch {near : Surroundings} {tag : Tag} {condition : Expr} {first second : Stmt}
      (h : HasStmt unit near (.ifElse tag condition first (some second))) : HasStmt unit near second
  | loopBody {near : Surroundings} {tag : Tag} {condition : Expr} {body : Stmt}
      (h : HasStmt unit near (.whileLoop tag condition body)) : HasStmt unit near body

inductive HasExpr (unit : CompilationUnit) : Surroundings → Expr → Prop
  | initializer {near : Surroundings} {decl : VarDecl} (h : unit.HasStmt near (.varDecl decl)) :
      HasExpr unit near decl.initializer
  | ifCondition {near : Surroundings} {tag : Tag} {condition : Expr} {first : Stmt}
      {second : Option Stmt} (h : unit.HasStmt near (.ifElse tag condition first second)) :
      HasExpr unit near condition
  | whileCondition {near : Surroundings} {tag : Tag} {condition : Expr} {body : Stmt}
      (h : unit.HasStmt near (.whileLoop tag condition body)) : HasExpr unit near condition
  | returned {near : Surroundings} {tag : Tag} {value : Expr}
      (h : unit.HasStmt near (.returnStmt tag (some value))) : HasExpr unit near value
  | statement {near : Surroundings} {tag : Tag} {e : Expr}
      (h : unit.HasStmt near (.exprStmt tag e)) : HasExpr unit near e
  | operand {near : Surroundings} {e child : Expr} (h : HasExpr unit near e)
      (mem : child ∈ e.children) : HasExpr unit near child

def HasParam (unit : CompilationUnit) (p : TypedName) : Prop :=
  ∃ near decl, unit.HasStmt near (.funDecl decl) ∧ p ∈ decl.params

def HasField (unit : CompilationUnit) (f : TypedName) : Prop :=
  (∃ near decl, unit.HasStmt near (.structDecl decl) ∧ f ∈ decl.fields) ∨
    ∃ near decl, unit.HasStmt near (.classDecl decl) ∧ f ∈ decl.fields

inductive HasTypeExpr (unit : CompilationUnit) : TypeExpr → Prop
  | param {p : TypedName} (h : unit.HasParam p) : HasTypeExpr unit p.type
  | field {f : TypedName} (h : unit.HasField f) : HasTypeExpr unit f.type
  | result {near : Surroundings} {decl : FunctionDecl} {written : TypeExpr}
      (h : unit.HasStmt near (.funDecl decl)) (told : decl.returnType = some written) :
      HasTypeExpr unit written
  | declared {near : Surroundings} {decl : VarDecl} {written : TypeExpr}
      (h : unit.HasStmt near (.varDecl decl)) (told : decl.type = some written) :
      HasTypeExpr unit written
  | element {tag : Tag} {element : TypeExpr} (h : HasTypeExpr unit (.array tag element)) :
      HasTypeExpr unit element

/-- The identities of nodes: the unit itself and all that stands in it. -/
inductive HasNode (unit : CompilationUnit) : NodeId → Prop
  | unit : HasNode unit unit.tag.id
  | stmt {near : Surroundings} {s : Stmt} (h : unit.HasStmt near s) : HasNode unit s.id
  | expr {near : Surroundings} {e : Expr} (h : unit.HasExpr near e) : HasNode unit e.id
  | type {written : TypeExpr} (h : unit.HasTypeExpr written) : HasNode unit written.id
  | param {p : TypedName} (h : unit.HasParam p) : HasNode unit p.tag.id
  | field {f : TypedName} (h : unit.HasField f) : HasNode unit f.tag.id

end CompilationUnit

/-! ### Sites of what is inside -/

theorem sitesFrom_append {visits : List Visit} (tree : Tree visits) (around : List Part)
    (rest : List Visit) :
    sitesFrom around (visits ++ rest) = sitesFrom around visits ++ sitesFrom around rest := by
  induction tree generalizing around rest with
  | nil => rfl
  | part _ _ ihInside ihRest =>
    simp only [Part.around, cons_append, append_assoc, sitesFrom, ihInside, ihRest,
      nil_append, tail_cons]

theorem sitesFrom_flatMap {tour : α → List Visit} (trees : ∀ x, Tree (tour x)) (xs : List α)
    (around : List Part) :
    sitesFrom around (xs.flatMap tour) = xs.flatMap fun x => sitesFrom around (tour x) := by
  induction xs with
  | nil => rfl
  | cons x xs ih => rw [flatMap_cons, flatMap_cons, sitesFrom_append (trees x), ih]

theorem Branch.sitesFrom_tour (b : Branch) (around : List Part) :
    sitesFrom around b.tour = (b.part, around) ::
      b.inside.flatMap fun c => sitesFrom (b.part :: around) c.tour := by
  rw [b.tour_eq, Part.around, sitesFrom, sitesFrom_append b.tree_inside, sitesFrom_flatMap tree]
  simp [sitesFrom]

theorem Expr.map_fst_operands (e : Expr) (expected : Option Expected) :
    (e.operands expected).map Prod.fst = e.children := by
  cases e <;> simp [Expr.children, Expr.operands]

theorem Expr.mem_operands (e : Expr) {child : Expr} (mem : child ∈ e.children)
    (expected : Option Expected) : ∃ expected', (child, expected') ∈ e.operands expected := by
  rw [← e.map_fst_operands expected] at mem
  obtain ⟨⟨_, expected'⟩, found, rfl⟩ := mem_map.mp mem
  exact ⟨expected', found⟩

theorem Expr.mem_children (e : Expr) {child : Expr} {expected inner : Option Expected}
    (mem : (child, inner) ∈ e.operands expected) : child ∈ e.children := by
  rw [← e.map_fst_operands expected]
  exact mem_map_of_mem mem

theorem Stmt.id?_part (s : Stmt) : s.part.id? = some s.id := by
  cases s <;> rfl

theorem Block.sizeOf_stmt (body : Block) (mem : s ∈ body.statements) : sizeOf s < sizeOf body := by
  obtain ⟨tag, statements⟩ := body
  have listed : sizeOf s < sizeOf statements := sizeOf_lt_of_mem mem
  simp only [Block.mk.sizeOf_spec]
  omega

/-! ### All nodes are visited -/

def Part.isFunction : Part → Bool
  | .function _ => true
  | _ => false

def Part.isClass : Part → Bool
  | .classDecl _ => true
  | _ => false

/-- The parts around a node tell the nearest function and the nearest class. -/
structure Surroundings.Among (near : Surroundings) (around : List Part) : Prop where
  function : around.find? Part.isFunction = near.function?.map .function
  class_ : around.find? Part.isClass = near.class?.map .classDecl

theorem Surroundings.Among.plain {near : Surroundings} (h : near.Among around) (part : Part)
    (noFunction : part.isFunction = false) (noClass : part.isClass = false) :
    near.Among (part :: around) :=
  ⟨by rw [List.find?_cons, noFunction]; exact h.function,
    by rw [List.find?_cons, noClass]; exact h.class_⟩

namespace CompilationUnit

variable {unit : CompilationUnit} {near : Surroundings}

/-- The branches of a unit, each with the parts around it. -/
inductive Within (unit : CompilationUnit) : List Part → Branch → Prop
  | top {s : Stmt} (mem : s ∈ unit.statements) : Within unit [] (.stmt s)
  | inside {around : List Part} {b c : Branch} (h : Within unit around b) (mem : c ∈ b.inside) :
      Within unit (b.part :: around) c

theorem Within.sites_subset {b : Branch} (h : unit.Within around b) :
    sitesFrom around b.tour ⊆ unit.sites := by
  induction h with
  | top mem =>
    intro site hs
    rw [sites, tour_eq, sitesFrom_flatMap Stmt.tree]
    exact mem_flatMap.mpr ⟨_, mem, hs⟩
  | @inside around b c _ mem ih =>
    intro site hs
    refine ih ?_
    rw [b.sitesFrom_tour]
    exact .tail _ (mem_flatMap.mpr ⟨c, mem, hs⟩)

theorem Within.site {b : Branch} (h : unit.Within around b) : (b.part, around) ∈ unit.sites :=
  h.sites_subset (b.sitesFrom_tour around ▸ mem_cons_self ..)

theorem Within.entered {b : Branch} (h : unit.Within around b) : b.part ∈ unit.entered :=
  unit.map_fst_sites ▸ mem_map_of_mem (f := Prod.fst) h.site

theorem Within.tour_infix {b : Branch} (h : unit.Within around b) : b.tour <:+: unit.tour := by
  have flat : ∀ {α : Type} {f : α → List Visit} {xs : List α} {x : α}, x ∈ xs →
      f x <:+: xs.flatMap f := by
    intro α f xs x mem
    obtain ⟨before, after, rfl⟩ := append_of_mem mem
    exact ⟨before.flatMap f, after.flatMap f, by simp⟩
  induction h with
  | top mem => exact unit.tour_eq ▸ flat mem
  | @inside around b c _ mem ih =>
    refine List.IsInfix.trans ?_ ih
    rw [b.tour_eq]
    exact (flat mem).trans ⟨[.enter b.part], [.leave b.part], rfl⟩

theorem HasStmt.within (h : unit.HasStmt near s) :
    ∃ around, near.Among around ∧ unit.Within around (.stmt s) := by
  have plain : ∀ {near : Surroundings} {b c : Branch},
      (∃ around, near.Among around ∧ unit.Within around b) → c ∈ b.inside →
        b.part.isFunction = false → b.part.isClass = false →
          ∃ around, near.Among around ∧ unit.Within around c := by
    rintro near b c ⟨around, among, within⟩ mem noFunction noClass
    exact ⟨_, among.plain b.part noFunction noClass, within.inside mem⟩
  induction h with
  | top mem => exact ⟨[], ⟨rfl, rfl⟩, .top mem⟩
  | @body near decl _ ih =>
    obtain ⟨around, among, within⟩ := ih
    exact ⟨.function decl :: around, ⟨rfl, among.class_⟩,
      within.inside (by simp [Branch.inside, Stmt.inside])⟩
  | @method near decl f _ mem ih =>
    obtain ⟨around, among, within⟩ := ih
    exact ⟨.classDecl decl :: around, ⟨among.function, rfl⟩,
      within.inside (by simp [Branch.inside, Stmt.inside, mem])⟩
  | inside _ mem ih => exact plain ih (by simp [Branch.inside, Stmt.inside, mem]) rfl rfl
  | _ _ ih => exact plain ih (by simp [Branch.inside, Stmt.inside]) rfl rfl

theorem HasExpr.within (h : unit.HasExpr near e) :
    ∃ around expected, near.Among around ∧ unit.Within around (.expr e expected) := by
  have plain : ∀ {near : Surroundings} {s : Stmt} {e : Expr} (expected : Option Expected),
      unit.HasStmt near s → .expr e expected ∈ s.inside → s.part.isFunction = false →
        s.part.isClass = false → ∃ around expected, near.Among around ∧
          unit.Within around (.expr e expected) := by
    intro near s e expected has mem noFunction noClass
    obtain ⟨around, among, within⟩ := has.within
    exact ⟨_, _, among.plain s.part noFunction noClass, within.inside mem⟩
  induction h with
  | @initializer decl has =>
    refine plain (decl.type.map fun written => ⟨written.id, 0⟩) has ?_ rfl rfl
    cases told : decl.type <;> simp [Stmt.inside, told]
  | operand _ mem ih =>
    obtain ⟨around, expected, among, within⟩ := ih
    obtain ⟨expected', mem⟩ := Expr.mem_operands _ mem expected
    exact ⟨_, expected', among.plain _ rfl rfl, within.inside (mem_map.mpr ⟨_, mem, rfl⟩)⟩
  | _ has => exact plain none has (by simp [Stmt.inside]) rfl rfl

theorem HasParam.within {p : TypedName} (h : unit.HasParam p) :
    ∃ around, unit.Within around (.param p) := by
  obtain ⟨near, decl, has, mem⟩ := h
  obtain ⟨around, _, within⟩ := has.within
  exact ⟨_, within.inside (by simp [Branch.inside, Stmt.inside, mem])⟩

theorem HasField.within {f : TypedName} (h : unit.HasField f) :
    ∃ around, unit.Within around (.field f) := by
  rcases h with ⟨near, decl, has, mem⟩ | ⟨near, decl, has, mem⟩ <;>
    obtain ⟨around, _, within⟩ := has.within <;>
    exact ⟨_, within.inside (by simp [Branch.inside, Stmt.inside, mem])⟩

theorem HasTypeExpr.within {written : TypeExpr} (h : unit.HasTypeExpr written) :
    ∃ around, unit.Within around (.type written) := by
  induction h with
  | param has =>
    obtain ⟨around, within⟩ := has.within
    exact ⟨_, within.inside (.head _)⟩
  | field has =>
    obtain ⟨around, within⟩ := has.within
    exact ⟨_, within.inside (.head _)⟩
  | result has told =>
    obtain ⟨around, _, within⟩ := has.within
    exact ⟨_, within.inside (by simp [Branch.inside, Stmt.inside, told])⟩
  | @declared near decl written has told =>
    obtain ⟨around, _, within⟩ := has.within
    have typed : unit.Within _ (.typed decl written) :=
      within.inside (by simp [Branch.inside, Stmt.inside, told])
    exact ⟨_, typed.inside (.head _)⟩
  | element _ ih =>
    obtain ⟨around, within⟩ := ih
    exact ⟨_, within.inside (.head _)⟩

theorem HasStmt.entered (h : unit.HasStmt near s) : s.part ∈ unit.entered := by
  obtain ⟨around, _, within⟩ := h.within
  exact within.entered

theorem HasExpr.site (h : unit.HasExpr near e) :
    ∃ around expected, near.Among around ∧ (.expr e expected, around) ∈ unit.sites := by
  obtain ⟨around, expected, among, within⟩ := h.within
  exact ⟨around, expected, among, within.site⟩

theorem HasExpr.entered (h : unit.HasExpr near e) :
    ∃ expected, .expr e expected ∈ unit.entered := by
  obtain ⟨around, expected, _, within⟩ := h.within
  exact ⟨expected, within.entered⟩

theorem HasParam.entered {p : TypedName} (h : unit.HasParam p) : .param p ∈ unit.entered :=
  h.within.choose_spec.entered

theorem HasField.entered {f : TypedName} (h : unit.HasField f) : .field f ∈ unit.entered :=
  h.within.choose_spec.entered

theorem HasTypeExpr.entered {written : TypeExpr} (h : unit.HasTypeExpr written) :
    .type written ∈ unit.entered :=
  h.within.choose_spec.entered

/-! ### Nothing else is visited -/

/-- An expression stands in the initializer of a variable with a written type, through so many array
literals that are right inside one another. -/
inductive Annotates (unit : CompilationUnit) (written : TypeExpr) : Nat → Expr → Prop
  | initializer {near : Surroundings} {decl : VarDecl} (h : unit.HasStmt near (.varDecl decl))
      (told : decl.type = some written) : Annotates unit written 0 decl.initializer
  | element {depth : Nat} {tag : Tag} {elements : List Expr} {e : Expr}
      (h : Annotates unit written depth (.array tag elements)) (mem : e ∈ elements) :
      Annotates unit written (depth + 1) e

theorem Annotates.hasTypeExpr {written : TypeExpr} {depth : Nat}
    (h : unit.Annotates written depth e) : unit.HasTypeExpr written := by
  induction h with
  | initializer has told => exact .declared has told
  | element _ _ ih => exact ih

/-- The tour hands the annotation down to the literals inside. -/
theorem Annotates.entered {written : TypeExpr} {depth : Nat} (h : unit.Annotates written depth e) :
    .expr e (some ⟨written.id, depth⟩) ∈ unit.entered := by
  induction h with
  | initializer has told =>
    exact child_entered has.entered (by simp [Stmt.part, Part.children, told])
  | element _ mem ih => exact operand_entered ih (mem_map_of_mem mem)

/-- What is expected of an expression comes from a written type. -/
def Expects (unit : CompilationUnit) (e : Expr) : Option Expected → Prop
  | none => True
  | some expected =>
    ∃ written, unit.Annotates written expected.depth e ∧ written.id = expected.annotated

theorem expects_none : unit.Expects e none := trivial

theorem Expects.operand {child : Expr} {expected inner : Option Expected}
    (h : unit.Expects e expected) (mem : (child, inner) ∈ e.operands expected) :
    unit.Expects child inner := by
  cases e with
  | array tag elements =>
    obtain ⟨_, among, same⟩ := mem_map.mp mem
    cases same
    cases expected with
    | none => exact expects_none
    | some expected =>
      obtain ⟨written, annotates, same⟩ := h
      exact ⟨written, annotates.element among, same⟩
  | _ =>
    obtain rfl : inner = none := by
      simp only [Expr.operands] at mem
      grind
    exact expects_none

/-- What it means for a part to stand in a unit. -/
def Stands (unit : CompilationUnit) : Part → Prop
  | .function decl => ∃ near, unit.HasStmt near (.funDecl decl)
  | .param p => unit.HasParam p
  | .structDecl decl => ∃ near, unit.HasStmt near (.structDecl decl)
  | .classDecl decl => ∃ near, unit.HasStmt near (.classDecl decl)
  | .field f => unit.HasField f
  | .varDecl decl => ∃ near, unit.HasStmt near (.varDecl decl)
  | .typed decl written => (∃ near, unit.HasStmt near (.varDecl decl)) ∧ decl.type = some written
  | .block body => ∃ near, unit.HasStmt near (.block body)
  | .ifElse tag condition first second =>
    ∃ near, unit.HasStmt near (.ifElse tag condition first second)
  | .whileLoop tag condition => ∃ near body, unit.HasStmt near (.whileLoop tag condition body)
  | .returnStmt tag value => ∃ near, unit.HasStmt near (.returnStmt tag value)
  | .exprStmt tag => ∃ near e, unit.HasStmt near (.exprStmt tag e)
  | .expr e expected => (∃ near, unit.HasExpr near e) ∧ unit.Expects e expected
  | .type written => unit.HasTypeExpr written

/-- What it means for a branch to stand in a unit. -/
def HasBranch (unit : CompilationUnit) : Branch → Prop
  | .type written => unit.HasTypeExpr written
  | .param p => unit.HasParam p
  | .field f => unit.HasField f
  | .typed decl written => (∃ near, unit.HasStmt near (.varDecl decl)) ∧ decl.type = some written
  | .expr e expected => (∃ near, unit.HasExpr near e) ∧ unit.Expects e expected
  | .stmt s => ∃ near, unit.HasStmt near s

theorem HasBranch.stands {b : Branch} (h : unit.HasBranch b) : unit.Stands b.part := by
  cases b with
  | stmt s =>
    obtain ⟨near, has⟩ := h
    cases s with
    | whileLoop tag condition body => exact ⟨near, body, has⟩
    | exprStmt tag e => exact ⟨near, e, has⟩
    | _ => exact ⟨near, has⟩
  | _ => exact h

theorem HasStmt.inside_stands {c : Branch} (h : unit.HasStmt near s) (mem : c ∈ s.inside) :
    unit.HasBranch c := by
  cases s with
  | funDecl decl =>
    simp only [Stmt.inside, mem_append, mem_map, mem_singleton] at mem
    rcases mem with ⟨p, mem, rfl⟩ | ⟨written, mem, rfl⟩ | rfl
    · exact ⟨near, decl, h, mem⟩
    · exact HasTypeExpr.result h (Option.mem_toList.mp mem)
    · exact ⟨_, h.body⟩
  | structDecl decl =>
    obtain ⟨f, among, rfl⟩ := mem_map.mp mem
    exact .inl ⟨near, decl, h, among⟩
  | classDecl decl =>
    simp only [Stmt.inside, mem_append, mem_map] at mem
    rcases mem with ⟨f, mem, rfl⟩ | ⟨f, mem, rfl⟩
    · exact .inr ⟨near, decl, h, mem⟩
    · exact ⟨_, h.method mem⟩
  | varDecl decl =>
    cases told : decl.type with
    | none =>
      simp only [Stmt.inside, told, mem_singleton] at mem
      exact mem ▸ ⟨⟨near, .initializer h⟩, expects_none⟩
    | some written =>
      simp only [Stmt.inside, told, mem_cons, not_mem_nil, or_false] at mem
      rcases mem with rfl | rfl
      · exact ⟨⟨near, h⟩, told⟩
      · exact ⟨⟨near, .initializer h⟩, written, .initializer h told, rfl⟩
  | block body =>
    obtain ⟨s, among, rfl⟩ := mem_map.mp mem
    exact ⟨near, h.inside among⟩
  | ifElse tag condition first second =>
    simp only [Stmt.inside, mem_cons, mem_map, Option.mem_toList] at mem
    rcases mem with rfl | rfl | ⟨s, rfl, rfl⟩
    · exact ⟨⟨near, .ifCondition h⟩, expects_none⟩
    · exact ⟨near, h.thenBranch⟩
    · exact ⟨near, h.elseBranch⟩
  | whileLoop tag condition body =>
    simp only [Stmt.inside, mem_cons, not_mem_nil, or_false] at mem
    rcases mem with rfl | rfl
    · exact ⟨⟨near, .whileCondition h⟩, expects_none⟩
    · exact ⟨near, h.loopBody⟩
  | returnStmt tag value =>
    simp only [Stmt.inside, mem_map, Option.mem_toList] at mem
    obtain ⟨e, rfl, rfl⟩ := mem
    exact ⟨⟨near, .returned h⟩, expects_none⟩
  | exprStmt tag e =>
    cases mem_singleton.mp mem
    exact ⟨⟨near, .statement h⟩, expects_none⟩

theorem HasBranch.inside {b c : Branch} (h : unit.HasBranch b) (mem : c ∈ b.inside) :
    unit.HasBranch c := by
  cases b with
  | type written =>
    cases written with
    | named tag name => cases mem
    | array tag element => exact mem_singleton.mp mem ▸ HasTypeExpr.element h
  | param p => exact mem_singleton.mp mem ▸ HasTypeExpr.param h
  | field f => exact mem_singleton.mp mem ▸ HasTypeExpr.field h
  | typed decl written =>
    obtain ⟨⟨near, has⟩, told⟩ := h
    exact mem_singleton.mp mem ▸ HasTypeExpr.declared has told
  | expr e expected =>
    obtain ⟨⟨near, has⟩, annotated⟩ := h
    obtain ⟨⟨child, inner⟩, among, rfl⟩ := mem_map.mp mem
    exact ⟨⟨near, has.operand (e.mem_children among)⟩, annotated.operand among⟩
  | stmt s =>
    obtain ⟨near, has⟩ := h
    exact has.inside_stands mem

theorem HasBranch.stands_of_enter {b : Branch} (h : unit.HasBranch b) {part : Part}
    (entered : .enter part ∈ b.tour) : unit.Stands part := by
  induction b using Branch.induction with
  | step b ih =>
    rcases Branch.enter_mem_tour_iff.mp entered with rfl | ⟨c, mem, entered⟩
    · exact h.stands
    · exact ih c mem (h.inside mem) entered

theorem stands_of_entered {part : Part} (h : part ∈ unit.entered) : unit.Stands part := by
  obtain ⟨s, mem, entered⟩ := enter_mem_tour.mp (mem_entered.mp h)
  exact HasBranch.stands_of_enter (b := .stmt s) ⟨_, .top mem⟩ entered

theorem HasNode.mem_ids {n : NodeId} (h : unit.HasNode n) :
    n = unit.tag.id ∨ ∃ part ∈ unit.entered, part.id? = some n := by
  cases h with
  | unit => exact .inl rfl
  | stmt has => exact .inr ⟨_, has.entered, Stmt.id?_part _⟩
  | expr has =>
    obtain ⟨expected, entered⟩ := has.entered
    exact .inr ⟨_, entered, rfl⟩
  | type has => exact .inr ⟨_, has.entered, rfl⟩
  | param has => exact .inr ⟨_, has.entered, rfl⟩
  | field has => exact .inr ⟨_, has.entered, rfl⟩

end CompilationUnit

end BlFront
