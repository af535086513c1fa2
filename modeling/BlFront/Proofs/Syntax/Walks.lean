import BlFront.Proofs.Syntax.Nodes
import BlFront.Proofs.Syntax.Reading.Unit
import BlFront.Syntax.Walk

/-!
# Walks

A walk visits the nodes of a unit in preorder: a node, then all that is inside it, then what stands
behind it.  In a parsed unit these are all the nodes there are, each once, but for the bodies of
functions and the methods of classes, of which only the inside is visited.  A walk that is stopped
has seen the first nodes of the whole walk.
-/

namespace BlFront

open List

variable {m : Type → Type} [Monad m] {visit : Node → m Unit}

/-! ### Preorder -/

/-- The nodes right inside a function, which are those of its signature and those of its body. -/
def FunctionDecl.inside (decl : FunctionDecl) : List Node :=
  decl.params.map (.type ·.type) ++
    (decl.returnType.toList.map .type ++ decl.body.statements.map .stmt)

/-- The nodes right inside a node. -/
def Node.inside : Node → List Node
  | .type (.named _ _) => []
  | .type (.array _ element) => [.type element]
  | .expr e => e.children.map .expr
  | .stmt (.funDecl decl) => decl.inside
  | .stmt (.structDecl decl) => decl.fields.map (.type ·.type)
  | .stmt (.classDecl decl) =>
    decl.fields.map (.type ·.type) ++ decl.methods.flatMap FunctionDecl.inside
  | .stmt (.varDecl decl) => decl.type.toList.map .type ++ [.expr decl.initializer]
  | .stmt (.block body) => body.statements.map .stmt
  | .stmt (.ifElse _ condition first second) =>
    .expr condition :: .stmt first :: second.toList.map .stmt
  | .stmt (.whileLoop _ condition body) => [.expr condition, .stmt body]
  | .stmt (.returnStmt _ value) => value.toList.map .expr
  | .stmt (.exprStmt _ e) => [.expr e]

/-- Some nodes and all that is inside them, in preorder. -/
inductive Preorder : List Node → List Node → Prop
  | nil : Preorder [] []
  | cons {node : Node} {nodes within behind : List Node} (first : Preorder node.inside within)
      (rest : Preorder nodes behind) : Preorder (node :: nodes) (node :: (within ++ behind))

namespace Preorder

variable {nodes nodes' listed listed' : List Node} {node : Node}

theorem single (h : Preorder node.inside listed) : Preorder [node] (node :: listed) := by
  have only := h.cons .nil
  rwa [append_nil] at only

theorem append (h : Preorder nodes listed) (h' : Preorder nodes' listed') :
    Preorder (nodes ++ nodes') (listed ++ listed') := by
  induction h with
  | nil => exact h'
  | cons first _ _ ih =>
    rw [cons_append, cons_append, append_assoc]
    exact .cons first ih

theorem subset (h : Preorder nodes listed) : nodes ⊆ listed := by
  induction h with
  | nil => exact nil_subset _
  | cons _ _ _ ih => exact cons_subset_cons _ (subset_append_of_subset_right _ ih)

theorem inside_subset (h : Preorder nodes listed) (mem : node ∈ listed) :
    node.inside ⊆ listed := by
  induction h with
  | nil => cases mem
  | cons first _ ihFirst ihRest =>
    refine subset_cons_of_subset _ ?_
    rcases mem_cons.mp mem with rfl | mem
    · exact subset_append_of_subset_left _ first.subset
    · rcases mem_append.mp mem with mem | mem
      · exact subset_append_of_subset_left _ (ihFirst mem)
      · exact subset_append_of_subset_right _ (ihRest mem)

end Preorder

/-! ### Walks go in preorder -/

def Node.walk (visit : Node → m Unit) : Node → m Unit
  | .stmt s => s.walk visit
  | .expr e => e.walk visit
  | .type t => t.walk visit

theorem walkTypes_eq (xs : List TypedName) :
    walkTypes visit xs = forM (xs.map (Node.type ·.type)) (Node.walk visit) := by
  induction xs with
  | nil => rfl
  | cons x xs ih =>
    rw [walkTypes, ih]
    rfl

theorem walkExprs_eq (es : List Expr) :
    walkExprs visit es = forM (es.map Node.expr) (Node.walk visit) := by
  induction es with
  | nil => rw [walkExprs]; rfl
  | cons e es ih =>
    rw [walkExprs, ih]
    rfl

theorem walkStmts_eq (ss : List Stmt) :
    walkStmts visit ss = forM (ss.map Node.stmt) (Node.walk visit) := by
  induction ss with
  | nil => rw [walkStmts]; rfl
  | cons s ss ih =>
    rw [walkStmts, ih]
    rfl

variable [LawfulMonad m]

theorem FunctionDecl.walk_eq (decl : FunctionDecl) :
    decl.walk visit = forM decl.inside (Node.walk visit) := by
  obtain ⟨tag, name, params, returnType, ⟨blockTag, statements⟩⟩ := decl
  cases returnType <;>
    simp [FunctionDecl.walk, Block.walk, FunctionDecl.inside, walkTypes_eq, walkStmts_eq, Node.walk]

theorem walkFunctions_eq (fs : List FunctionDecl) :
    walkFunctions visit fs = forM (fs.flatMap FunctionDecl.inside) (Node.walk visit) := by
  induction fs with
  | nil => rw [walkFunctions]; rfl
  | cons f fs ih => rw [walkFunctions, ih, f.walk_eq, flatMap_cons, forM_append]

/-- One step of a walk: the node, and then what is right inside it. -/
theorem Node.walk_eq (node : Node) :
    node.walk visit = (do
      visit node
      forM node.inside (Node.walk visit)) := by
  cases node with
  | type t => cases t <;> simp [Node.walk, TypeExpr.walk, Node.inside]
  | expr e =>
    cases e <;>
      simp [Node.walk, Expr.walk, Node.inside, Expr.children, Expr.operands, walkExprs_eq]
  | stmt s =>
    cases s with
    | funDecl decl => simp [Node.walk, Stmt.walk, Node.inside, FunctionDecl.walk_eq]
    | classDecl decl =>
      obtain ⟨tag, name, superclass, fields, methods⟩ := decl
      simp [Node.walk, Stmt.walk, ClassDecl.walk, Node.inside, walkTypes_eq, walkFunctions_eq]
    | varDecl decl =>
      cases told : decl.type <;> simp [Node.walk, Stmt.walk, Node.inside, told]
    | block body =>
      obtain ⟨tag, statements⟩ := body
      simp [Node.walk, Stmt.walk, Block.walk, Node.inside, walkStmts_eq]
    | ifElse tag condition first second =>
      cases second <;> simp [Node.walk, Stmt.walk, Node.inside]
    | returnStmt tag value => cases value <;> simp [Node.walk, Stmt.walk, Node.inside]
    | _ => simp [Node.walk, Stmt.walk, Node.inside, walkTypes_eq]

theorem Preorder.forM_walk {nodes listed : List Node} (h : Preorder nodes listed) :
    forM nodes (Node.walk visit) = forM listed visit := by
  induction h with
  | nil => rfl
  | @cons node nodes within behind _ _ ihFirst ihRest =>
    rw [forM_cons, forM_cons, forM_append, node.walk_eq, ihFirst, ihRest, bind_assoc]

theorem CompilationUnit.walk_eq (unit : CompilationUnit) {listed : List Node}
    (h : Preorder (unit.statements.map .stmt) listed) : unit.walk visit = forM listed visit := by
  rw [CompilationUnit.walk, walkStmts_eq, h.forM_walk]

/-! ### Records -/

/-- Recording one node and then others. -/
theorem run_record_cons (limit : Option Nat) (node : Node) (listed seen : List Node) :
    (forM (node :: listed) (record limit)).run.run seen =
      if limit.any (· ≤ seen.length) then (.error ("stopped at " ++ node.describe), seen)
      else (forM listed (record limit)).run.run (seen ++ [node]) := by
  have first : (record limit node).run.run seen =
      if limit.any (· ≤ seen.length) then (.error ("stopped at " ++ node.describe), seen)
      else (.ok (), seen ++ [node]) := by
    show ((if limit.any (· ≤ seen.length) then _ else _ : Recorder Unit).run.run seen) = _
    split <;> rfl
  rw [forM_cons, ExceptT.run_bind, StateT.run_bind, first]
  split <;> rfl

theorem run_record_none (listed seen : List Node) :
    (forM listed (record none)).run.run seen = (.ok (), seen ++ listed) := by
  induction listed generalizing seen with
  | nil => rw [append_nil]; rfl
  | cons node listed ih =>
    rw [run_record_cons, if_neg (by simp), ih, append_assoc]
    rfl

/-- From a record of so many nodes a walk with a limit goes on until the limit is reached. -/
theorem run_record_some {n : Nat} (listed seen : List Node) (room : seen.length ≤ n) :
    (forM listed (record (some n))).run.run seen =
      match listed[n - seen.length]? with
      | some node =>
        (.error ("stopped at " ++ node.describe), seen ++ listed.take (n - seen.length))
      | none => (.ok (), seen ++ listed) := by
  induction listed generalizing seen with
  | nil => rw [append_nil]; rfl
  | cons node listed ih =>
    rw [run_record_cons]
    by_cases full : n = seen.length
    · subst full
      simp
    · have left : n - seen.length = n - (seen ++ [node]).length + 1 := by
        simp only [length_append, length_singleton]
        omega
      have room' : (seen ++ [node]).length ≤ n := by
        simp only [length_append, length_singleton]
        omega
      rw [if_neg (by simp; omega), ih _ room', left, getElem?_cons_succ, take_succ_cons]
      simp only [append_assoc, singleton_append]

theorem CompilationUnit.visits_none (unit : CompilationUnit) {listed : List Node}
    (h : Preorder (unit.statements.map .stmt) listed) : unit.visits none = ⟨listed, none⟩ := by
  rw [visits, unit.walk_eq h, run_record_none, nil_append]

theorem CompilationUnit.visits_some (unit : CompilationUnit) {listed : List Node}
    (h : Preorder (unit.statements.map .stmt) listed) (n : Nat) :
    unit.visits (some n) =
      ⟨listed.take n, listed[n]?.map fun node => "stopped at " ++ node.describe⟩ := by
  rw [visits, unit.walk_eq h, run_record_some listed [] (Nat.zero_le n)]
  simp only [length_nil, Nat.sub_zero, nil_append]
  cases found : listed[n]? with
  | some node => rfl
  | none => rw [take_of_length_le (getElem?_eq_none_iff.mp found)]; rfl

/-! ### All nodes are visited -/

namespace Branch

/-- The node that is visited for a branch, which for a name with a type is the type. -/
def node : Branch → Node
  | .type written => .type written
  | .param decl => .type decl.type
  | .field decl => .type decl.type
  | .typed _ written => .type written
  | .expr e _ => .expr e
  | .stmt s => .stmt s

/-- Whether the node of a branch is visited besides that of the branch around it.  Bodies and
methods are not, and a type is visited but once. -/
def shows : Branch → Branch → Bool
  | .param _, _ | .field _, _ | .typed _ _, _ => false
  | .stmt (.funDecl _), .stmt _ | .stmt (.classDecl _), .stmt _ => false
  | _, _ => true

/-- What is visited for a branch right inside another. -/
def shown (b c : Branch) : List Node := if b.shows c then [c.node] else c.node.inside

theorem inside_node (b : Branch) : b.node.inside = b.inside.flatMap b.shown := by
  cases b with
  | type written => cases written <;> simp [node, inside, Node.inside, shown, shows]
  | expr e expected =>
    simp [node, inside, Node.inside, shown, shows, flatMap_map, ← map_eq_flatMap,
      ← e.map_fst_operands expected]
  | stmt s =>
    cases s with
    | varDecl decl =>
      cases told : decl.type <;>
        simp [node, inside, Stmt.inside, Node.inside, shown, shows, told]
    | funDecl decl =>
      simp [node, inside, Stmt.inside, Node.inside, FunctionDecl.inside, shown, shows, flatMap_map,
        ← map_eq_flatMap]
    | _ =>
      simp [node, inside, Stmt.inside, Node.inside, shown, shows, flatMap_map, ← map_eq_flatMap]
  | _ => simp [node, inside, shown, shows]

/-- A branch is a node of its own, or it stands for the type inside it. -/
theorem id?_node (b : Branch) :
    b.part.id? = some b.node.id ∨ ∃ c, b.inside = [c] ∧ c.node = b.node := by
  cases b with
  | param decl => exact .inr ⟨_, rfl, rfl⟩
  | field decl => exact .inr ⟨_, rfl, rfl⟩
  | typed decl written => exact .inr ⟨_, rfl, rfl⟩
  | stmt s => exact .inl s.id?_part
  | _ => exact .inl rfl

theorem visited_tour (b : Branch) :
    visited b.tour = b.part.id?.toList ++ visited (b.inside.flatMap tour) := by
  rw [b.tour_eq, visited_around]

end Branch

namespace CompilationUnit

variable {unit : CompilationUnit} {around : List Part} {b c : Branch} {s : Stmt}

theorem Within.hasBranch (h : unit.Within around b) : unit.HasBranch b := by
  induction h with
  | top mem => exact ⟨_, .top mem⟩
  | inside _ mem ih => exact ih.inside mem

/-- The body of a function, or a method of a class. -/
inductive Hidden (unit : CompilationUnit) : Stmt → Prop
  | body {near : Surroundings} {decl : FunctionDecl} (h : unit.HasStmt near (.funDecl decl)) :
      Hidden unit (.block decl.body)
  | method {near : Surroundings} {decl : ClassDecl} {f : FunctionDecl}
      (h : unit.HasStmt near (.classDecl decl)) (mem : f ∈ decl.methods) :
      Hidden unit (.funDecl f)

/-- A node of a unit; a statement that stands neither right inside a function nor right inside a
class. -/
def Visible (unit : CompilationUnit) : Node → Prop
  | .stmt s => ∃ around, unit.Within around (.stmt s) ∧
      ∀ part ∈ around.head?, part.isFunction = false ∧ part.isClass = false
  | .expr e => ∃ near, unit.HasExpr near e
  | .type written => unit.HasTypeExpr written

theorem Within.visible (h : unit.Within around b) (mem : c ∈ b.inside) (shows : b.shows c = true) :
    unit.Visible c.node := by
  have has := h.hasBranch.inside mem
  cases c with
  | type written => exact has
  | param p => exact .param has
  | field f => exact .field has
  | typed decl written => exact .declared has.1.choose_spec has.2
  | expr e expected => exact has.1
  | stmt s =>
    refine ⟨_, h.inside mem, fun part first => ?_⟩
    obtain rfl : b.part = part := Option.some.inj first
    cases b with
    | stmt above => cases above <;> first | exact ⟨rfl, rfl⟩ | cases shows
    | _ => exact ⟨rfl, rfl⟩

/-- What hides a statement stands right around it. -/
theorem Hidden.within (h : unit.Hidden s) : ∃ part around, unit.Within (part :: around) (.stmt s) ∧
    (part.isFunction = true ∨ part.isClass = true) := by
  cases h with
  | body has =>
    obtain ⟨around, _, within⟩ := has.within
    exact ⟨_, around, within.inside (by simp [Branch.inside, Stmt.inside]), .inl rfl⟩
  | method has mem =>
    obtain ⟨around, _, within⟩ := has.within
    exact ⟨_, around, within.inside (by simp [Branch.inside, Stmt.inside, mem]), .inr rfl⟩

theorem Visible.not_hidden (numbered : unit.WellNumbered) (h : unit.Visible (.stmt s)) :
    ¬unit.Hidden s := by
  intro hidden
  obtain ⟨around, within, plain⟩ := h
  obtain ⟨part, around', within', special⟩ := hidden.within
  obtain rfl : around = part :: around' := congrArg Prod.snd
    (numbered.unique_site within.site within'.site s.id?_part s.id?_part)
  obtain ⟨noFunction, noClass⟩ := plain part rfl
  simp [noFunction, noClass] at special

/-! ### Listings -/

/-- A listing of nodes that are visible in a unit, with no more identities than some visits have. -/
structure Listing (unit : CompilationUnit) (nodes : List Node) (visits : List Visit)
    (listed : List Node) : Prop where
  preorder : Preorder nodes listed
  ids : (listed.map Node.id).Sublist (visited visits)
  visible : ∀ node ∈ listed, unit.Visible node

theorem Listing.flatMap {shown : Branch → List Node} {branches : List Branch}
    (each : ∀ c ∈ branches, ∃ listed, unit.Listing (shown c) c.tour listed) :
    ∃ listed, unit.Listing (branches.flatMap shown) (branches.flatMap Branch.tour) listed := by
  induction branches with
  | nil => exact ⟨[], .nil, .slnil, by simp⟩
  | cons c branches ih =>
    obtain ⟨first, h⟩ := each c (by simp)
    obtain ⟨rest, h'⟩ := ih fun c mem => each c (by simp [mem])
    refine ⟨first ++ rest, h.preorder.append h'.preorder, ?_, fun node mem => ?_⟩
    · rw [map_append, flatMap_cons, visited_append]
      exact h.ids.append h'.ids
    · rcases mem_append.mp mem with mem | mem
      · exact h.visible node mem
      · exact h'.visible node mem

/-- All that is inside a branch can be listed, and the node of the branch in front of it. -/
theorem Within.listing (h : unit.Within around b) : ∃ within,
    Preorder b.node.inside within ∧
      ((b.node :: within).map Node.id).Sublist (visited b.tour) ∧
        ∀ node ∈ within, unit.Visible node := by
  induction b using Branch.induction generalizing around with
  | step b ih =>
    rcases b.id?_node with own | ⟨c, inside, same⟩
    · have each : ∀ c ∈ b.inside, ∃ listed, unit.Listing (b.shown c) c.tour listed := by
        intro c mem
        obtain ⟨within, preorder, ids, visible⟩ := ih c mem (h.inside mem)
        by_cases shows : b.shows c = true
        · refine ⟨c.node :: within, ?_, ids, fun node mem' => ?_⟩
          · rw [Branch.shown, if_pos shows]
            exact preorder.single
          · rcases mem_cons.mp mem' with rfl | mem'
            · exact h.visible mem shows
            · exact visible node mem'
        · refine ⟨within, ?_, (sublist_cons_self ..).trans ids, visible⟩
          rwa [Branch.shown, if_neg shows]
      obtain ⟨within, listing⟩ := Listing.flatMap each
      refine ⟨within, b.inside_node ▸ listing.preorder, ?_, listing.visible⟩
      rw [b.visited_tour, own]
      exact listing.ids.cons_cons _
    · have mem : c ∈ b.inside := inside ▸ .head _
      obtain ⟨within, preorder, ids, visible⟩ := ih c mem (h.inside mem)
      refine ⟨within, same ▸ preorder, ?_, visible⟩
      rw [b.visited_tour, inside, ← same]
      simpa using ids.trans (sublist_append_right ..)

theorem exists_listing (unit : CompilationUnit) :
    ∃ listed, unit.Listing (unit.statements.map .stmt) unit.tour listed := by
  have each : ∀ c ∈ unit.statements.map Branch.stmt, ∃ listed, unit.Listing [c.node] c.tour listed := by
    intro c mem
    obtain ⟨s, top, rfl⟩ := mem_map.mp mem
    obtain ⟨within, preorder, ids, visible⟩ := (Within.top top).listing
    refine ⟨.stmt s :: within, preorder.single, ids, fun node mem' => ?_⟩
    rcases mem_cons.mp mem' with rfl | mem'
    · exact ⟨[], .top top, by simp⟩
    · exact visible node mem'
  obtain ⟨listed, listing⟩ := Listing.flatMap each
  rw [flatMap_map, flatMap_map] at listing
  refine ⟨listed, ?_⟩
  rw [unit.tour_eq, map_eq_flatMap]
  exact listing

/-! ### Nothing is left out -/

section Complete

variable {all : List Node} (preorder : Preorder (unit.statements.map .stmt) all)
  {near : Surroundings}

include preorder

/-- All that is right inside a statement is listed, and the statement unless it is hidden. -/
theorem HasStmt.listed (h : unit.HasStmt near s) :
    (Node.stmt s).inside ⊆ all ∧ (unit.Hidden s ∨ .stmt s ∈ all) := by
  have shown : ∀ {s : Stmt}, .stmt s ∈ all →
      (Node.stmt s).inside ⊆ all ∧ (unit.Hidden s ∨ .stmt s ∈ all) :=
    fun mem => ⟨preorder.inside_subset mem, .inr mem⟩
  induction h with
  | top mem => exact shown (preorder.subset (mem_map_of_mem mem))
  | body has ih =>
    refine ⟨fun node mem => ih.1 ?_, .inl (.body has)⟩
    exact mem_append_right _ (mem_append_right _ mem)
  | method has mem ih =>
    refine ⟨fun node mem' => ih.1 ?_, .inl (.method has mem)⟩
    exact mem_append_right _ (mem_flatMap.mpr ⟨_, mem, mem'⟩)
  | inside _ mem ih => exact shown (ih.1 (mem_map_of_mem mem))
  | _ _ ih => exact shown (ih.1 (by simp [Node.inside]))

theorem HasExpr.listed {e : Expr} (h : unit.HasExpr near e) : .expr e ∈ all := by
  induction h with
  | operand _ mem ih => exact preorder.inside_subset ih (mem_map_of_mem mem)
  | _ has => exact (has.listed preorder).1 (by simp [Node.inside])

theorem HasTypeExpr.listed {written : TypeExpr} (h : unit.HasTypeExpr written) :
    .type written ∈ all := by
  induction h with
  | param has =>
    obtain ⟨near, decl, has, mem⟩ := has
    exact (has.listed preorder).1 (mem_append_left _ (mem_map_of_mem mem))
  | field has =>
    rcases has with ⟨near, decl, has, mem⟩ | ⟨near, decl, has, mem⟩
    · exact (has.listed preorder).1 (mem_map_of_mem mem)
    · exact (has.listed preorder).1 (mem_append_left _ (mem_map_of_mem mem))
  | result has told => exact (has.listed preorder).1 (by simp [Node.inside, FunctionDecl.inside, told])
  | declared has told => exact (has.listed preorder).1 (by simp [Node.inside, told])
  | element _ ih => exact preorder.inside_subset ih (.head _)

end Complete

end CompilationUnit

/-- A walk of a parsed unit visits every statement but the bodies of functions and the methods of
classes, every expression and every type, each once and in preorder.  With a limit it records the
first nodes up to the limit, and it is stopped at the next one if there is one. -/
theorem walk_visits_each_once (tokens : List Token) : ∃ listed : List Node,
    Preorder ((Parser.ofTokens tokens).unit.statements.map .stmt) listed ∧
      (listed.map Node.id).Nodup ∧
      (∀ s, .stmt s ∈ listed ↔ (∃ near, (Parser.ofTokens tokens).unit.HasStmt near s) ∧
        ¬(Parser.ofTokens tokens).unit.Hidden s) ∧
      (∀ e, .expr e ∈ listed ↔ ∃ near, (Parser.ofTokens tokens).unit.HasExpr near e) ∧
      (∀ written, .type written ∈ listed ↔ (Parser.ofTokens tokens).unit.HasTypeExpr written) ∧
      (Parser.ofTokens tokens).unit.visits none = ⟨listed, none⟩ ∧
      ∀ n, (Parser.ofTokens tokens).unit.visits (some n) =
          ⟨listed.take n, listed[n]?.map fun node => "stopped at " ++ node.describe⟩ ∧
        (((Parser.ofTokens tokens).unit.visits (some n)).stopped ≠ none ↔ n < listed.length) := by
  have numbered := Parser.ofTokens_wellNumbered tokens
  generalize (Parser.ofTokens tokens).unit = unit at numbered
  obtain ⟨listed, preorder, ids, visible⟩ := unit.exists_listing
  refine ⟨listed, preorder, ?_, fun s => ⟨fun mem => ?_, ?_⟩, fun e => ⟨visible _, ?_⟩,
    fun written => ⟨visible _, (·.listed preorder)⟩, unit.visits_none preorder, fun n => ?_⟩
  · rw [visited, ← unit.entered_eq] at ids
    exact numbered.parts.sublist ids
  · obtain ⟨around, within, _⟩ := visible _ mem
    exact ⟨within.hasBranch, (visible _ mem).not_hidden numbered⟩
  · rintro ⟨⟨near, has⟩, shown⟩
    exact (has.listed preorder).2.resolve_left shown
  · rintro ⟨near, has⟩
    exact has.listed preorder
  · rw [unit.visits_some preorder n]
    exact ⟨rfl, by simp⟩

end BlFront
