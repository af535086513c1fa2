import BlFront.Proofs.Syntax.Reading.Stmt

/-!
# Nodes span what is inside them

What is laid out along a tour, told node by node: the span of a node encloses the spans of the nodes
right inside it, and these stand one behind the other.  The tour of a node is recognized in the tour
of what is around it, since a visit that leaves a part belongs to the nearest one that entered it.
-/

namespace BlFront

open List

variable {decl : ClassDecl}

/-! ### Nodes and what is right inside them -/

/-- Spans that are within another and stand one behind the other. -/
structure Span.Encloses (outer : Span) (inner : List Span) : Prop where
  within : ∀ span ∈ inner, outer.start ≤ span.start ∧ span.stop ≤ outer.stop
  ordered : inner.Pairwise fun a b => a.stop ≤ b.start

/-- Where the element of a written type stands. -/
def TypeExpr.childSpans : TypeExpr → List Span
  | .named _ _ => []
  | .array _ element => [element.span]

/-- Where the members of a class stand, whichever comes first. -/
def ClassDecl.memberSpans (decl : ClassDecl) : List Span :=
  (decl.fields.map (·.tag.span)).merge (decl.methods.map (·.tag.span)) fun a b => a.start ≤ b.start

/-- Where the nodes right inside a statement stand, in the order of the source.  The name of a
superclass counts as one. -/
def Stmt.childSpans : Stmt → List Span
  | .funDecl decl => decl.params.map (·.tag.span) ++
      (decl.returnType.toList.map TypeExpr.span ++ [decl.body.tag.span])
  | .structDecl decl => decl.fields.map (·.tag.span)
  | .classDecl decl => decl.superclass.toList.map (·.span) ++ decl.memberSpans
  | .varDecl decl => decl.type.toList.map TypeExpr.span ++ [decl.initializer.span]
  | .block body => body.statements.map Stmt.span
  | .ifElse _ condition first second => condition.span :: first.span :: second.toList.map Stmt.span
  | .whileLoop _ condition body => [condition.span, body.span]
  | .returnStmt _ value => value.toList.map Expr.span
  | .exprStmt _ e => [e.span]

/-- A node of a unit by where it stands, with where the nodes right inside it stand. -/
inductive CompilationUnit.NodeAt (unit : CompilationUnit) : Span → List Span → Prop
  | unit : NodeAt unit unit.tag.span (unit.statements.map Stmt.span)
  | stmt {near : Surroundings} {s : Stmt} (h : unit.HasStmt near s) : NodeAt unit s.span s.childSpans
  | expr {near : Surroundings} {e : Expr} (h : unit.HasExpr near e) :
      NodeAt unit e.span (e.children.map Expr.span)
  | type {written : TypeExpr} (h : unit.HasTypeExpr written) :
      NodeAt unit written.span written.childSpans
  | param {p : TypedName} (h : unit.HasParam p) : NodeAt unit p.tag.span [p.type.span]
  | field {f : TypedName} (h : unit.HasField f) : NodeAt unit f.tag.span [f.type.span]

/-! ### Spans in a row -/

/-- Spans that stand one behind the other from one place to another. -/
def InRow : Nat → Nat → List Span → Prop
  | lo, hi, [] => lo ≤ hi
  | lo, hi, span :: spans => lo ≤ span.start ∧ span.start ≤ span.stop ∧ InRow span.stop hi spans

namespace InRow

variable {lo mid hi : Nat} {spans more : List Span}

theorem append (h : InRow lo mid spans) (h' : InRow mid hi more) : InRow lo hi (spans ++ more) := by
  induction spans generalizing lo with
  | nil =>
    cases more with
    | nil => exact Nat.le_trans h h'
    | cons span more => exact ⟨Nat.le_trans h h'.1, h'.2⟩
  | cons span spans ih => exact ⟨h.1, h.2.1, ih h.2.2⟩

theorem le (h : InRow lo hi spans) : lo ≤ hi := by
  induction spans generalizing lo with
  | nil => exact h
  | cons span spans ih =>
    obtain ⟨start, proper, rest⟩ := h
    have := ih rest
    omega

theorem within (h : InRow lo hi spans) : ∀ span ∈ spans, lo ≤ span.start ∧ span.stop ≤ hi := by
  induction spans generalizing lo with
  | nil => simp
  | cons first spans ih =>
    obtain ⟨start, proper, rest⟩ := h
    intro span mem
    rcases mem_cons.mp mem with rfl | mem
    · exact ⟨start, rest.le⟩
    · have := ih rest span mem
      omega

theorem ordered (h : InRow lo hi spans) : spans.Pairwise fun a b => a.stop ≤ b.start := by
  induction spans generalizing lo with
  | nil => exact .nil
  | cons first spans ih => exact .cons (fun span mem => (h.2.2.within span mem).1) (ih h.2.2)

theorem encloses {outer : Span} (h : InRow outer.start outer.stop spans) : outer.Encloses spans :=
  ⟨h.within, h.ordered⟩

end InRow

/-- All spans of both rows stand behind where they start. -/
theorem Mingled.behind {lo hi : Nat} {row other : List Span} (h : Mingled lo hi row other) :
    (∀ span ∈ row, lo ≤ span.start) ∧ ∀ span ∈ other, lo ≤ span.start := by
  induction h with
  | nil le => simp
  | first le proper _ ih =>
    refine ⟨fun span mem => ?_, fun span mem => ?_⟩
    · rcases mem_cons.mp mem with rfl | mem
      · exact le
      · have := ih.1 span mem
        omega
    · have := ih.2 span mem
      omega
  | second le proper _ ih =>
    refine ⟨fun span mem => ?_, fun span mem => ?_⟩
    · have := ih.1 span mem
      omega
    · rcases mem_cons.mp mem with rfl | mem
      · exact le
      · have := ih.2 span mem
        omega

/-- The order in which rows are mixed can be told from where the spans start. -/
theorem Mingled.inRow_merge {lo hi : Nat} {row other : List Span} (h : Mingled lo hi row other) :
    InRow lo hi (row.merge other fun a b => a.start ≤ b.start) := by
  induction h with
  | nil le => simpa [InRow] using le
  | @first lo hi span row other le proper rest ih =>
    have next : (span :: row).merge other (fun a b => a.start ≤ b.start) =
        span :: row.merge other fun a b => a.start ≤ b.start := by
      cases other with
      | nil => simp
      | cons second other =>
        have := rest.behind.2 second (by simp)
        rw [cons_merge_cons_pos]
        simp only [decide_eq_true_eq]
        omega
    rw [next]
    exact ⟨le, Nat.le_of_lt proper, ih⟩
  | @second lo hi span row other le proper rest ih =>
    have next : row.merge (span :: other) (fun a b => a.start ≤ b.start) =
        span :: row.merge other fun a b => a.start ≤ b.start := by
      cases row with
      | nil => simp
      | cons first row =>
        have := rest.behind.1 first (by simp)
        rw [cons_merge_cons_neg]
        simp only [decide_eq_true_eq]
        omega
    rw [next]
    exact ⟨le, Nat.le_of_lt proper, ih⟩

/-! ### Which visits belong to a part -/

theorem Laid.tree {lo hi : Nat} {visits : List Visit} (h : Laid lo hi visits) : Tree visits := by
  induction h with
  | nil => exact .nil
  | part _ _ _ _ inner rest => exact .part inner rest
  | members _ _ _ _ _ first second rest => exact .part (first.append second) rest

/-- The visits before the one that leaves a part, which so many others are still inside. -/
def upToLeave : Nat → List Visit → List Visit
  | _, [] => []
  | depth, .enter part :: visits => .enter part :: upToLeave (depth + 1) visits
  | 0, .leave _ :: _ => []
  | depth + 1, .leave part :: visits => .leave part :: upToLeave depth visits

theorem Tree.upToLeave_append {visits : List Visit} (h : Tree visits) (depth : Nat)
    (rest : List Visit) : upToLeave depth (visits ++ rest) = visits ++ upToLeave depth rest := by
  induction h generalizing depth rest with
  | nil => rfl
  | part _ _ inside more =>
    simp only [Part.around, cons_append, append_assoc, upToLeave, inside, more,
      nil_append]

/-- A part and what is inside it are told by the visits. -/
theorem around_inj {part part' : Part} {inside inside' more more' : List Visit}
    (h : Tree inside) (h' : Tree inside')
    (same : part.around inside ++ more = part'.around inside' ++ more') :
    part = part' ∧ inside = inside' ∧ more = more' := by
  simp only [Part.around, cons_append, append_assoc, List.cons.injEq, Visit.enter.injEq,
    nil_append] at same
  obtain ⟨rfl, same⟩ := same
  have cut := congrArg (upToLeave 0) same
  rw [h.upToLeave_append, h'.upToLeave_append] at cut
  obtain rfl : inside = inside' := by simpa [upToLeave] using cut
  exact ⟨rfl, rfl, (List.cons.inj (append_cancel_left same)).2⟩

/-- A branch is laid out where it stands. -/
def Branch.Lies (b : Branch) : Prop := Laid b.part.span.start b.part.span.stop b.tour

namespace Laid

variable {lo hi : Nat} {inside more : List Visit} {part : Part}

/-- What is laid out starts with a part that is laid out where it stands. -/
theorem head (h : Laid lo hi (part.around inside ++ more)) (tree : Tree inside) :
    lo ≤ part.span.start ∧ Laid part.span.start part.span.stop (part.around inside) ∧
      Laid part.span.stop hi more := by
  generalize same : part.around inside ++ more = visits at h
  cases h with
  | nil le => cases same
  | part plain le inner rest =>
    obtain ⟨rfl, rfl, rfl⟩ := around_inj tree inner.tree same
    exact ⟨le, inner.around plain, rest⟩
  | members le arranged first second rest =>
    obtain ⟨rfl, rfl, rfl⟩ := around_inj tree (first.tree.append second.tree) same
    have whole := Laid.members (Nat.le_refl _) arranged first second (.nil (Nat.le_refl _))
    rw [append_nil] at whole
    exact ⟨le, whole, rest⟩

/-- Branches one behind the other. -/
theorem row {bs : List Branch} (h : Laid lo hi (bs.flatMap Branch.tour)) :
    InRow lo hi (bs.map (·.part.span)) ∧ ∀ b ∈ bs, b.Lies := by
  induction bs generalizing lo with
  | nil => exact ⟨h.le, fun b mem => by cases mem⟩
  | cons b bs ih =>
    rw [flatMap_cons, b.tour_eq] at h
    obtain ⟨le, whole, rest⟩ := h.head b.tree_inside
    rw [← b.tour_eq] at whole
    obtain ⟨others, each⟩ := ih rest
    exact ⟨⟨le, whole.le, others⟩, forall_mem_cons.mpr ⟨whole, each⟩⟩

theorem row_stmts {ss : List Stmt} (h : Laid lo hi (ss.flatMap Stmt.tour)) :
    InRow lo hi (ss.map fun s => s.part.span) ∧ ∀ s ∈ ss, Branch.Lies (.stmt s) := by
  have branches : ss.flatMap Stmt.tour = (ss.map Branch.stmt).flatMap Branch.tour := by
    rw [flatMap_map]
    rfl
  obtain ⟨row, each⟩ := (branches ▸ h).row
  rw [map_map] at row
  exact ⟨row, fun s mem => each _ (mem_map_of_mem mem)⟩

end Laid

/-! ### What is right inside a node -/

theorem Branch.Lies.row {b : Branch} (h : b.Lies) (plain : b.part.isClass = false) :
    InRow b.part.span.start b.part.span.stop (b.inside.map (·.part.span)) ∧ ∀ c ∈ b.inside, c.Lies := by
  unfold Branch.Lies at h
  generalize same : b.tour = visits at h
  rw [b.tour_eq, ← append_nil (Part.around _ _)] at same
  cases h with
  | nil le => cases same
  | part _ _ inner _ =>
    obtain ⟨rfl, rfl, _⟩ := around_inj b.tree_inside inner.tree same
    exact inner.row
  | members _ _ first second _ =>
    obtain ⟨same, _⟩ := around_inj b.tree_inside (first.tree.append second.tree) same
    rw [same] at plain
    cases plain

/-- A class is laid out as its members are arranged. -/
theorem Branch.Lies.of_class (h : (Branch.stmt (.classDecl decl)).Lies) :
    (∃ place, decl.Arranged place) ∧ ∀ c ∈ (Stmt.classDecl decl).inside, c.Lies := by
  unfold Branch.Lies at h
  generalize same : (Branch.stmt (.classDecl decl)).tour = visits at h
  rw [Branch.tour_eq, ← append_nil (Part.around _ _)] at same
  cases h with
  | nil le => cases same
  | part plain _ inner _ =>
    obtain ⟨rfl, _⟩ := around_inj (Branch.tree_inside _) inner.tree same
    cases plain
  | members _ arranged first second _ =>
    obtain ⟨part, _⟩ := around_inj (Branch.tree_inside _) (first.tree.append second.tree) same
    cases part
    have fields : decl.fields.flatMap fieldTour = (decl.fields.map Branch.field).flatMap Branch.tour := by
      rw [flatMap_map]
      rfl
    have methods : functionsTour decl.methods =
        (decl.methods.map fun f => Branch.stmt (.funDecl f)).flatMap Branch.tour := by
      rw [functionsTour_eq, flatMap_map]
      simp only [Branch.tour, Stmt.tour]
    rw [fields] at first
    rw [methods] at second
    exact ⟨⟨_, arranged⟩, forall_mem_append.mpr ⟨first.row.2, second.row.2⟩⟩

theorem Branch.Lies.inside {b c : Branch} (h : b.Lies) (mem : c ∈ b.inside) : c.Lies := by
  by_cases plain : b.part.isClass = false
  · exact (h.row plain).2 c mem
  · cases b with
    | stmt s =>
      cases s with
      | classDecl decl => exact h.of_class.2 c mem
      | _ => exact absurd rfl plain
    | _ => exact absurd rfl plain

theorem ClassDecl.Arranged.encloses {place : Nat} (h : decl.Arranged place) :
    decl.tag.span.Encloses (Stmt.classDecl decl).childSpans := by
  have head : InRow decl.tag.span.start place (decl.superclass.toList.map (·.span)) := by
    cases told : decl.superclass with
    | none => exact h.start
    | some name => exact h.superclass name told
  exact (head.append h.members.inRow_merge).encloses

theorem Stmt.spans_inside {s : Stmt} (plain : s.part.isClass = false) :
    s.inside.map (·.part.span) = s.childSpans := by
  have stmts : ∀ s : Stmt, (Branch.stmt s).part.span = s.span := span_part
  cases s with
  | classDecl decl => cases plain
  | varDecl decl =>
    cases told : decl.type <;> simp [inside, childSpans, told, Branch.part, Part.span]
  | _ =>
    simp only [inside, childSpans, map_append, map_map, map_cons, Function.comp_def,
      stmts] <;> rfl

/-! ### Nodes of a unit -/

namespace CompilationUnit

variable {unit : CompilationUnit} {lo hi : Nat}

theorem Within.lies {around : List Part} {b : Branch} (h : unit.Within around b)
    (laid : Laid lo hi unit.tour) : b.Lies := by
  induction h with
  | top mem => exact (unit.tour_eq ▸ laid).row_stmts.2 _ mem
  | inside _ mem ih => exact ih.inside mem

/-- The span is that of a part of the unit or of the name of a superclass. -/
def Tells (unit : CompilationUnit) (span : Span) : Prop := ∃ part ∈ unit.entered, span ∈ part.spans

theorem tells_of_entered {part : Part} (h : part ∈ unit.entered) : unit.Tells part.span :=
  ⟨part, h, part.span_mem_spans⟩

theorem Tells.bounded {tokens : List Token} {span : Span} (h : unit.Tells span)
    (grounded : Grounded tokens unit.tour) : span.Bounded tokens := by
  obtain ⟨part, entered, told⟩ := h
  exact grounded _ (mem_entered.mp entered) span told

theorem Tells.ordered {span : Span} (h : unit.Tells span) (laid : Laid lo hi unit.tour) :
    span.start ≤ span.stop := by
  obtain ⟨part, entered, told⟩ := h
  exact (laid.places _ (mem_entered.mp entered)).2 span told

theorem NodeAt.tells {span : Span} {children : List Span} (h : unit.NodeAt span children) :
    span = unit.tag.span ∨ unit.Tells span := by
  cases h with
  | unit => exact .inl rfl
  | @stmt _ s h =>
    rw [← s.span_part]
    exact .inr (tells_of_entered h.entered)
  | expr h =>
    obtain ⟨_, entered⟩ := h.entered
    exact .inr (tells_of_entered entered)
  | type h => exact .inr (tells_of_entered h.entered)
  | param h => exact .inr (tells_of_entered h.entered)
  | field h => exact .inr (tells_of_entered h.entered)

/-- Nodes inside a unit enclose what is right inside them. -/
theorem NodeAt.nests {span : Span} {children : List Span} (h : unit.NodeAt span children)
    (laid : Laid lo hi unit.tour) (whole : unit.tag.span.Encloses (unit.statements.map Stmt.span)) :
    span.Encloses children := by
  cases h with
  | unit => exact whole
  | @stmt near s h =>
    obtain ⟨_, _, within⟩ := h.within
    have lies := within.lies laid
    by_cases plain : s.part.isClass = false
    · rw [← s.span_part, ← Stmt.spans_inside plain]
      exact (lies.row plain).1.encloses
    · cases s with
      | classDecl decl =>
        obtain ⟨⟨_, arranged⟩, _⟩ := lies.of_class
        exact arranged.encloses
      | _ => exact absurd rfl plain
  | @expr near e h =>
    obtain ⟨_, expected, _, within⟩ := h.within
    have row := ((within.lies laid).row rfl).1
    rw [Branch.inside, map_map] at row
    rw [← e.map_fst_operands expected, map_map]
    exact row.encloses
  | @type written h =>
    obtain ⟨_, within⟩ := h.within
    have row := ((within.lies laid).row rfl).1
    cases written <;> exact row.encloses
  | param h =>
    obtain ⟨_, within⟩ := h.within
    exact ((within.lies laid).row rfl).1.encloses
  | field h =>
    obtain ⟨_, within⟩ := h.within
    exact ((within.lies laid).row rfl).1.encloses

end CompilationUnit

end BlFront
