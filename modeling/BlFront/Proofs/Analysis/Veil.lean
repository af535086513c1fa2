import BlFront.Proofs.Analysis.Blindness
import BlFront.Proofs.Analysis.Indifference
import BlFront.Proofs.Analysis.Stages
import BlFront.Proofs.Syntax.Placing.Layout

/-!
# Analyses under a veil

All phases together say of a veiled unit what they say of the unit, veiled.  A veil that shows the
nodes of a unit where they are leaves the unit as it is, so what is said of the unit is said under the
veil as well.
-/

namespace BlFront

open List Reactor

variable {V : Veil}

/-! ### What is seen where it is -/

namespace Veil

/-- The visited parts are seen where they are. -/
def Shows (V : Veil) (visits : List Visit) : Prop :=
  ∀ v ∈ visits, ∀ span ∈ v.part.spans, V.place span = span

theorem shows_inside {b c : Branch} (h : V.Shows b.tour) (mem : c ∈ b.inside) : V.Shows c.tour := by
  intro v visited
  rw [b.tour_eq] at h
  exact h v (Part.mem_around.mpr (.inr (.inl (mem_flatMap.mpr ⟨c, mem, visited⟩))))

theorem shows_part {b : Branch} (h : V.Shows b.tour) :
    ∀ span ∈ b.part.spans, V.place span = span :=
  h _ b.enter_mem_tour

end Veil

theorem Tag.veiled_eq (tag : Tag) (h : V.place tag.span = tag.span) : tag.veiled V = tag := by
  rw [Tag.veiled, h]

/-- Items that are seen as they are, one by one. -/
theorem map_veiled_eq {α : Type} {veiled : α → α} {xs : List α} (each : ∀ x ∈ xs, veiled x = x) :
    xs.map veiled = xs :=
  (map_congr_left each).trans (map_id _)

theorem option_veiled_eq {α : Type} {veiled : α → α} {x : Option α}
    (each : ∀ a, x = some a → veiled a = a) : x.map veiled = x := by
  cases x with
  | none => rfl
  | some a => exact congrArg some (each a rfl)

/-- A branch is seen as it is.  An annotation is seen so if its type is. -/
def Branch.Seen (V : Veil) : Branch → Prop
  | .type written => written.veiled V = written
  | .param decl => decl.veiled V = decl
  | .field decl => decl.veiled V = decl
  | .typed _ written => written.veiled V = written
  | .expr e _ => e.veiled V = e
  | .stmt s => s.veiled V = s

theorem Stmt.veiled_eq {s : Stmt} (here : ∀ span ∈ s.part.spans, V.place span = span)
    (within : ∀ c ∈ s.inside, c.Seen V) : s.veiled V = s := by
  have place : V.place s.span = s.span := s.span_part ▸ here _ s.part.span_mem_spans
  have tag : s.tag.veiled V = s.tag := Tag.veiled_eq _ place
  cases s with
  | funDecl decl =>
    obtain ⟨tag, name, params, returnType, body⟩ := decl
    simp_all [Stmt.veiled, FunctionDecl.veiled, Stmt.tag, Stmt.inside, Branch.Seen, or_imp, forall_and,
      map_veiled_eq, option_veiled_eq]
  | structDecl decl =>
    obtain ⟨tag, name, fields⟩ := decl
    simp_all [Stmt.veiled, StructDecl.veiled, Stmt.tag, Stmt.inside, Branch.Seen, map_veiled_eq]
  | classDecl decl =>
    obtain ⟨tag, name, superclass, fields, methods⟩ := decl
    have above : superclass.map (Ident.veiled V) = superclass := option_veiled_eq fun i told => by
      rw [Ident.veiled, here i.span (by simp [Stmt.part, Part.spans, told])]
    simp_all [Stmt.veiled, ClassDecl.veiled, Stmt.tag, Stmt.inside, Branch.Seen, or_imp, forall_and,
      map_veiled_eq]
  | varDecl decl =>
    obtain ⟨tag, name, type, initializer⟩ := decl
    cases type <;> simp_all [Stmt.veiled, VarDecl.veiled, Stmt.tag, Stmt.inside, Branch.Seen]
  | ifElse tag condition first second =>
    cases second <;> simp_all [Stmt.veiled, Stmt.tag, Stmt.inside, Branch.Seen]
  | block body =>
    obtain ⟨tag, statements⟩ := body
    simp_all [Stmt.veiled, Block.veiled, Stmt.tag, Stmt.inside, Branch.Seen, map_veiled_eq]
  | _ => simp_all [Stmt.veiled, Stmt.tag, Stmt.inside, Branch.Seen, option_veiled_eq]

theorem Branch.seen_of_shows (b : Branch) (h : V.Shows b.tour) : b.Seen V := by
  induction b using Branch.induction with
  | step b ih =>
    have here := Veil.shows_part h
    have within : ∀ c ∈ b.inside, c.Seen V := fun c mem => ih c mem (Veil.shows_inside h mem)
    cases b with
    | stmt s => exact Stmt.veiled_eq here within
    | type written =>
      have tag := Tag.veiled_eq written.tag (here _ (.head _))
      cases written <;> simp_all [Seen, TypeExpr.veiled, TypeExpr.tag, inside]
    | param decl =>
      have tag := Tag.veiled_eq decl.tag (here _ (.head _))
      simp_all [Seen, TypedName.veiled, inside]
    | field decl =>
      have tag := Tag.veiled_eq decl.tag (here _ (.head _))
      simp_all [Seen, TypedName.veiled, inside]
    | typed decl written => exact within (.type written) (.head _)
    | expr e expected =>
      have tag := Tag.veiled_eq e.tag (here _ (.head _))
      cases e <;> simp_all [Seen, Expr.veiled, Expr.tag, Expr.operands, inside, map_veiled_eq]

theorem CompilationUnit.veiled_eq {unit : CompilationUnit}
    (here : V.place unit.tag.span = unit.tag.span) (inside : V.Shows unit.tour) :
    unit.veiled V = unit := by
  have each : ∀ s ∈ unit.statements, s.veiled V = s := by
    intro s mem
    have shown : V.Shows s.tour := fun v visited =>
      inside v (unit.tour_eq ▸ mem_flatMap.mpr ⟨s, mem, visited⟩)
    exact Branch.seen_of_shows (.stmt s) shown
  rw [CompilationUnit.veiled, unit.tag.veiled_eq here, veiledStmts_eq_map, map_veiled_eq each]

/-! ### Phases -/

namespace Analysis

def veiled (V : Veil) (a : Analysis) : Analysis :=
  ⟨a.unit.veiled V, a.symbols.veiled V, a.reactor.veiled V⟩

variable {a b : Analysis} (phase : Phase)

theorem veiled_clear (free : a.reactor.rules = []) : a.veiled .clear = a := by
  rw [veiled, CompilationUnit.veiled_eq rfl fun _ _ _ _ => rfl, a.symbols.veiled_clear,
    Reactor.veiled_clear free]

theorem plan_veiled (V : Veil) (a : Analysis) :
    (a.veiled V).plan phase = ((a.plan phase).1.veiled V, (a.plan phase).2.map (Request.veiled V)) := by
  have parts {requests requests' : Part → List Request}
      (each : ∀ part, (requests part).map (Request.veiled V) = requests' (part.veiled V))
      (parts : List Part) : (parts.map (Part.veiled V)).flatMap requests' =
        (parts.flatMap requests).map (Request.veiled V) := by
    rw [flatMap_map, map_flatMap]
    exact flatMap_congr fun part _ => (each part).symm
  cases phase with
  | resolveReferences => exact Names.plan_veiled V a.unit a.symbols
  | resolveTypes =>
    refine congrArg (a.symbols.veiled V, ·) ?_
    rw [Types.plan, veiled, a.unit.left_veiled]
    exact parts Types.partRequests_veiled a.unit.left
  | checkInferred =>
    exact congrArg (a.symbols.veiled V, ·) (Inferred.plan_veiled V a.reactor a.unit).symm
  | checkTypes =>
    refine congrArg (a.symbols.veiled V, ·) ?_
    rw [Checks.plan, veiled, a.unit.entered_veiled]
    exact parts Checks.partRequests_veiled a.unit.entered
  | checkReturns =>
    refine congrArg (a.symbols.veiled V, ·) ?_
    rw [Returns.plan, veiled, a.unit.left_veiled]
    exact parts Returns.partRequests_veiled a.unit.left

/-- A phase says of a veiled unit what it says of the unit. -/
theorem advance_veiled (free : a.reactor.rules = []) :
    (a.veiled V).advance phase = (a.advance phase).map (veiled V) := by
  have planned := a.plan_veiled phase .clear
  rw [veiled_clear free] at planned
  have blind : (a.plan phase).2.map (Request.veiled .clear) = (a.plan phase).2 :=
    (congrArg Prod.snd planned).symm
  rw [advance, advance, plan_veiled]
  generalize a.plan phase = planned at blind ⊢
  obtain ⟨symbols, requests⟩ := planned
  have passed : (a.veiled V).reactor.runPass (symbols.veiled V) (requests.map (Request.veiled V)) =
      (a.reactor.runPass symbols requests).map (Reactor.veiled V) :=
    Reactor.runPass_blind V free blind
  simp only [passed]
  cases a.reactor.runPass symbols requests <;> rfl

end Analysis

def AnalysisError.veiled (V : Veil) : AnalysisError → AnalysisError
  | .rejected phase errors => .rejected phase (errors.map (SemanticError.veiled V))
  | .internal error => .internal error

namespace Analysis

/-- What comes of an analysis, veiled. -/
def veiledOutcome (V : Veil) (outcome : Except AnalysisError Analysis) :
    Except AnalysisError Analysis :=
  (outcome.mapError (AnalysisError.veiled V)).map (veiled V)

variable {a b : Analysis} (phase : Phase)

theorem step_veiled (free : a.reactor.rules = []) :
    (a.veiled V).step phase = veiledOutcome V (a.step phase) := by
  rw [step, step, advance_veiled phase free]
  cases a.advance phase with
  | error e => rfl
  | ok b =>
    have errors : (b.veiled V).reactor.rootErrors =
        b.reactor.rootErrors.map (SemanticError.veiled V) := b.reactor.rootErrors_veiled V
    simp only [Except.map, errors, isEmpty_map]
    split <;> rfl

theorem rules_of_step (stepped : a.step phase = .ok b) : b.reactor.rules = [] :=
  rules_of_runPass (runPass_of_advance (step_eq_ok.mp stepped).1)

theorem foldlM_step_veiled (phases : List Phase) (free : a.reactor.rules = []) :
    phases.foldlM step (a.veiled V) = veiledOutcome V (phases.foldlM step a) := by
  induction phases generalizing a with
  | nil => rfl
  | cons phase phases ih =>
    rw [foldlM_cons, foldlM_cons, step_veiled phase free]
    cases stepped : a.step phase with
    | error e => rfl
    | ok b => exact ih (rules_of_step phase stepped)

theorem start_veiled (V : Veil) (unit : CompilationUnit) :
    start (unit.veiled V) = (start unit).map (veiled V) := by
  unfold start
  generalize planned : SymbolTable.builtinTypes.map _ = seeds
  dsimp only
  have seeded : empty.performRequests seeds =
      (Reactor.empty.performRequests seeds).map (Reactor.veiled V) := by
    have plain : seeds.map (Request.veiled V) = seeds := by
      rw [← planned, map_map]
      rfl
    have performed := performRequests_veiled (V := V) .empty seeds
    rwa [plain] at performed
  cases found : empty.performRequests seeds with
  | error e => rfl
  | ok r =>
    rw [found] at seeded
    have same : r = r.veiled V := Except.ok.inj seeded
    exact congrArg (fun r => Except.ok (Analysis.mk (unit.veiled V) .initial r)) same

end Analysis

theorem analyzeUntil_veiled (V : Veil) (unit : CompilationUnit) (last : Phase) :
    analyzeUntil (unit.veiled V) last = Analysis.veiledOutcome V (analyzeUntil unit last) := by
  obtain ⟨a, started, begun⟩ := Analysis.start_begun unit
  rw [analyzeUntil, analyzeUntil, Analysis.start_veiled, started]
  exact Analysis.foldlM_step_veiled last.upTo begun.settled.resting.rules

end BlFront
