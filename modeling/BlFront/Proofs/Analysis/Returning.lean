import BlFront.Proofs.Analysis.Flows

/-!
# Missing returns are found exactly

A function is reported exactly if it has to return something and some path through its body reaches
the end.
-/

namespace BlFront

open List CompilationUnit

variable {decl : FunctionDecl} {r : Reactor} {tag : Tag}

open Names

/-! ### Rules -/

namespace Returns

variable {t : SymbolTable}

theorem errors_blockRule (block : Block) (lookup : Attribute → Option Value) :
    (Request.register (blockRule block)).errors t lookup = [] :=
  Rule.flatMap_silent _ _ _ _ fun _ => ⟨_, rfl⟩

theorem errors_ifRequest (tag : Tag) (first : Stmt) (second : Option Stmt)
    (lookup : Attribute → Option Value) : (ifRequest tag first second).errors t lookup = [] := by
  unfold ifRequest
  split
  · split
    · exact Rule.flatMap_silent _ _ _ _ fun _ => ⟨_, rfl⟩
    · rfl
  · rfl

theorem needsReturn_iff {type : Ty} : needsReturn type = true ↔
    ∃ params result, type = .function params result ∧ result ≠ .unit := by
  cases type with
  | function params result => cases result <;> simp [needsReturn, BEq.beq, Ty.same]
  | _ => simp [needsReturn]

end Returns

namespace Analysis

variable {unit : CompilationUnit} {a₁ a₂ a₃ a₄ a₅ : Analysis}

/-! ### Reports -/

/-- The return type of a function is not `Unit`. -/
def MustReturn (a : Analysis) (decl : FunctionDecl) : Prop :=
  ∃ symbol params result, a.symbolOf? decl.tag.id = some symbol ∧
    a.typeOf? (.symbol symbol) = some (.function params result) ∧ result ≠ .unit

def missingReturn (decl : FunctionDecl) : SemanticError := ⟨decl.tag.span, "missing return"⟩

/-- What is found out about returns is right. -/
structure ReturnsExact (unit : CompilationUnit) (a : Analysis) : Prop where
  /-- Both passes say of a block, a conditional or a return whether no path reaches its end. -/
  flags : ∀ {near s}, unit.HasStmt near s → s.contributes = true →
    ∃ flag flow, a.get? s.id .returns = some (.flag flag) ∧
      a.get? s.id .returnType = some (.flow flow) ∧ flow.terminates = flag ∧
      (flag = true ↔ ¬s.Ends .falls)
  /-- Each function that has to return a value and need not do so is reported once. -/
  reports : ∃ decls : List FunctionDecl, (decls.map (·.tag.id)).Nodup ∧
    (∀ decl, decl ∈ decls ↔ (∃ near, unit.HasStmt near (.funDecl decl)) ∧ a.MustReturn decl ∧
      (Stmt.block decl.body).Ends .falls) ∧
    a.reactor.rootErrors.Perm (decls.map missingReturn)

theorem Checked.function_signed (h : Checked unit a₁ a₂ a₃ a₄) (ran : Ran .checkReturns a₄ a₅)
    (entered : .function decl ∈ unit.entered) :
    ∃ type, a₅.reactor.get? (typeOf (symbolAt a₄.reactor decl.tag.id)) = some (.type type) := by
  have bound := (h.known.typed.bindings.symbolAt entered rfl rfl).2
  have keeps := h.known.ran.passed.keeps.trans h.ran.passed.keeps
  have same : symbolAt a₄.reactor decl.tag.id = symbolAt a₂.reactor decl.tag.id :=
    Names.symbolAt_eq (keeps.get? bound)
  have typed := hasType_iff.mp (h.known.looked entered (.head _))
  rw [same]
  exact ⟨_, (keeps.trans ran.passed.keeps).get? typed⟩

theorem Checked.body_flag (h : Checked unit a₁ a₂ a₃ a₄) (ran : Ran .checkReturns a₄ a₅)
    (entered : .function decl ∈ unit.entered) :
    ∃ flag, a₅.reactor.get? (AttrName.returns.of decl.body.tag.id) = some (.flag flag) ∧
      (flag = true ↔ ¬(Stmt.block decl.body).Ends .falls) :=
  h.flag_iff ran (s := .block decl.body) rfl
    (child_entered entered (by simp [Part.children, Stmt.part]))

/-- A function that has to return a value and need not do so. -/
def isGuilty (r r' : Reactor) (decl : FunctionDecl) : Bool :=
  ((r'.getAs? Kind.type (typeOf (symbolAt r decl.tag.id))).any Returns.needsReturn) &&
    !flagAt r' (AttrName.returns.of decl.body.tag.id)

def guilty? (r r' : Reactor) : Part → Option FunctionDecl
  | .function decl => if isGuilty r r' decl then some decl else none
  | _ => none

theorem Checked.errors_part (h : Checked unit a₁ a₂ a₃ a₄) (ran : Ran .checkReturns a₄ a₅)
    {part : Part} (entered : part ∈ unit.entered) :
    (Returns.partRequests a₄.reactor part).flatMap (Request.errors (table unit) a₅.reactor.get?) =
      (guilty? a₄.reactor a₅.reactor part).toList.map missingReturn := by
  cases part with
  | function decl =>
    obtain ⟨type, typed⟩ := h.function_signed ran entered
    obtain ⟨flag, flagged, _⟩ := h.body_flag ran entered
    let held : Attribute → Value := fun d => (a₅.reactor.get? d).getD (.flag false)
    have computes : (Returns.functionRule decl (symbolAt a₄.reactor decl.tag.id)).Computes
        (table unit) held
        (if Returns.needsReturn type && !flag then [.report (missingReturn decl)] else []) :=
      Returns.functionRule_computes (by simp [held, typed]) (by simp [held, flagged])
    have found : ∀ d ∈ (Returns.functionRule decl (symbolAt a₄.reactor decl.tag.id)).deps,
        a₅.reactor.get? d = some (held d) := by
      intro d hd
      rcases mem_pair.mp hd with rfl | rfl
      · simp [held, typed]
      · simp [held, flagged]
    rw [Returns.function_requests h.bindings entered, flatMap_singleton, Request.errors,
      Rule.errors_of_computes found computes, guilty?, isGuilty, getAs?_type.mpr typed,
      flagAt_eq flagged, Option.any_some]
    split <;> rfl
  | block body =>
    rw [Returns.partRequests, flatMap_singleton, Returns.errors_blockRule]
    rfl
  | ifElse tag condition first second =>
    rw [Returns.partRequests, flatMap_singleton, Returns.errors_ifRequest]
    rfl
  | _ => rfl

theorem Checked.isGuilty_iff (h : Checked unit a₁ a₂ a₃ a₄) (ran : Ran .checkReturns a₄ a₅)
    (entered : .function decl ∈ unit.entered) :
    isGuilty a₄.reactor a₅.reactor decl = true ↔
      a₅.MustReturn decl ∧ (Stmt.block decl.body).Ends .falls := by
  obtain ⟨type, typed⟩ := h.function_signed ran entered
  obtain ⟨flag, flagged, exact_⟩ := h.body_flag ran entered
  have bound := ran.passed.keeps.get? (h.bindings.symbolAt entered rfl rfl).2
  rw [isGuilty, getAs?_type.mpr typed, flagAt_eq flagged, Option.any_some, Bool.and_eq_true,
    Returns.needsReturn_iff, Bool.not_eq_true', ← Bool.not_eq_true, exact_, not_not]
  refine and_congr_left fun _ => ?_
  constructor
  · rintro ⟨params, result, rfl, other⟩
    exact ⟨_, params, result, getAs?_symbol.mpr bound, getAs?_type.mpr typed, other⟩
  · rintro ⟨symbol, params, result, found, typed', other⟩
    rw [symbolOf?, getAs?_symbol.mpr bound, Option.some.injEq] at found
    subst found
    rw [typeOf?, getAs?_type.mpr typed, Option.some.injEq] at typed'
    exact ⟨params, result, typed', other⟩

theorem Checked.returnsExact (h : Checked unit a₁ a₂ a₃ a₄) (numbered : unit.WellNumbered)
    (ran : Ran .checkReturns a₄ a₅) : a₅.ReturnsExact unit where
  flags has contributes := by
    obtain ⟨flag, flagged, exact_⟩ := h.flag_iff ran contributes has.entered
    obtain ⟨flow, found, told⟩ := h.known.flow contributes has.entered
    have keeps := (h.known.ran.passed.keeps.trans h.ran.passed.keeps).trans ran.passed.keeps
    refine ⟨flag, flow, flagged, keeps.get? found, ?_, exact_⟩
    rw [Bool.eq_iff_iff, exact_, told.terminates]
  reports := by
    refine ⟨unit.left.filterMap (guilty? a₄.reactor a₅.reactor), ?_, fun decl => ?_, ?_⟩
    · refine numbered.left.sublist (sublist_filterMap (fun part decl same => ?_) _)
      cases part with
      | function decl =>
        rw [guilty?] at same
        split at same <;> cases same
        rfl
      | _ => cases same
    · rw [mem_filterMap]
      constructor
      · rintro ⟨part, left, same⟩
        have entered := mem_left.mp left
        cases part with
        | function decl =>
          rw [guilty?] at same
          split at same <;> cases same
          next guilty =>
            exact ⟨stands_of_entered entered, (h.isGuilty_iff ran entered).mp guilty⟩
        | _ => cases same
      · rintro ⟨⟨near, has⟩, guilty⟩
        have entered : .function decl ∈ unit.entered := has.entered
        refine ⟨_, mem_left.mpr entered, ?_⟩
        rw [guilty?, if_pos ((h.isGuilty_iff ran entered).mpr guilty)]
    · have perm := (h.ready numbered).rootErrors_perm ran fun rule mem => by
        rw [h.plan_eq] at mem
        exact Returns.plan_decided h.bindings _ mem
      rw [h.plan_eq, h.clean, nil_append, Returns.plan, flatMap_assoc] at perm
      rw [flatMap_congr fun part left =>
        h.errors_part ran (mem_left.mp left)] at perm
      rwa [filterMap_eq_flatMap_toList, map_flatMap]

end Analysis

/-- A unit that passes the type checks reaches the end of the pass over missing returns.  Then both
analyses of returns are right about all paths, and exactly the functions that have to return a value
and have a path to the end of their bodies are reported, each once. -/
theorem returns_are_exact (unit : CompilationUnit) (b : Analysis)
    (reached : analyzeUntil unit .checkTypes = .ok b) :
    ∃ a, b.advance .checkReturns = .ok a ∧ a.ReturnsExact unit ∧
      analyze unit = if a.reactor.rootErrors.isEmpty then .ok a
        else .error (.rejected .checkReturns a.reactor.rootErrors) := by
  obtain ⟨numbered, a₁, a₂, a₃, checked⟩ := checked_of_analyzeUntil reached
  obtain ⟨a, ran⟩ := (checked.ready numbered).exists_ran
  refine ⟨a, ran.advanced, checked.returnsExact numbered ran, ?_⟩
  rw [analyze, analyzeUntil_eq .checkTypes rfl, reached]
  simp only [Except.bind, Analysis.step, ran.advanced]

/-- One function returns on every path, one has a loop that may be passed by, and one need not
return anything. -/
def halfReturning : CompilationUnit := (Parser.ofText ("fun f(b: Boolean) -> Int \x7b " ++
  "if (b) \x7b return 1; \x7d else \x7b \x7b return 2; \x7d \x7d \x7d " ++
  "fun g(b: Boolean) -> Int \x7b while (b) \x7b return 1; \x7d if (b) return 2; \x7d " ++
  "fun h() \x7b return; \x7d").toList).unit

theorem returns_are_exact_halfReturning : ∃ b, analyzeUntil halfReturning .checkTypes = .ok b ∧
    ∃ a, b.advance .checkReturns = .ok a ∧ a.ReturnsExact halfReturning ∧
      a.reactor.rootErrors ≠ [] := by
  obtain ⟨b, reached⟩ : ∃ b, analyzeUntil halfReturning .checkTypes = .ok b :=
    exists_of_isOk (by decide +kernel)
  obtain ⟨a, advanced, exact_, result⟩ := returns_are_exact halfReturning b reached
  refine ⟨b, reached, a, advanced, exact_, fun clean => ?_⟩
  have refused : (analyze halfReturning).isOk = false := by decide +kernel
  rw [result, clean] at refused
  cases refused

end BlFront
