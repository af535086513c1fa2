import BlFront.Proofs.Analysis.Found
import BlFront.Syntax.Parser.Stmt

/-!
# Paths and what they return

A path through a statement reaches its end or returns.  Two passes find out whether some path
reaches the end: one along with the types, one on its own.  Both are right.  The first also finds a
type for the returns that can be reached, and a function without an annotation gets this type.
-/

namespace BlFront

open List CompilationUnit

variable {condition : Expr} {decl : FunctionDecl} {first s : Stmt} {n : NodeId} {r : Reactor}
  {second : Option Stmt} {ss : List Stmt} {tag : Tag} {value : Option Expr}

open Names

/-! ### Paths -/

/-- How a path through a statement ends. -/
inductive Exit where
  | falls
  | returns
  deriving DecidableEq, Repr

/-- Statements without an influence on the path that leads through them. -/
def Stmt.isPlain : Stmt → Bool
  | .funDecl _ | .structDecl _ | .classDecl _ | .varDecl _ | .exprStmt _ _ => true
  | _ => false

mutual

/-- The paths through a statement.  A condition may hold or not. -/
inductive Stmt.Ends : Stmt → Exit → Prop
  | plain {s : Stmt} (plain : s.isPlain = true) : Stmt.Ends s .falls
  | block {body : Block} {exit : Exit} (inside : StmtsEnd body.statements exit) :
      Stmt.Ends (.block body) exit
  | thenBranch {tag : Tag} {condition : Expr} {first : Stmt} {second : Option Stmt} {exit : Exit}
      (taken : Stmt.Ends first exit) : Stmt.Ends (.ifElse tag condition first second) exit
  | elseBranch {tag : Tag} {condition : Expr} {first second : Stmt} {exit : Exit}
      (taken : Stmt.Ends second exit) : Stmt.Ends (.ifElse tag condition first (some second)) exit
  | skip {tag : Tag} {condition : Expr} {first : Stmt} :
      Stmt.Ends (.ifElse tag condition first none) .falls
  | leave {tag : Tag} {condition : Expr} {body : Stmt} :
      Stmt.Ends (.whileLoop tag condition body) .falls
  | again {tag : Tag} {condition : Expr} {body : Stmt} {exit : Exit}
      (once : Stmt.Ends body .falls) (more : Stmt.Ends (.whileLoop tag condition body) exit) :
      Stmt.Ends (.whileLoop tag condition body) exit
  | inLoop {tag : Tag} {condition : Expr} {body : Stmt} (inside : Stmt.Ends body .returns) :
      Stmt.Ends (.whileLoop tag condition body) .returns
  | returned {tag : Tag} {value : Option Expr} : Stmt.Ends (.returnStmt tag value) .returns

/-- The paths through statements that stand one after another. -/
inductive StmtsEnd : List Stmt → Exit → Prop
  | nil : StmtsEnd [] .falls
  | stop {s : Stmt} {ss : List Stmt} (first : Stmt.Ends s .returns) : StmtsEnd (s :: ss) .returns
  | next {s : Stmt} {ss : List Stmt} {exit : Exit} (first : Stmt.Ends s .falls)
      (rest : StmtsEnd ss exit) : StmtsEnd (s :: ss) exit

end

mutual

/-- The values of the returns of a statement that stand behind nothing that always returns.  What
loops and functions inside return is left out. -/
inductive Stmt.Reaches : Stmt → Option Expr → Prop
  | here {tag : Tag} {value : Option Expr} : Stmt.Reaches (.returnStmt tag value) value
  | block {body : Block} {value : Option Expr} (inside : StmtsReach body.statements value) :
      Stmt.Reaches (.block body) value
  | thenBranch {tag : Tag} {condition : Expr} {first : Stmt} {second : Option Stmt}
      {value : Option Expr} (inside : Stmt.Reaches first value) :
      Stmt.Reaches (.ifElse tag condition first second) value
  | elseBranch {tag : Tag} {condition : Expr} {first second : Stmt} {value : Option Expr}
      (inside : Stmt.Reaches second value) :
      Stmt.Reaches (.ifElse tag condition first (some second)) value

inductive StmtsReach : List Stmt → Option Expr → Prop
  | first {s : Stmt} {ss : List Stmt} {value : Option Expr} (inside : Stmt.Reaches s value) :
      StmtsReach (s :: ss) value
  | next {s : Stmt} {ss : List Stmt} {value : Option Expr} (passed : Stmt.Ends s .falls)
      (rest : StmtsReach ss value) : StmtsReach (s :: ss) value

end

theorem stmtsEnd_cons : StmtsEnd (s :: ss) .falls ↔ s.Ends .falls ∧ StmtsEnd ss .falls := by
  constructor
  · intro h
    cases h with
    | next first rest => exact ⟨first, rest⟩
  · rintro ⟨first, rest⟩
    exact .next first rest

theorem ends_block {body : Block} : (Stmt.block body).Ends .falls ↔ StmtsEnd body.statements .falls := by
  constructor
  · intro h
    cases h with
    | plain plain => cases plain
    | block inside => exact inside
  · exact .block

theorem ends_ifElse : (Stmt.ifElse tag condition first second).Ends .falls ↔
    first.Ends .falls ∨ ∀ s, second = some s → s.Ends .falls := by
  constructor
  · intro h
    cases h with
    | plain plain => cases plain
    | thenBranch taken => exact .inl taken
    | elseBranch taken => exact .inr fun s same => Option.some.inj same ▸ taken
    | skip => exact .inr (by simp)
  · rintro (taken | taken)
    · exact .thenBranch taken
    · cases second with
      | none => exact .skip
      | some s => exact .elseBranch (taken s rfl)

theorem not_ends_returnStmt : ¬(Stmt.returnStmt tag value).Ends .falls := by
  intro h
  cases h with
  | plain plain => cases plain

theorem stmtsReach_cons :
    StmtsReach (s :: ss) value ↔ s.Reaches value ∨ s.Ends .falls ∧ StmtsReach ss value := by
  constructor
  · intro h
    cases h with
    | first inside => exact .inl inside
    | next passed rest => exact .inr ⟨passed, rest⟩
  · rintro (inside | ⟨passed, rest⟩)
    · exact .first inside
    · exact .next passed rest

theorem reaches_block {body : Block} :
    (Stmt.block body).Reaches value ↔ StmtsReach body.statements value := by
  constructor
  · intro h
    cases h with
    | block inside => exact inside
  · exact .block

theorem reaches_ifElse : (Stmt.ifElse tag condition first second).Reaches value ↔
    first.Reaches value ∨ ∃ s, second = some s ∧ s.Reaches value := by
  constructor
  · intro h
    cases h with
    | thenBranch inside => exact .inl inside
    | elseBranch inside => exact .inr ⟨_, rfl, inside⟩
  · rintro (inside | ⟨_, rfl, inside⟩)
    · exact .thenBranch inside
    · exact .elseBranch inside

mutual

theorem entered_of_reaches {unit : CompilationUnit} {s : Stmt} {value : Option Expr}
    (h : s.Reaches value) (entered : s.part ∈ unit.entered) :
    ∀ e ∈ value.toList, .expr e none ∈ unit.entered := by
  match h with
  | .here => exact fun e mem => child_entered entered (mem_map_of_mem mem)
  | .block inside =>
    exact entered_of_stmtsReach inside fun s mem => child_entered entered (mem_map_of_mem mem)
  | .thenBranch inside => exact entered_of_reaches inside (child_entered entered (.tail _ (.head _)))
  | .elseBranch inside =>
    exact entered_of_reaches inside (child_entered entered (.tail _ (.tail _ (.head _))))

theorem entered_of_stmtsReach {unit : CompilationUnit} {ss : List Stmt} {value : Option Expr}
    (h : StmtsReach ss value) (entered : ∀ s ∈ ss, s.part ∈ unit.entered) :
    ∀ e ∈ value.toList, .expr e none ∈ unit.entered := by
  match h with
  | .first inside => exact entered_of_reaches inside (entered _ (.head _))
  | .next _ rest => exact entered_of_stmtsReach rest fun s mem => entered s (.tail _ mem)

end

/-- What takes no part in the analysis of returns has a path to its end and returns nothing. -/
theorem plain_of_not_contributes (h : s.contributes = false) :
    s.Ends .falls ∧ ∀ value, ¬s.Reaches value := by
  constructor
  · cases s with
    | whileLoop tag condition body => exact .leave
    | block body => cases h
    | ifElse tag condition first second => cases h
    | returnStmt tag value => cases h
    | _ => exact .plain rfl
  · intro value reaches
    cases reaches <;> cases h

/-! ### Statements that take part -/

/-- What a block looks at: a statement that does not take part is passed by, and a return is the
last one that counts. -/
theorem contributing_cons (s : Stmt) (ss : List Stmt) :
    (s.contributes = false ∧ contributing (s :: ss) = contributing ss) ∨
      s.contributes = true ∧ ∃ more, contributing (s :: ss) = s.id :: more ∧
        (more = contributing ss ∨ more = [] ∧ ¬s.Ends .falls) := by
  cases s with
  | returnStmt tag value => exact .inr ⟨rfl, [], rfl, .inr ⟨rfl, not_ends_returnStmt⟩⟩
  | block body => exact .inr ⟨rfl, _, rfl, .inl rfl⟩
  | ifElse tag condition first second => exact .inr ⟨rfl, _, rfl, .inl rfl⟩
  | _ => exact .inl ⟨rfl, rfl⟩

theorem contributes_of_mem_contributing (h : n ∈ contributing ss) :
    ∃ s ∈ ss, s.contributes = true ∧ s.id = n := by
  induction ss with
  | nil => cases h
  | cons s ss ih =>
    have later : n ∈ contributing ss → ∃ s' ∈ s :: ss, s'.contributes = true ∧ s'.id = n := by
      intro h
      obtain ⟨s', mem, found⟩ := ih h
      exact ⟨s', .tail _ mem, found⟩
    rcases contributing_cons s ss with ⟨_, same⟩ | ⟨contributes, more, same, rest⟩
    · exact later (same ▸ h)
    · rcases mem_cons.mp (same ▸ h) with rfl | h
      · exact ⟨s, .head _, contributes, rfl⟩
      · rcases rest with rfl | ⟨rfl, _⟩
        · exact later h
        · cases h

/-- Induction over the statements that take part in the analysis of returns. -/
theorem contributing_induction {unit : CompilationUnit} {P : Stmt → Prop}
    (block : ∀ body, .block body ∈ unit.entered →
      (∀ s ∈ body.statements, s.contributes = true → P s) → P (.block body))
    (conditional : ∀ tag condition first second,
      .ifElse tag condition first second ∈ unit.entered → (first.contributes = true → P first) →
      (∀ s, second = some s → s.contributes = true → P s) → P (.ifElse tag condition first second))
    (returned : ∀ tag value, .returnStmt tag value ∈ unit.entered → P (.returnStmt tag value))
    (s : Stmt) (contributes : s.contributes = true) (entered : s.part ∈ unit.entered) : P s := by
  match s with
  | .block body =>
    refine block body entered fun s mem contributes => ?_
    have smaller := body.sizeOf_stmt mem
    exact contributing_induction block conditional returned s contributes
      (child_entered entered (mem_map_of_mem mem))
  | .ifElse tag condition first second =>
    refine conditional tag condition first second entered (fun contributes => ?_) ?_
    · exact contributing_induction block conditional returned first contributes
        (child_entered entered (.tail _ (.head _)))
    · intro s same takes
      have smaller : sizeOf s < sizeOf second := by simp [same]
      exact contributing_induction block conditional returned s takes
        (child_entered entered (by simp [Stmt.part, Part.children, same]))
  | .returnStmt tag value => exact returned tag value entered
termination_by sizeOf s
decreasing_by
  all_goals
    simp only [Stmt.block.sizeOf_spec, Stmt.ifElse.sizeOf_spec]
    omega

/-- A block ends nowhere but in a return if one of its statements does so. -/
theorem any_contributing_iff {f : NodeId → Bool}
    (known : ∀ s ∈ ss, s.contributes = true → (f s.id = true ↔ ¬s.Ends .falls)) :
    (contributing ss).any f = true ↔ ¬StmtsEnd ss .falls := by
  induction ss with
  | nil => simp [contributing, StmtsEnd.nil]
  | cons s ss ih =>
    have rest := ih fun s mem => known s (.tail _ mem)
    rw [stmtsEnd_cons]
    rcases contributing_cons s ss with ⟨none, same⟩ | ⟨contributes, more, same, later⟩
    · simp [same, rest, (plain_of_not_contributes none).1]
    · rw [same, any_cons, Bool.or_eq_true, known s (.head _) contributes, not_and_or]
      rcases later with rfl | ⟨rfl, blocked⟩
      · rw [rest]
      · simp [blocked]

/-! ### What is returned -/

/-- The type found for the values that are returned, if there are any: it covers them, and it is
`Any` or the type of one of them. -/
inductive Merges (types : Option Expr → Ty) (returned : Option Expr → Prop) : Option Ty → Prop
  | none (empty : ∀ value, ¬returned value) : Merges types returned none
  | some {result : Ty} (given : ∃ value, returned value)
      (covers : ∀ value, returned value → (types value).assignable result = true)
      (taken : result = .any ∨ ∃ value, returned value ∧ types value = result) :
      Merges types returned (some result)

section Merges

variable {t : SymbolTable} {types : Option Expr → Ty} {R R' : Option Expr → Prop}
  {found found' : Option Ty}

theorem Merges.congr (h : Merges types R found) (same : ∀ value, R value ↔ R' value) :
    Merges types R' found := by
  obtain rfl : R = R' := funext fun value => propext (same value)
  exact h

variable (coherent : ∀ value, (types value).Coherent t)

include coherent

theorem Merges.join (h : Merges types R found) (h' : Merges types R' found') :
    Merges types (fun value => R value ∨ R' value) (ReturnFlow.joinTypes found found') := by
  have taken_coherent : ∀ {R : Option Expr → Prop} {result : Ty},
      (result = .any ∨ ∃ value, R value ∧ types value = result) → result.Coherent t := by
    rintro R result (rfl | ⟨value, _, rfl⟩)
    · trivial
    · exact coherent value
  cases h with
  | none empty =>
    have same : ReturnFlow.joinTypes Option.none found' = found' := by cases found' <;> rfl
    rw [same]
    exact h'.congr fun value => by simp [empty]
  | some given covers taken =>
    cases h' with
    | none empty => exact (Merges.some given covers taken).congr fun value => by simp [empty]
    | some given' covers' taken' =>
      refine .some (given.imp fun _ => .inl) ?_ ?_
      · rintro value (returned | returned)
        · exact Ty.assignable_trans (coherent value) (taken_coherent taken) (covers value returned)
            (Ty.assignable_join_left _ _)
        · exact Ty.assignable_trans (coherent value) (taken_coherent taken') (covers' value returned)
            (Ty.assignable_join_right _ _)
      · rcases Ty.join_cases _ _ with same | same | same <;> rw [same]
        · exact .inl rfl
        · exact taken.imp_right fun ⟨value, returned, same⟩ => ⟨value, .inl returned, same⟩
        · exact taken'.imp_right fun ⟨value, returned, same⟩ => ⟨value, .inr returned, same⟩

omit coherent

/-- What the flow of a statement tells: whether all paths through it return, and what. -/
structure ReturnFlow.Tells (types : Option Expr → Ty) (s : Stmt) (flow : ReturnFlow) : Prop where
  terminates : flow.terminates = true ↔ ¬s.Ends .falls
  merges : Merges types s.Reaches flow.type

include coherent

theorem ReturnFlow.sequenceFrom_tells {flows : NodeId → ReturnFlow}
    (known : ∀ s ∈ ss, s.contributes = true → (flows s.id).Tells types s)
    (start : Merges types R found) :
    ((sequenceFrom found ((contributing ss).map flows)).terminates = true ↔ ¬StmtsEnd ss .falls) ∧
      Merges types (fun value => R value ∨ StmtsReach ss value)
        (sequenceFrom found ((contributing ss).map flows)).type := by
  induction ss generalizing found R with
  | nil =>
    refine ⟨by simp [contributing, sequenceFrom, StmtsEnd.nil], start.congr fun value => ?_⟩
    exact ⟨.inl, fun h => h.resolve_right (by intro h; cases h)⟩
  | cons s ss ih =>
    simp only [stmtsEnd_cons, stmtsReach_cons]
    rcases contributing_cons s ss with ⟨none, same⟩ | ⟨contributes, more, same, later⟩
    · obtain ⟨falls, nothing⟩ := plain_of_not_contributes none
      simpa only [same, falls, nothing, true_and, false_or] using
        ih (fun s mem => known s (.tail _ mem)) start
    · have told := known s (.head _) contributes
      have joined := start.join coherent told.merges
      rw [same, map_cons, sequenceFrom]
      by_cases falls : s.Ends .falls
      · obtain rfl : more = contributing ss := later.resolve_right fun h => h.2 falls
        have open_ : (flows s.id).terminates ≠ true := fun ends => told.terminates.mp ends falls
        simpa only [if_neg open_, falls, true_and, or_assoc] using
          ih (fun s mem => known s (.tail _ mem)) joined
      · simpa only [if_pos (told.terminates.mpr falls), falls, false_and, not_false_eq_true,
          or_false, true_and] using joined

theorem ReturnFlow.sequence_tells {flows : NodeId → ReturnFlow} {body : Block}
    (known : ∀ s ∈ body.statements, s.contributes = true → (flows s.id).Tells types s) :
    (sequence ((contributing body.statements).map flows)).Tells types (.block body) := by
  obtain ⟨terminates, merges⟩ := sequenceFrom_tells coherent known (R := fun _ => False)
    (.none fun _ => id)
  exact ⟨terminates.trans ends_block.not.symm,
    merges.congr fun value => by rw [false_or, reaches_block]⟩

end Merges

/-! ### What the rules compute -/

namespace Returns

variable {t : SymbolTable} {values : Attribute → Value} {flags : Attribute → Bool}

theorem blockRule_computes {block : Block}
    (held : ∀ d ∈ AttrName.returns.ofNodes (contributing block.statements),
      values d = .flag (flags d)) :
    (blockRule block).Computes t values [.write (AttrName.returns.of block.tag.id)
      (.value (.flag (((AttrName.returns.ofNodes (contributing block.statements)).map flags).any
        id)))] :=
  Rule.flatMap_computes _ (mapM_extract fun d hd => by rw [held d hd]; rfl) _ _

theorem ifRule_computes {first second : Stmt}
    (held : ∀ d ∈ [AttrName.returns.of (.node first.id), AttrName.returns.of (.node second.id)],
      values d = .flag (flags d)) :
    (ifRule tag first second).Computes t values [.write (AttrName.returns.of tag.id)
      (.value (.flag (([AttrName.returns.of (.node first.id),
        AttrName.returns.of (.node second.id)].map flags).all id)))] :=
  Rule.flatMap_computes _ (mapM_extract fun d hd => by rw [held d hd]; rfl) _ _

end Returns

/-! ### Two passes, one answer -/

namespace Analysis

variable {attr : Attribute} {unit : CompilationUnit} {a₁ a₂ a₃ a₄ a₅ : Analysis}

/-- The flag that an attribute holds. -/
def flagAt (r : Reactor) (attr : Attribute) : Bool := (r.getAs? Kind.flag attr).getD false

theorem flagAt_eq {flag : Bool} (h : r.get? attr = some (.flag flag)) : flagAt r attr = flag := by
  simp [flagAt, Reactor.getAs?, h, Kind.flag]

/-- The flow that an attribute holds. -/
def flowAt (r : Reactor) (attr : Attribute) : ReturnFlow :=
  (r.getAs? Kind.flow attr).getD .fallsThrough

theorem flowAt_eq {flow : ReturnFlow} (h : r.get? attr = some (.flow flow)) :
    flowAt r attr = flow := by
  simp [flowAt, Reactor.getAs?, h, Kind.flow]

theorem Checked.passed_returns (h : Checked unit a₁ a₂ a₃ a₄) (ran : Ran .checkReturns a₄ a₅) :
    Reactor.Passed (table unit) (Returns.plan unit a₄.reactor) a₄.reactor a₅.reactor := by
  have passed := ran.passed
  rwa [ran.symbols_eq, h.plan_eq] at passed

/-- The pass over missing returns marks a statement exactly if all paths through it return. -/
theorem Checked.flag_iff (h : Checked unit a₁ a₂ a₃ a₄) (ran : Ran .checkReturns a₄ a₅)
    (contributes : s.contributes = true) (entered : s.part ∈ unit.entered) :
    ∃ flag, a₅.reactor.get? (AttrName.returns.of s.id) = some (.flag flag) ∧
      (flag = true ↔ ¬s.Ends .falls) := by
  have passed := h.passed_returns ran
  have asked : ∀ {part}, part ∈ unit.entered → ∀ q ∈ Returns.partRequests a₄.reactor part,
      q ∈ Returns.plan unit a₄.reactor := fun entered q hq =>
    mem_flatMap.mpr ⟨_, mem_left.mpr entered, hq⟩
  -- a rule leaves what it computes from the flags of its dependencies
  have computed : ∀ {rule target flag}, .register rule ∈ Returns.plan unit a₄.reactor →
      (∀ d ∈ rule.deps, ∃ flag, a₅.reactor.get? d = some (.flag flag)) →
      rule.Computes (table unit) (fun d => .flag (flagAt a₅.reactor d))
        [.write target (.value (.flag flag))] → a₅.reactor.get? target = some (.flag flag) := by
    intro rule target flag mem held computes
    refine passed.computed mem (fun d hd => ?_) computes _ (.head _)
    obtain ⟨flag, hd⟩ := held d hd
    rw [flagAt_eq hd, hd]
  refine contributing_induction (P := fun s => ∃ flag,
    a₅.reactor.get? (AttrName.returns.of s.id) = some (.flag flag) ∧ (flag = true ↔ ¬s.Ends .falls))
    ?_ ?_ ?_ s contributes entered
  · intro body entered known
    refine ⟨_, computed (asked entered _ (.head _)) (fun d hd => ?_)
      (Returns.blockRule_computes fun _ _ => rfl), ?_⟩
    · obtain ⟨n, hn, rfl⟩ := mem_map.mp hd
      obtain ⟨s, mem, contributes, rfl⟩ := contributes_of_mem_contributing hn
      obtain ⟨flag, found, _⟩ := known s mem contributes
      exact ⟨flag, found⟩
    · rw [AttrName.ofNodes, map_map, any_map, ends_block]
      refine any_contributing_iff fun s mem contributes => ?_
      obtain ⟨flag, found, exact_⟩ := known s mem contributes
      rw [← exact_, ← flagAt_eq found]
      rfl
  · intro tag condition first second entered knownFirst knownSecond
    have request := asked entered _ (.head _)
    cases second with
    | none => exact ⟨false, passed.seeded request, by simp [ends_ifElse]⟩
    | some second =>
      rw [Returns.ifRequest] at request
      split at request
      · next both =>
          rw [Bool.and_eq_true] at both
          obtain ⟨flag, found, exact_⟩ := knownFirst both.1
          obtain ⟨flag', found', exact'⟩ := knownSecond second rfl both.2
          refine ⟨_, computed request (forall_mem_cons.mpr ⟨⟨flag, found⟩,
            forall_mem_singleton.mpr ⟨flag', found'⟩⟩)
            (Returns.ifRule_computes fun _ _ => rfl), ?_⟩
          simp [flagAt_eq found, flagAt_eq found', exact_, exact', ends_ifElse]
      · next both =>
          refine ⟨false, passed.seeded request, ?_⟩
          have falls : first.Ends .falls ∨ second.Ends .falls := by
            rw [Bool.and_eq_true, not_and_or, Bool.not_eq_true, Bool.not_eq_true] at both
            exact both.imp (fun none => (plain_of_not_contributes none).1) fun none =>
              (plain_of_not_contributes none).1
          simp [ends_ifElse, falls]
  · intro tag value entered
    exact ⟨true, passed.seeded (asked entered _ (.head _)), by simp [not_ends_returnStmt]⟩

/-- The type of the value that is returned. -/
def returned (a : Analysis) : Option Expr → Ty
  | none => .unit
  | some e => a.typeAt e.id

/-- What is found about a statement that takes part. -/
def Flows (a : Analysis) (s : Stmt) : Prop :=
  ∃ flow, a.reactor.get? (AttrName.returnType.of s.id) = some (.flow flow) ∧
    flow.Tells a.returned s

/-- The flow of a branch ends in a return exactly if there is one and all paths through it do. -/
theorem branches_iff (a : Analysis) (branch : Option Stmt)
    (known : ∀ s, branch = some s → s.contributes = true → a.Flows s) :
    ∃ flow, Types.Branches (fun d => .flow (flowAt a.reactor d)) (branch.bind Types.flowOf?) flow ∧
      (∀ d ∈ (branch.bind Types.flowOf?).toList, ∃ flow, a.reactor.get? d = some (.flow flow)) ∧
      (flow.terminates = true ↔ ∃ s, branch = some s ∧ ¬s.Ends .falls) ∧
      Merges a.returned (fun value => ∃ s, branch = some s ∧ s.Reaches value) flow.type := by
  cases branch with
  | none =>
    exact ⟨.fallsThrough, rfl, by simp, by simp [ReturnFlow.fallsThrough], .none (by simp)⟩
  | some s =>
    simp only [Option.bind_some, Types.flowOf?, Option.some.injEq, exists_eq_left']
    split
    · next contributes =>
        obtain ⟨flow, found, told⟩ := known s rfl contributes
        exact ⟨flow, congrArg Value.flow (flowAt_eq found), forall_mem_singleton.mpr ⟨flow, found⟩,
          told.terminates, told.merges⟩
    · next contributes =>
        obtain ⟨falls, nothing⟩ := plain_of_not_contributes (Bool.eq_false_iff.mpr contributes)
        exact ⟨.fallsThrough, rfl, by simp, by simp [falls, ReturnFlow.fallsThrough], .none nothing⟩

section Known

variable (h : Known unit a₁ a₂ a₃)

include h

theorem Known.returned_coherent (value : Option Expr) :
    (a₂.returned value).Coherent (table unit) := by
  cases value with
  | none => trivial
  | some e => exact h.typed.typeAt_coherent e.id

/-- Along with the types the analysis finds out whether all paths through a statement return, and
what they return. -/
theorem Known.flow (contributes : s.contributes = true) (entered : s.part ∈ unit.entered) :
    a₂.Flows s := by
  have computed : ∀ {part}, part ∈ unit.entered → ∀ {rule target flow},
      .register rule ∈ Types.partRequests a₁.reactor (table unit) part →
      (∀ d ∈ rule.deps, ∃ flow, a₂.reactor.get? d = some (.flow flow)) →
      rule.Computes (table unit) (fun d => .flow (flowAt a₂.reactor d))
        [.write target (.value (.flow flow))] → a₂.reactor.get? target = some (.flow flow) := by
    intro part entered rule target flow mem held computes
    refine h.typed.passed.computed (mem_flatMap.mpr ⟨part, mem_left.mpr entered, mem⟩)
      (fun d hd => ?_) computes _ (.head _)
    obtain ⟨flow, found⟩ := held d hd
    rw [flowAt_eq found, found]
  have returns : ∀ {tag value}, a₂.reactor.get? (AttrName.returnType.of tag.id) =
      some (.flow (.returning (a₂.returned value))) → a₂.Flows (.returnStmt tag value) := by
    intro tag value found
    refine ⟨_, found, by simp [ReturnFlow.returning, not_ends_returnStmt], ?_⟩
    refine .some ⟨value, .here⟩ (fun other reaches => ?_) (.inr ⟨value, .here, rfl⟩)
    cases reaches
    exact Ty.assignable_refl _
  refine contributing_induction (P := a₂.Flows) ?_ ?_ ?_ s contributes entered
  · intro body entered known
    refine ⟨_, computed entered (.head _) (fun d hd => ?_)
      (Types.blockRule_computes (flowAt a₂.reactor) fun _ _ => rfl), ?_⟩
    · obtain ⟨n, hn, rfl⟩ := mem_map.mp hd
      obtain ⟨s, mem, contributes, rfl⟩ := contributes_of_mem_contributing hn
      obtain ⟨flow, found, _⟩ := known s mem contributes
      exact ⟨flow, found⟩
    · rw [AttrName.ofNodes, map_map]
      refine ReturnFlow.sequence_tells h.returned_coherent fun s mem contributes => ?_
      obtain ⟨flow, found, told⟩ := known s mem contributes
      rw [← flowAt_eq found] at told
      exact told
  · intro tag condition first second entered knownFirst knownSecond
    obtain ⟨flow, branch, held, ends, merges⟩ := branches_iff a₂ (some first)
      fun s same => Option.some.inj same ▸ knownFirst
    obtain ⟨flow', branch', held', ends', merges'⟩ := branches_iff a₂ second knownSecond
    refine ⟨_, computed entered (.head _) (fun d hd => ?_)
      (Types.ifRule_computes branch branch'), ?_, ?_⟩
    · exact (mem_append.mp hd).elim (held d) (held' d)
    · rw [ReturnFlow.branch, Bool.and_eq_true, Bool.and_eq_true, ends, ends', ends_ifElse]
      cases second <;> simp
    · exact (merges.join h.returned_coherent merges').congr fun value => by simp [reaches_ifElse]
  · intro tag value entered
    cases value with
    | none => exact returns (h.typed.seeded entered (.head _))
    | some value =>
      obtain ⟨v, same, found⟩ := h.typed.mapped entered (.head _)
        (h.expr_typed (child_entered entered (.head _)))
      cases same
      exact returns found

/-! ### Functions -/

theorem Known.function_typed (entered : .function decl ∈ unit.entered) :
    ∃ params result,
      a₂.typing.HasType (symbolAt a₁.reactor decl.tag.id) (.function params result) ∧
      a₂.typing.Declares (decl.params.map fun p => (p.name, p.tag.id)) params ∧
      (∀ written, decl.returnType = some written → a₂.typing.HasType written.id result) ∧
      (decl.returnType = none → ∃ found, Merges a₂.returned (Stmt.block decl.body).Reaches found ∧
        result = found.getD .unit) := by
  have requests := Types.function_requests h.bound entered (table unit)
  have bound := h.bound.symbolsAt entered Part.param
    (fun p (hp : p ∈ decl.params) => by simp [Part.children, hp]) (fun _ => rfl) fun _ => rfl
  have valued : ∀ n ∈ decl.params.map (·.tag.id),
      Valued a₂.reactor (typeOf (symbolAt a₁.reactor n)) := fun n mem =>
    (h.bound_typed (bound n mem)).2.valued
  have members := h.typed.members_typed valued (·.name)
  obtain ⟨flow, flows, told⟩ := h.flow (s := .block decl.body) rfl
    (child_entered entered (by simp [Part.children, Stmt.part]))
  have written : ∀ {result}, Valued a₂.reactor (Types.resultAttr decl) →
      Types.Results decl (valueAt a₂.reactor (Types.resultAttr decl)) result → ∃ params,
        a₂.typing.HasType (symbolAt a₁.reactor decl.tag.id) (.function params result) ∧
        a₂.typing.Declares (decl.params.map fun p => (p.name, p.tag.id)) params := by
    intro result returned results
    have written := h.typed.written entered (requests ▸ mem_singleton_self _)
      (forall_mem_append.mpr ⟨forall_mem_map.mpr fun m hm => ⟨_, members m hm⟩,
        forall_mem_singleton.mpr returned⟩)
      (Types.functionRule_computes (fun d => (valueAt a₂.reactor d).asType)
        (fun m hm => valueAt_eq (members m hm)) results)
    exact ⟨_, hasType_iff.mpr written, h.typed.declares valued bound _⟩
  cases written_ : decl.returnType with
  | none =>
    simp only [Types.Results, Types.resultAttr, written_, Option.isSome_none] at written
    obtain ⟨params, typed, declares⟩ := written ⟨_, flows⟩ ⟨flow, valueAt_eq flows, rfl⟩
    exact ⟨params, _, typed, declares, by simp, fun _ => ⟨_, told.merges, rfl⟩⟩
  | some annotation =>
    have inside : .type annotation ∈ unit.entered :=
      child_entered entered (by simp [Part.children, written_])
    have typed := h.type_typed inside
    simp only [Types.Results, Types.resultAttr, written_, Option.isSome_some, if_true] at written
    obtain ⟨params, function, declares⟩ := written typed.valued typed.valueAt_eq
    exact ⟨params, _, function, declares, fun _ same => Option.some.inj same ▸ typed, by simp⟩

end Known

def returnedType? (a : Analysis) : Option Expr → Option Ty
  | none => some .unit
  | some e => a.typeOf? e.id

/-- What a function gives back if nothing is written about it. -/
structure InfersReturn (a : Analysis) (body : Block) (result : Ty) : Prop where
  nothing : (∀ value, ¬(Stmt.block body).Reaches value) → result = .unit
  covers : ∀ value, (Stmt.block body).Reaches value →
    ∃ type, a.returnedType? value = some type ∧ type.assignable result = true
  taken : (∃ value, (Stmt.block body).Reaches value) → result = .any ∨
    ∃ value, (Stmt.block body).Reaches value ∧ a.returnedType? value = some result

/-- Every function without an annotation has the return type that is found for its body. -/
def InfersReturns (unit : CompilationUnit) (a : Analysis) : Prop :=
  ∀ {near decl}, unit.HasStmt near (.funDecl decl) → decl.returnType = none →
    ∃ symbol params result, a.symbolOf? decl.tag.id = some symbol ∧
      a.typeOf? (.symbol symbol) = some (.function params result) ∧ a.InfersReturn decl.body result

theorem Known.infersReturn (h : Known unit a₁ a₂ a₃) (entered : .function decl ∈ unit.entered)
    {found : Option Ty} (merges : Merges a₂.returned (Stmt.block decl.body).Reaches found) :
    a₃.InfersReturn decl.body (found.getD .unit) := by
  have types : ∀ value, (Stmt.block decl.body).Reaches value →
      a₃.returnedType? value = some (a₂.returned value) := by
    intro value reaches
    cases value with
    | none => rfl
    | some e =>
      have inside := entered_of_reaches reaches
        (child_entered entered (by simp [Part.children, Stmt.part])) e (.head _)
      exact getAs?_type.mpr ((h.get?_eq _).trans (hasType_iff.mp (h.expr_typed inside)))
  cases merges with
  | none empty =>
    refine ⟨fun _ => rfl, fun value reaches => absurd reaches (empty value), ?_⟩
    rintro ⟨value, reaches⟩
    exact absurd reaches (empty value)
  | some given covers taken =>
    refine ⟨fun empty => ?_, fun value reaches => ⟨_, types value reaches, covers value reaches⟩,
      fun _ => taken.imp_right ?_⟩
    · obtain ⟨value, reaches⟩ := given
      exact absurd reaches (empty value)
    · rintro ⟨value, reaches, same⟩
      exact ⟨value, reaches, same ▸ types value reaches⟩

theorem Known.infersReturns (h : Known unit a₁ a₂ a₃) : a₃.InfersReturns unit := by
  intro near decl has unannotated
  have entered : .function decl ∈ unit.entered := has.entered
  obtain ⟨params, result, typed, _, _, inferred⟩ := h.function_typed entered
  obtain ⟨found, merges, rfl⟩ := inferred unannotated
  obtain ⟨means, _⟩ := h.bound_typed (h.bound.symbolAt entered rfl rfl).2
  exact ⟨_, params, _, getAs?_symbol.mpr ((h.get?_eq _).trans (means_iff.mp means)),
    getAs?_type.mpr ((h.get?_eq _).trans (hasType_iff.mp typed)), h.infersReturn entered merges⟩

end Analysis

/-- In a unit without missing types a function without an annotation gives back what covers the
returns that can be reached: `Unit` if there are none, and otherwise `Any` or the type of one. -/
theorem return_types_are_inferred (unit : CompilationUnit) (a : Analysis)
    (known : analyzeUntil unit .checkInferred = .ok a) : a.InfersReturns unit := by
  obtain ⟨_, a₁, a₂, stage⟩ := known_of_analyzeUntil known
  exact stage.infersReturns

/-- A program whose types are partly written and partly inferred. -/
def sample : CompilationUnit :=
  (Parser.ofText ("class A \x7b n: Int; fun twice() -> Int \x7b return self.n + n; \x7d \x7d " ++
    "fun f(a: A) \x7b if (a.n < 2) \x7b return [a.twice()]; \x7d return [1]; \x7d " ++
    "var x = f(A(2))[0];").toList).unit

theorem return_types_are_inferred_sample :
    ∃ a, analyzeUntil sample .checkInferred = .ok a ∧ a.InfersReturns sample := by
  obtain ⟨a, known⟩ : ∃ a, analyzeUntil sample .checkInferred = .ok a :=
    exists_of_isOk (by decide +kernel)
  exact ⟨a, known, return_types_are_inferred sample a known⟩

end BlFront
