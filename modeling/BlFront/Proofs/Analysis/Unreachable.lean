import BlFront.Analysis.Returns
import BlFront.Analysis.Types
import BlFront.Proofs.Syntax.Reading.Unit

/-!
# Unreachable statements

Without an error, what is said about a text is one warning for each block that goes on behind its first
own return.  What is behind that return has no part in what the block returns.
-/

namespace BlFront

open List

/-- The warning about statements, one behind the other: what is right behind the first return is
unreachable. -/
def unreachable? : List Stmt → Option Diagnostic
  | [] => none
  | s :: ss => if s.isReturn then ss.head?.map (Parser.unreachable s.span) else unreachable? ss

def Part.block? : Part → Option Block
  | .block b => some b
  | _ => none

def CompilationUnit.blocks (unit : CompilationUnit) : List Block := unit.left.filterMap Part.block?

/-- Statements go on behind the first return among them. -/
structure GoesOn (ss before : List Stmt) (returned next : Stmt) (rest : List Stmt) : Prop where
  split : ss = before ++ returned :: next :: rest
  returns : returned.isReturn = true
  first : ∀ s ∈ before, s.isReturn = false

/-- A diagnostic is a warning at a statement that points at the return in front of it and at nothing
else. -/
structure Diagnostic.WarnsOf (d : Diagnostic) (returned next : Stmt) : Prop where
  severity : d.severity = .warning
  span : d.span = some next.span
  related : d.related.map (·.span) = [returned.span]

/-- The statements that take part in what a block returns. -/
inductive Stmt.TakesPart : Stmt → Prop
  | block (body : Block) : TakesPart (.block body)
  | ifElse (tag : Tag) (condition : Expr) (first : Stmt) (second : Option Stmt) :
    TakesPart (.ifElse tag condition first second)
  | returnStmt (tag : Tag) (value : Option Expr) : TakesPart (.returnStmt tag value)

variable {before ss : List Stmt} {returned : Stmt} {b : Block} {unit : CompilationUnit}

theorem unreachable?_eq_some {d : Diagnostic} : unreachable? ss = some d ↔
    ∃ before returned next rest, GoesOn ss before returned next rest ∧
      d = Parser.unreachable returned.span next := by
  constructor
  · intro h
    induction ss with
    | nil => cases h
    | cons s ss ih =>
      rw [unreachable?] at h
      split at h
      · next returns =>
          obtain ⟨next, head, rfl⟩ := Option.map_eq_some_iff.mp h
          obtain ⟨rest, rfl⟩ := head?_eq_some_iff.mp head
          exact ⟨[], s, next, rest, ⟨rfl, returns, by simp⟩, rfl⟩
      · next other =>
          obtain ⟨before, returned, next, rest, goesOn, same⟩ := ih h
          refine ⟨s :: before, returned, next, rest, ⟨?_, goesOn.returns, ?_⟩, same⟩
          · rw [goesOn.split, cons_append]
          · exact forall_mem_cons.mpr ⟨by simpa using other, goesOn.first⟩
  · rintro ⟨before, returned, next, rest, ⟨rfl, returns, first⟩, rfl⟩
    induction before with
    | nil => simp [unreachable?, returns]
    | cons s before ih =>
      obtain ⟨other, later⟩ := forall_mem_cons.mp first
      simpa [unreachable?, other] using ih later

/-! ### What the parser says -/

theorem Parser.Reach.warnings_yes (ss : List Stmt) : Reach.yes.warnings ss = (unreachable? ss).toList := by
  induction ss with
  | nil => rfl
  | cons s ss ih =>
    cases s with
    | returnStmt tag value =>
      cases ss with
      | nil => rfl
      | cons next rest => exact congrArg (_ :: ·) (warnings_no rest)
    | _ => exact ih

theorem Token.scanFrom_isError (cursor : Cursor) :
    ∀ d ∈ (scanFrom cursor).diagnostics, d.isError = true := by
  have comments : ∀ unclosed stop, ∀ d ∈ unclosedComment unclosed stop, d.isError = true := by
    intro unclosed stop d mem
    obtain ⟨_, _, rfl⟩ := mem_map.mp mem
    rfl
  fun_induction scanFrom cursor with
  | case1 => exact comments _ _
  | case2 cursor skipped before unclosed c cs found cut behind token problems later ih =>
    refine forall_mem_append.mpr ⟨forall_mem_append.mpr ⟨comments _ _, fun d mem => ?_⟩, ih⟩
    obtain ⟨_, _, rfl⟩ := mem_map.mp mem
    rfl

theorem CompilationUnit.warned_tour (unit : CompilationUnit) :
    Parser.warned unit.tour = unit.blocks.filterMap fun b => unreachable? b.statements := by
  rw [Parser.warned, ← unit.left_eq, blocks]
  induction unit.left with
  | nil => rfl
  | cons part parts ih =>
    rw [flatMap_cons, ih]
    cases part with
    | block b =>
      simp only [Parser.warningsOf, Parser.Reach.warnings_yes, filterMap_cons, Part.block?]
      cases unreachable? b.statements <;> rfl
    | _ => rfl

/-- Without an error, a text is only warned about. -/
theorem Parser.ofText_warned {source : List Char}
    (clean : hasErrors (ofText source).diagnostics = false) :
    (ofText source).diagnostics.Perm
      ((ofText source).unit.blocks.filterMap fun b => unreachable? b.statements) := by
  obtain ⟨s, _, diagnostics, completes⟩ := exists_completes (Token.scan source).tokens
  have both : hasErrors ((Token.scan source).diagnostics ++ s.diagnostics) = false := diagnostics ▸ clean
  rw [hasErrors, any_append, Bool.or_eq_false_iff] at both
  have silent : (Token.scan source).diagnostics = [] := by
    refine eq_nil_iff_forall_not_mem.mpr fun d mem => ?_
    exact any_eq_false.mp both.1 d mem (Token.scanFrom_isError _ d mem)
  have said := completes.makes.said both.2
  rw [append_nil, CompilationUnit.warned_tour] at said
  show ((Token.scan source).diagnostics ++ (ofTokens (Token.scan source).tokens).diagnostics).Perm _
  rw [silent, diagnostics]
  exact said

/-! ### What counts -/

theorem Stmt.contributes_iff (s : Stmt) : s.contributes = true ↔ s.TakesPart := by
  constructor
  · intro h
    cases s with
    | block body => exact .block body
    | ifElse tag condition first second => exact .ifElse tag condition first second
    | returnStmt tag value => exact .returnStmt tag value
    | _ => cases h
  · rintro (_ | _ | _) <;> rfl

theorem contributing_of_return (returns : returned.isReturn = true)
    (first : ∀ s ∈ before, s.isReturn = false) (rest : List Stmt) :
    contributing (before ++ returned :: rest) =
      ((before ++ [returned]).filter Stmt.contributes).map Stmt.id := by
  induction before with
  | nil =>
    cases returned with
    | returnStmt tag value => rfl
    | _ => cases returns
  | cons s before ih =>
    obtain ⟨other, later⟩ := forall_mem_cons.mp first
    rw [cons_append, contributing, other, ih later, cons_append, filter_cons]
    split
    · contradiction
    · split <;> rfl

theorem ids_sublist (ss : List Stmt) : (ss.map Stmt.id).Sublist (visited (stmtsTour ss)) := by
  induction ss with
  | nil => exact .slnil
  | cons s ss ih =>
    have front : visited s.tour = s.id :: visited (s.inside.flatMap Branch.tour) := by
      rw [s.tour_eq, visited, entered_around, filterMap_cons_some s.id?_part]
      rfl
    rw [stmtsTour, visited_append, front, map_cons, cons_append]
    exact (ih.trans (sublist_append_right _ _)).cons_cons _

theorem CompilationUnit.mem_blocks : b ∈ unit.blocks ↔ .block b ∈ unit.entered := by
  rw [blocks, mem_filterMap, ← mem_left]
  constructor
  · rintro ⟨part, mem, same⟩
    cases part with
    | block _ => exact Option.some.inj same ▸ mem
    | _ => cases same
  · exact fun mem => ⟨_, mem, rfl⟩

/-- No two statements of a block have the same identity. -/
theorem CompilationUnit.WellNumbered.statements (numbered : unit.WellNumbered) (mem : b ∈ unit.blocks) :
    (b.statements.map Stmt.id).Nodup := by
  obtain ⟨near, has⟩ := stands_of_entered (mem_blocks.mp mem)
  obtain ⟨_, _, within⟩ := has.within
  obtain ⟨tag, ss⟩ := b
  have inside : stmtsTour ss <:+: unit.tour := by
    refine IsInfix.trans ?_ within.tour_infix
    exact ⟨[.enter (.block ⟨tag, ss⟩)], [.leave (.block ⟨tag, ss⟩)], rfl⟩
  refine Nodup.sublist ((ids_sublist ss).trans ?_) numbered.parts
  rw [unit.entered_eq]
  exact (inside.sublist.filterMap _).filterMap _

/-- Which of the statements of a block count for what it returns. -/
structure Counts (b : Block) (before : List Stmt) (returned next : Stmt) (rest : List Stmt) : Prop where
  counted : contributing b.statements = ((before ++ [returned]).filter Stmt.contributes).map Stmt.id
  kinds : ∀ s : Stmt, s.contributes = true ↔ s.TakesPart
  lost : ∀ s ∈ next :: rest, s.id ∉ contributing b.statements
  type : (Types.blockRule b).deps = AttrName.returnType.ofNodes (contributing b.statements)
  flag : (Returns.blockRule b).deps = AttrName.returns.ofNodes (contributing b.statements)

theorem GoesOn.counts {next : Stmt} {rest : List Stmt} (numbered : unit.WellNumbered)
    (mem : b ∈ unit.blocks) (h : GoesOn b.statements before returned next rest) :
    Counts b before returned next rest := by
  have counted := contributing_of_return h.returns h.first (next :: rest)
  rw [← h.split] at counted
  refine ⟨counted, Stmt.contributes_iff, fun s here listed => ?_, rfl, rfl⟩
  rw [counted] at listed
  obtain ⟨other, there, same⟩ := mem_map.mp listed
  have distinct := numbered.statements mem
  rw [h.split, append_cons, map_append] at distinct
  exact (nodup_append.mp distinct).2.2 _ (mem_map_of_mem (mem_filter.mp there).1) _
    (mem_map_of_mem here) same

/-- Warnings and returns.  Of a text without errors, what is said is one warning for each block, at any
depth, that goes on behind its first own return: at the statement right behind it, with that return.
What the block returns is found from the blocks, conditionals and returns in front of that statement. -/
theorem warnings_match_returns (source : List Char)
    (clean : hasErrors (Parser.ofText source).diagnostics = false) :
    let unit := (Parser.ofText source).unit
    (Parser.ofText source).diagnostics.Perm (unit.blocks.filterMap fun b => unreachable? b.statements) ∧
      (unit.blocks.map (·.tag.id)).Nodup ∧
      (∀ b, b ∈ unit.blocks ↔ ∃ near, unit.HasStmt near (.block b)) ∧
      ∀ b ∈ unit.blocks,
        (∀ d, unreachable? b.statements = some d ↔ ∃ before returned next rest,
          GoesOn b.statements before returned next rest ∧ d.WarnsOf returned next ∧
            d = Parser.unreachable returned.span next) ∧
        ∀ before returned next rest, GoesOn b.statements before returned next rest →
          Counts b before returned next rest := by
  intro unit
  have numbered : unit.WellNumbered := Parser.ofText_wellNumbered source
  refine ⟨Parser.ofText_warned clean, ?_, fun b => ?_, fun b mem => ⟨fun d => ?_, ?_⟩⟩
  · refine numbered.left.sublist (sublist_filterMap (fun part b same => ?_) _)
    cases part with
    | block _ => exact Option.some.inj same ▸ rfl
    | _ => cases same
  · rw [CompilationUnit.mem_blocks]
    exact ⟨CompilationUnit.stands_of_entered, fun ⟨_, has⟩ => has.entered⟩
  · rw [unreachable?_eq_some]
    constructor
    · rintro ⟨before, returned, next, rest, goesOn, rfl⟩
      exact ⟨before, returned, next, rest, goesOn, ⟨rfl, rfl, rfl⟩, rfl⟩
    · rintro ⟨before, returned, next, rest, goesOn, _, same⟩
      exact ⟨before, returned, next, rest, goesOn, same⟩
  · exact fun _ _ _ _ goesOn => goesOn.counts numbered mem

/-- Two blocks, one in the other, that go on behind a return, with statements of all kinds in front. -/
def overrun : List Char :=
  ("fun f(n: Int) -> Int \x7b \x7b f(n); \x7d while (n < 1) return 0; var m = n; " ++
    "if (n < 2) \x7b return 1; f(n); \x7d return 2; return 3; f(n); \x7d").toList

/-- An inner block, a conditional and a return count for the outer block, and one return for that of
the conditional. -/
theorem warnings_match_returns_overrun : hasErrors (Parser.ofText overrun).diagnostics = false ∧
    (Parser.ofText overrun).diagnostics.Perm
      ((Parser.ofText overrun).unit.blocks.filterMap fun b => unreachable? b.statements) ∧
    (Parser.ofText overrun).diagnostics.map (fun d => (d.severity, d.span, d.related.map (·.span))) =
      [(.warning, some ⟨91, 96⟩, [⟨81, 90⟩]), (.warning, some ⟨109, 118⟩, [⟨99, 108⟩])] ∧
    (Parser.ofText overrun).unit.blocks.map (fun b => b.statements.map fun s => (s.id, s.contributes)) =
      [[(⟨6⟩, false)], [(⟨20⟩, true), (⟨24⟩, false)], [(⟨7⟩, true), (⟨13⟩, false), (⟨15⟩, false),
        (⟨26⟩, true), (⟨28⟩, true), (⟨30⟩, true), (⟨34⟩, false)]] ∧
    (Parser.ofText overrun).unit.blocks.map (fun b => contributing b.statements) =
      [[], [⟨20⟩], [⟨7⟩, ⟨26⟩, ⟨28⟩]] := by
  have clean : hasErrors (Parser.ofText overrun).diagnostics = false := by decide +kernel
  exact ⟨clean, (warnings_match_returns overrun clean).1, by decide +kernel, by decide +kernel,
    by decide +kernel⟩

end BlFront
