import BlFront.Analysis.Checks
import BlFront.Analysis.Returns
import BlFront.Proofs.Analysis.Missing

/-!
# What the checking passes ask for

The pass over type checks adds no slots.  The pass over missing returns adds a flag to each block,
conditional and return.
-/

namespace BlFront

open List CompilationUnit Reactor

variable {part : Part} {q : Request} {name : String} {tag : Tag}

open Names

variable {unit : CompilationUnit} {r : Reactor} {t : SymbolTable}

/-! ### Type checks -/

namespace Checks

theorem check_computes {deps : List Attribute} {f : List Ty → List SemanticError}
    {values : Attribute → Value} {types : Attribute → Ty}
    (typed : ∀ d ∈ deps, values d = .type (types d)) :
    (check name deps f).Computes t values ((f (deps.map types)).map .report) := by
  refine Rule.computing_computes fun view _ declared found => ?_
  have read : view.getAll Kind.type deps = .ok (deps.map types) :=
    View.getAll_eq_ok declared found (mapM_extract fun d hd => by rw [typed d hd]; rfl)
  rw [read]
  rfl

theorem writes_report (errors : List SemanticError) : writes (errors.map Effect.report) = [] := by
  simp [writes, Effect.write?]

theorem check_admits {deps : List Attribute} {f : List Ty → List SemanticError}
    (types : ∀ d ∈ deps, d.name = .type) : (outlook t).Admits (check name deps f).tidied := by
  refine (decides_computing fun values held => ?_).within
  have typed : ∀ d ∈ deps, values d = .type (values d).asType := fun d hd => by
    obtain ⟨type, same, _⟩ := (held d hd).type (types d hd)
    rw [same]
    rfl
  refine ⟨_, check_computes typed, ?_, fun attr v hw => ?_⟩
  · rw [writes_report]
    rfl
  · rw [writes_report] at hw
    cases hw

/-- A request that adds no slot and reads only types. -/
def IsCheck : Request → Prop
  | .register rule => ∃ name deps f, rule = check name deps f ∧ ∀ d ∈ deps, d.name = .type
  | .reject _ affected => affected = []
  | _ => False

theorem IsCheck.targets (h : IsCheck q) : q.targets = [] := by
  cases q with
  | register rule =>
    obtain ⟨name, deps, f, rfl, _⟩ := h
    rfl
  | reject error affected => exact h
  | seed attr v => exact h.elim
  | abort error => exact h.elim

theorem IsCheck.admitted (h : IsCheck q) : q.Admitted (outlook t) := by
  cases q with
  | register rule =>
    obtain ⟨name, deps, f, rfl, types⟩ := h
    exact check_admits types
  | reject error affected => exact fun _ _ => trivial
  | seed attr v => exact h.elim
  | abort error => exact h.elim

theorem isCheck_oneOf (name : String) (e : Expr) (accepted : List Ty) :
    IsCheck (.register (oneOf name e accepted)) :=
  ⟨_, _, _, rfl, by simp [typeOf, AttrName.of]⟩

theorem isCheck_assignable (name : String) (value : Expr) (owner : Owner) :
    IsCheck (.register (assignable name value (typeOf owner))) :=
  ⟨_, _, _, rfl, by simp [typeOf, AttrName.of]⟩

theorem isCheck_call (name : String) (span : Span) (owner : Owner) (args : List Expr)
    (parameters : Ty → Option (List Member)) :
    IsCheck (.register (call name span (typeOf owner) args parameters)) :=
  ⟨_, _, _, rfl, by simp [typeOf, AttrName.of]⟩

theorem isCheck_assignment (valid : Bool) (target value : Expr) :
    ∀ q ∈ assignmentRequests valid target value, IsCheck q := by
  intro q hq
  cases valid <;> cases mem_singleton.mp hq
  · rfl
  · exact isCheck_assignable _ value _

theorem variable_requests (h : Bindings unit r) {decl : VarDecl}
    (entered : .varDecl decl ∈ unit.entered) (t : SymbolTable) :
    partRequests r t (.varDecl decl) = [.register (assignable
      "check initializer matches variable type" decl.initializer
      (typeOf (symbolAt r decl.tag.id)))] :=
  withSymbol_eq (h.symbolAt entered rfl rfl).2 _

theorem return_requests (h : Bindings unit r) {value : Option Expr} {around : List Part}
    (site : (.returnStmt tag value, around) ∈ unit.sites) (t : SymbolTable) :
    ∃ decl, around.find? Part.isFunction = some (.function decl) ∧
      partRequests r t (.returnStmt tag value) = [.register (check "check return"
        (typeOf (symbolAt r decl.tag.id) :: value.toList.map fun v => typeOf v.id)
        (returnErrors tag.span value))] := by
  obtain ⟨decl, s, nearest, bound, inside⟩ := h.inFunction site
  rw [← symbolAt_eq bound] at inside
  exact ⟨decl, nearest, withSymbol_eq inside _⟩

theorem assignRequests_reference (h : Bindings unit r) {expected : Option Expected}
    (entered : .expr (.reference tag name) expected ∈ unit.entered) (t : SymbolTable) (value : Expr) :
    assignRequests r t (.reference tag name) value =
      assignmentRequests (isTarget t (symbolAt r tag.id)) (.reference tag name) value :=
  withSymbol_eq (h.symbolAt_named entered rfl) _

theorem isCheck_exprRequests (h : Bindings unit r) {e : Expr} {expected : Option Expected}
    (entered : .expr e expected ∈ unit.entered) (hq : q ∈ partRequests r t (.expr e expected)) :
    IsCheck q := by
  change q ∈ exprRequests r t e at hq
  cases e with
  | index tag object position =>
    cases mem_singleton.mp hq
    exact isCheck_oneOf ..
  | unary tag op operand =>
    cases mem_singleton.mp hq
    exact isCheck_oneOf ..
  | binary tag op left right =>
    obtain ⟨rule, hrule, rfl⟩ := mem_map.mp hq
    rw [binaryRules, mem_append] at hrule
    rcases hrule with operand | both
    · split at operand
      · cases operand
      · rcases mem_pair.mp operand with rfl | rfl <;> exact isCheck_oneOf ..
    · split at both
      · cases mem_singleton.mp both
        exact ⟨_, _, _, rfl, by simp [typeOf, AttrName.of]⟩
      · cases both
  | assign tag target value =>
    have inside : .expr target none ∈ unit.entered :=
      child_entered entered (by simp [Part.children, Expr.operands])
    change q ∈ assignRequests r t target value at hq
    cases target with
    | reference tag name =>
      rw [assignRequests_reference h inside] at hq
      exact isCheck_assignment _ _ _ q hq
    | _ => exact isCheck_assignment _ _ _ q hq
  | call tag callee args =>
    cases mem_singleton.mp hq
    exact isCheck_call ..
  | methodCall tag receiver method args =>
    cases mem_singleton.mp hq
    exact isCheck_call ..
  | _ => cases hq

theorem isCheck_partRequests (h : Bindings unit r) (entered : part ∈ unit.entered)
    (hq : q ∈ partRequests r t part) : IsCheck q := by
  cases part with
  | varDecl decl =>
    rw [variable_requests h entered] at hq
    cases mem_singleton.mp hq
    exact isCheck_assignable ..
  | ifElse tag condition thenBranch elseBranch =>
    cases mem_singleton.mp hq
    exact isCheck_oneOf ..
  | whileLoop tag condition =>
    cases mem_singleton.mp hq
    exact isCheck_oneOf ..
  | returnStmt tag value =>
    obtain ⟨around, site⟩ := exists_site entered
    obtain ⟨decl, _, requests⟩ := return_requests h site t
    rw [requests] at hq
    cases mem_singleton.mp hq
    exact ⟨_, _, _, rfl, by simp [typeOf, AttrName.of]⟩
  | expr e expected => exact isCheck_exprRequests h entered hq
  | _ => cases hq

theorem isCheck_plan (h : Bindings unit r) (hq : q ∈ plan unit t r) : IsCheck q := by
  obtain ⟨part, entered, hq⟩ := mem_flatMap.mp hq
  exact isCheck_partRequests h entered hq

theorem targets_plan (h : Bindings unit r) : (plan unit t r).flatMap Request.targets = [] := by
  rw [flatMap_eq_nil_iff]
  exact fun q hq => (isCheck_plan h hq).targets

end Checks

/-! ### Missing returns -/

namespace Returns

/-- What is asked for about the node of a part. -/
def marking : Part → List AttrName
  | .block _ | .ifElse _ _ _ _ | .returnStmt _ _ => [.returns]
  | _ => []

theorem function_requests (h : Bindings unit r) {decl : FunctionDecl}
    (entered : .function decl ∈ unit.entered) : partRequests r (.function decl) =
      [.register (functionRule decl (symbolAt r decl.tag.id))] :=
  withSymbol_eq (h.symbolAt entered rfl rfl).2 _

theorem targets_ifRequest (tag : Tag) (thenBranch : Stmt) (elseBranch : Option Stmt) :
    (ifRequest tag thenBranch elseBranch).targets = [AttrName.returns.of tag.id] := by
  unfold ifRequest
  split
  · split <;> rfl
  · rfl

theorem targets_partRequests (h : Bindings unit r) (entered : part ∈ unit.entered) :
    (partRequests r part).flatMap Request.targets = part.attrs (marking part) := by
  cases part with
  | function decl =>
    rw [function_requests h entered]
    rfl
  | ifElse tag condition thenBranch elseBranch =>
    rw [partRequests, flatMap_singleton, targets_ifRequest]
    rfl
  | _ => rfl

theorem targets_plan (h : Bindings unit r) : (plan unit r).flatMap Request.targets =
    unit.left.flatMap fun part => part.attrs (marking part) := by
  rw [plan, flatMap_assoc]
  exact flatMap_congr fun part hp =>
    targets_partRequests h (mem_left.mp hp)

theorem nodup_plan (h : Bindings unit r) (numbered : unit.WellNumbered) :
    ((plan unit r).flatMap Request.targets).Nodup := by
  rw [targets_plan h]
  refine nodup_flatMap_attrs numbered.left fun part => ?_
  cases part <;> simp [marking]

theorem returns_of_mem_marking {name : AttrName} (h : name ∈ marking part) : name = .returns := by
  cases part with
  | block body => exact mem_singleton.mp h
  | ifElse tag condition thenBranch elseBranch => exact mem_singleton.mp h
  | returnStmt tag value => exact mem_singleton.mp h
  | _ => cases h

theorem name_of_mem_targets (h : Bindings unit r) {attr : Attribute}
    (ha : attr ∈ (plan unit r).flatMap Request.targets) : attr.name = .returns := by
  rw [targets_plan h] at ha
  obtain ⟨part, _, ha⟩ := mem_flatMap.mp ha
  obtain ⟨_, _, _, name⟩ := Part.mem_attrs.mp ha
  exact returns_of_mem_marking name

/-! ### Rules of the pass over missing returns -/

theorem flags_decide (nodes : List NodeId) {target : Attribute}
    {f : List Bool → SymbolTable → Except SemanticError Value} (isFlag : target.name = .returns)
    (flags : ∀ bs w, f bs t = .ok w → ∃ b, w = .flag b) :
    (outlook t).Decides (Rule.flatMap name Kind.flag (AttrName.returns.ofNodes nodes) target f) := by
  refine decides_flatMap (fun _ => True) ?_ ?_
  · intro d hd
    obtain ⟨n, _, rfl⟩ := mem_map.mp hd
    exact extract_flag rfl
  · intro bs _ w hw
    obtain ⟨b, rfl⟩ := flags bs w hw
    exact isFlag

theorem functionRule_computes {decl : FunctionDecl} {symbol : SymbolId}
    {values : Attribute → Value} {type : Ty} {flag : Bool}
    (typed : values (typeOf symbol) = .type type)
    (flagged : values (AttrName.returns.of decl.body.tag.id) = .flag flag) :
    (functionRule decl symbol).Computes t values
      (if needsReturn type && !flag then [.report ⟨decl.tag.span, "missing return"⟩] else []) := by
  refine Rule.computing_computes fun view _ declared found => ?_
  have first : view.get Kind.type (typeOf symbol) = .ok type :=
    View.get_eq_ok (declared _ (by simp)) (found _ (by simp)) (by rw [typed]; rfl)
  have second : view.get Kind.flag (AttrName.returns.of decl.body.tag.id) = .ok flag :=
    View.get_eq_ok (declared _ (by simp)) (found _ (by simp)) (by rw [flagged]; rfl)
  simp only [first, second, bind, Except.bind]
  cases needsReturn type <;> cases flag <;> rfl

theorem functionRule_decides (decl : FunctionDecl) (symbol : SymbolId) :
    (outlook t).Decides (functionRule decl symbol) := by
  refine decides_computing fun values held => ?_
  obtain ⟨type, typed, _⟩ := (held (typeOf symbol) (by simp)).type rfl
  obtain ⟨flag, flagged⟩ := (held (AttrName.returns.of decl.body.tag.id) (by simp)).flag rfl
  refine ⟨_, functionRule_computes typed flagged, ?_⟩
  split <;> simp [writes, Effect.write?]

theorem plan_decided (h : Bindings unit r) :
    ∀ q ∈ plan unit r, q.Decided t fun _ _ => True := by
  intro q hq
  obtain ⟨part, hp, hq⟩ := mem_flatMap.mp hq
  have entered := mem_left.mp hp
  cases part with
  | function decl =>
    rw [function_requests h entered] at hq
    cases mem_singleton.mp hq
    exact functionRule_decides decl _
  | block body =>
    cases mem_singleton.mp hq
    exact flags_decide _ rfl fun bs w hw => ⟨_, (Except.ok.inj hw).symm⟩
  | ifElse tag condition thenBranch elseBranch =>
    cases mem_singleton.mp hq
    unfold ifRequest
    split
    · split
      · exact flags_decide [_, _] rfl fun bs w hw => ⟨_, (Except.ok.inj hw).symm⟩
      · rfl
    · rfl
  | returnStmt tag value =>
    cases mem_singleton.mp hq
    rfl
  | _ => cases hq

end Returns

end BlFront
