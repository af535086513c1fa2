import BlFront.Proofs.Analysis.Found
import BlFront.Syntax.Parser.Stmt

/-!
# The types of array literals

An empty literal has the type that the annotation of a variable tells for its place, or it is refused
with one error.  A literal with elements is an array of the type that covers them all.
-/

namespace BlFront

open List Reactor Names

/-! ### Other errors -/

namespace Types

/-- The text with which empty literals are refused. -/
def refusal : String := "unable to determine type for array literal"

theorem append_ne {b : String} (other : ¬b.toList <:+ refusal.toList) (a : String) :
    a ++ b ≠ refusal := by
  intro same
  rw [← same, String.toList_append] at other
  exact other (suffix_append ..)

/-- A result that is no refusal of a literal. -/
def Other (result : Except SemanticError Value) : Prop := ∀ e, result = .error e → e.message ≠ refusal

section Results

variable {span : Span} {type : Ty} {name : String}

theorem other_ok {v : Value} : Other (.ok v) := fun _ same => by cases same

theorem message_ne (problem : TypeProblem) : problem.message ≠ refusal := by
  unfold TypeProblem.message
  split <;> simp [refusal, ← String.toList_inj]

theorem problemAt_other {result : Except TypeProblem Ty} : Other (problemAt span result) := by
  rcases result with problem | type
  · rintro _ ⟨⟩
    exact message_ne problem
  · exact other_ok

theorem callType_other : Other (callType span type) := by
  unfold callType
  split <;> simp [Other, refusal]

theorem methodMeaning_other {t : SymbolTable} : Other (methodMeaning span name type t) := by
  unfold methodMeaning
  split
  · split <;> simp [Other, refusal, ← String.toList_inj]
  · simp [Other, refusal, ← String.toList_inj]

theorem methodResult_other : Other (methodResult span name type) := by
  unfold methodResult
  dsimp only
  split
  · exact other_ok
  · rintro _ ⟨⟩
    exact append_ne (by decide +kernel) name

theorem fieldType_other : Other (fieldType span name type) := by
  have named : ∀ owner (found : Option Ty), Other (fieldNamed span name owner found) := by
    rintro owner (_ | type) <;> simp [Other, fieldNamed, refusal, ← String.toList_inj]
  cases type with
  | struct symbol name fields => exact named _ _
  | object own supers => exact named _ _
  | _ => simp [Other, fieldType, refusal, ← String.toList_inj]

theorem elementType_other : Other (elementType span type) := by
  unfold elementType
  split <;> simp [Other, refusal, ← String.toList_inj]

end Results

/-- A computation that refuses no literal. -/
def Says (result : Except ReactorError (List Effect)) : Prop :=
  ∀ effects, result = .ok effects → ∀ e ∈ effects.flatMap Effect.errors, e.message ≠ refusal

theorem says_bind {α : Type} {x : Except ReactorError α}
    {f : α → Except ReactorError (List Effect)} (each : ∀ a, Says (f a)) : Says (x >>= f) := by
  cases x with
  | error e => exact fun _ same => by cases same
  | ok a => exact each a

theorem says_result {result : Except SemanticError Value} {attr : Attribute} (other : Other result) :
    Says (pure [.write attr (.ofResult result)]) := by
  rintro _ ⟨⟩ e mem
  cases result with
  | ok v => cases mem
  | error e' =>
    cases mem_singleton.mp mem
    exact other _ rfl

theorem says_value {attr : Attribute} {v : Value} : Says (pure [.write attr (.value v)]) :=
  have other : Other (.ok v) := other_ok
  says_result other

/-- Requests that refuse no literal. -/
def Aside (qs : List Request) : Prop :=
  ∀ q ∈ qs, ∀ t values, ∀ e ∈ q.errors t values, e.message ≠ refusal

theorem aside_nil : Aside [] := fun _ mem => by cases mem

theorem aside_silent {q : Request} (silent : ∀ t values, q.errors t values = []) : Aside [q] := by
  intro q mem t values e reported
  cases mem_singleton.mp mem
  rw [silent] at reported
  cases reported

theorem aside_computing {name : String} {deps exports : List Attribute}
    {f : View → Except ReactorError (List Effect)} (each : ∀ view, Says (f view)) :
    Aside [.register (.computing name deps exports f)] := by
  intro q mem t values e reported
  cases mem_singleton.mp mem
  simp only [Request.errors, Rule.errors, Rule.tidied, Rule.computing, Rule.bodyErrors] at reported
  split at reported
  · split at reported
    · next result => exact each _ _ result e (by simpa using reported)
    · cases reported
  · cases reported

theorem aside_map {α : Type} {name : String} {kind : Kind α} {source target : Attribute}
    {f : α → SymbolTable → Except SemanticError Value} (other : ∀ a t, Other (f a t)) :
    Aside [.register (.map name kind source target f)] :=
  aside_computing fun view => says_bind fun a => says_result (other a view.symbols)

theorem aside_copy {name : String} {source target : Attribute} :
    Aside [.register (.copy name source target)] :=
  aside_map fun _ _ => other_ok

theorem aside_flatMap {α : Type} {name : String} {kind : Kind α} {sources : List Attribute}
    {target : Attribute} {f : List α → SymbolTable → Value} :
    Aside [.register (.flatMap name kind sources target fun as t => .ok (f as t))] :=
  aside_computing fun _ => says_bind fun _ => says_result other_ok

section Parts

variable {r : Reactor}

theorem aside_withSymbol {attr : Attribute} {requests : SymbolId → List Request}
    (each : ∀ s, Aside (requests s)) : Aside (r.withSymbol attr requests) := by
  unfold withSymbol
  split
  · exact each _
  · exact aside_silent fun _ _ => rfl

theorem aside_withSymbols {nodes : List NodeId} {requests : List SymbolId → List Request}
    (each : ∀ ss, Aside (requests ss)) : Aside (r.withSymbols nodes requests) := by
  induction nodes generalizing requests with
  | nil => exact each []
  | cons n nodes ih => exact aside_withSymbol fun s => ih fun ss => each (s :: ss)

theorem aside_expr {e : Expr} (filled : ∀ tag, e ≠ .array tag []) (expected : Option Expected) :
    Aside (exprRequests r expected e) := by
  cases e with
  | literal tag value => exact aside_silent fun _ _ => rfl
  | array tag elements =>
    cases elements with
    | nil => exact absurd rfl (filled tag)
    | cons first rest => exact aside_flatMap
  | reference tag name => exact aside_withSymbol fun _ => aside_copy
  | selfRef tag => exact aside_withSymbol fun _ => aside_copy
  | unary tag op operand => exact aside_map fun _ _ => problemAt_other
  | binary tag op left right =>
    exact aside_computing fun _ => says_bind fun _ => says_bind fun _ => says_result problemAt_other
  | assign tag target value => exact aside_copy
  | call tag callee args => exact aside_map fun _ _ => callType_other
  | methodCall tag receiver method args =>
    refine forall_mem_cons.mpr ⟨aside_map (fun _ _ => methodMeaning_other) _ (.head _), ?_⟩
    exact aside_computing fun _ => says_bind fun _ => says_result methodResult_other
  | select tag object field => exact aside_map fun _ _ => fieldType_other
  | index tag object position => exact aside_map fun _ _ => elementType_other

/-- Only empty literals are refused as such. -/
theorem aside_part {t : SymbolTable} {part : Part}
    (filled : ∀ tag expected, part ≠ .expr (.array tag []) expected) :
    Aside (partRequests r t part) := by
  cases part with
  | function decl =>
    exact aside_withSymbol fun _ => aside_withSymbols fun _ =>
      aside_computing fun _ => says_bind fun _ => says_bind fun _ => says_value
  | param decl => exact aside_withSymbol fun _ => aside_copy
  | structDecl decl => exact aside_withSymbol fun _ => aside_withSymbols fun _ => aside_flatMap
  | classDecl decl =>
    exact aside_withSymbol fun _ => aside_withSymbols fun _ => aside_withSymbols fun _ =>
      aside_computing fun _ => says_bind fun _ => says_bind fun _ => says_bind fun _ => says_value
  | field decl => exact aside_withSymbol fun _ => aside_copy
  | varDecl decl =>
    rw [partRequests]
    split
    · exact aside_nil
    · exact aside_withSymbol fun _ => aside_copy
  | typed decl written => exact aside_withSymbol fun _ => aside_copy
  | block block => exact aside_flatMap
  | ifElse tag condition thenBranch elseBranch =>
    exact aside_computing fun _ => says_bind fun _ => says_bind fun _ => says_value
  | whileLoop tag condition => exact aside_nil
  | returnStmt tag value =>
    cases value with
    | none => exact aside_silent fun _ _ => rfl
    | some value => exact aside_map fun _ _ => other_ok
  | exprStmt tag => exact aside_nil
  | expr e expected => exact aside_expr (fun tag same => filled tag expected (by rw [same])) expected
  | type written =>
    cases written with
    | named tag name =>
      refine aside_withSymbol fun s => ?_
      split
      · exact aside_copy
      · intro q mem t values e reported
        cases mem_singleton.mp mem
        cases mem_singleton.mp reported
        exact append_ne (by decide +kernel) name
    | array tag element => exact aside_map fun _ _ => other_ok

end Parts

/-! ### Layers of arrays -/

theorem peelArrays_eq_some {depth : Nat} {type inner : Ty} :
    peelArrays depth type = some inner ↔ type = Ty.array^[depth] inner := by
  induction depth generalizing type with
  | zero => simp [peelArrays]
  | succ depth ih =>
    rw [Function.iterate_succ_apply']
    cases type with
    | array element => rw [peelArrays, ih, Ty.array.injEq]
    | _ => simp [peelArrays]

end Types

namespace Analysis

variable {unit : CompilationUnit} {a b : Analysis} {part : Part}

/-- Nothing tells the type of an empty literal: no annotation stands above it, or one that has no
array type for its place. -/
def Refuses (b : Analysis) (unit : CompilationUnit) (tag : Tag) : Prop :=
  (∀ written depth, ¬unit.Annotates written depth (.array tag [])) ∨
    ∃ written depth type, unit.Annotates written depth (.array tag []) ∧
      b.typeOf? written.id = some type ∧ ∀ element, type ≠ Ty.array^[depth] (.array element)

/-- The types of array literals, and the errors about them. -/
structure ArraysTyped (b : Analysis) (unit : CompilationUnit) : Prop where
  followed : ∀ {written depth tag element}, unit.Annotates written depth (.array tag []) →
    b.typeOf? written.id = some (Ty.array^[depth] (.array element)) →
      b.typeOf? tag.id = some (.array element)
  refused : ∃ tags : List Tag, (tags.map (·.id)).Nodup ∧
    (∀ tag, tag ∈ tags ↔ (∃ near, unit.HasExpr near (.array tag [])) ∧ b.Refuses unit tag) ∧
    (b.reactor.rootErrors.filter
      (·.message == "unable to determine type for array literal")).Perm
        (tags.map fun tag => ⟨tag.span, "unable to determine type for array literal"⟩)
  joined : ∀ {near tag first rest type} {types : List Ty}, unit.HasExpr near (.array tag (first :: rest)) →
    b.typeOf? first.id = some type → rest.map (fun e => b.typeOf? e.id) = types.map some →
      b.typeOf? tag.id = some (.array (types.foldl Ty.join type))

/-- An empty literal whose type nothing tells. -/
def refused? (b : Analysis) : Part → Option Tag
  | .expr (.array tag []) none => some tag
  | .expr (.array tag []) (some expected) =>
    match b.typeOf? expected.annotated with
    | none => none
    | some type => match Types.peelArrays expected.depth type with
      | some (.array _) => none
      | _ => some tag
  | _ => none

section Ran

variable (ran : Ran .resolveTypes a b) (named : Named unit a)

include ran named

theorem Ran.arraysJoined {near : Surroundings} {tag : Tag} {elements : List Expr} {types : List Ty}
    (has : unit.HasExpr near (.array tag elements)) (filled : elements ≠ [])
    (typed : elements.map (fun e => b.typeOf? e.id) = types.map some) :
    b.typeOf? tag.id = some (.array (Types.joinAll types)) := by
  obtain ⟨expected, entered⟩ := has.entered
  have known : ∀ e ∈ elements, b.typing.HasType e.id (b.typeAt e.id) := by
    intro e mem
    obtain ⟨type, _, same⟩ := mem_map.mp (typed ▸ mem_map_of_mem mem : b.typeOf? e.id ∈ _)
    exact ran.hasType (Typing.HasType.valued (a := b) same.symm)
  have mem : .register (Types.arrayRule tag elements) ∈
      Types.partRequests a.reactor (table unit) (.expr (.array tag elements) expected) := by
    cases elements with
    | nil => exact absurd rfl filled
    | cons first rest => exact .head _
  have written := ran.recorded named entered mem
    (forall_mem_map.mpr fun e inside => (known e inside).valued.get?)
    (Types.arrayRule_computes (fun d => (valueAt b.reactor d).asType)
      (forall_mem_map.mpr fun e inside => (known e inside).valueAt_eq))
  have same : (elements.map fun e => typeOf e.id).map (fun d => (valueAt b.reactor d).asType) =
      types := by
    refine map_injective_iff.mpr (Option.some_injective _) ?_
    rw [← typed, map_map, map_map]
    exact map_congr_left fun e inside => (known e inside).symm
  rw [same] at written
  exact hasType_iff.mpr written

theorem Ran.emptyTyped {expected : Expected} {tag : Tag} {element : Ty}
    (entered : .expr (.array tag []) (some expected) ∈ unit.entered)
    (typed : b.typeOf? expected.annotated = some (Ty.array^[expected.depth] (.array element))) :
    b.typeOf? tag.id = some (.array element) := by
  have held : b.typing.HasType expected.annotated _ := typed
  have written := ran.recorded named entered (.head _)
    (forall_mem_singleton.mpr held.valued.get?)
    (Rule.map_computes _ (by rw [held.valueAt_eq]; rfl) _ _)
  rw [Types.peelArrays_eq_some.mpr rfl] at written
  exact hasType_iff.mpr written

omit named in
/-- The errors that the request for an empty literal leads to. -/
theorem Ran.errors_empty (tag : Tag) (expected : Option Expected) :
    (Types.emptyArrayRequest tag expected).errors (table unit) b.reactor.get? =
      (b.refused? (.expr (.array tag []) expected)).toList.map fun tag => ⟨tag.span, Types.refusal⟩ := by
  cases expected with
  | none => rfl
  | some expected =>
    rw [refused?]
    cases told : b.typeOf? expected.annotated with
    | none =>
      refine Rule.errors_of_open (d := typeOf expected.annotated) (.head _) ?_
      cases held : b.reactor.get? (typeOf expected.annotated) with
      | none => rfl
      | some v =>
        have typed : b.typeOf? expected.annotated = some _ := ran.hasType ⟨v, held⟩
        rw [told] at typed
        cases typed
    | some type =>
      have typed : b.typing.HasType expected.annotated type := told
      have found : ∀ d ∈ [typeOf expected.annotated],
          b.reactor.get? d = some (valueAt b.reactor d) :=
        forall_mem_singleton.mpr typed.valued.get?
      refine (Rule.errors_of_computes found
        (Rule.map_computes _ (by rw [typed.valueAt_eq]; rfl) _ _)).trans ?_
      dsimp only
      rcases Types.peelArrays expected.depth type with _ | inner
      · rfl
      · cases inner <;> rfl

omit named in
theorem Ran.errors_part (part : Part) :
    ((Types.partRequests a.reactor (table unit) part).flatMap
      (Request.errors (table unit) b.reactor.get?)).filter (·.message == Types.refusal) =
      (b.refused? part).toList.map fun tag => ⟨tag.span, Types.refusal⟩ := by
  by_cases empty : ∃ tag expected, part = .expr (.array tag []) expected
  · obtain ⟨tag, expected, rfl⟩ := empty
    rw [Types.partRequests, Types.exprRequests, flatMap_singleton, ran.errors_empty, filter_eq_self]
    exact fun e mem => by obtain ⟨_, _, rfl⟩ := mem_map.mp mem; simp
  · have filled : ∀ tag expected, part ≠ .expr (.array tag []) expected := by simpa using empty
    have none : b.refused? part = none := by
      unfold refused?
      split
      · exact absurd rfl (filled _ _)
      · exact absurd rfl (filled _ _)
      · rfl
    rw [none, Option.toList_none, map_nil, filter_eq_nil_iff]
    intro e mem
    obtain ⟨q, asked, reported⟩ := mem_flatMap.mp mem
    simpa using Types.aside_part filled q asked _ _ e reported

end Ran

/-- The literals that are refused, told by the syntax alone. -/
theorem exists_refused?_iff (numbered : unit.WellNumbered) {tag : Tag} :
    (∃ part ∈ unit.left, b.refused? part = some tag) ↔
      (∃ near, unit.HasExpr near (.array tag [])) ∧ b.Refuses unit tag := by
  -- an annotation above the literal is what the tour has told there
  have told : ∀ {expected written depth}, .expr (.array tag []) expected ∈ unit.entered →
      unit.Annotates written depth (.array tag []) → expected = some ⟨written.id, depth⟩ := by
    intro expected written depth entered above
    have same := numbered.unique entered above.entered rfl rfl
    cases same
    rfl
  constructor
  · rintro ⟨part, left, refused⟩
    have entered := CompilationUnit.mem_left.mp left
    unfold refused? at refused
    split at refused
    · cases refused
      obtain ⟨has, _⟩ := CompilationUnit.stands_of_entered entered
      refine ⟨has, .inl fun written depth above => ?_⟩
      cases told entered above
    · next tag' expected =>
      obtain ⟨has, written, above, same⟩ := CompilationUnit.stands_of_entered entered
      split at refused
      · cases refused
      · next type typed =>
        split at refused
        · cases refused
        · next other =>
          cases refused
          refine ⟨has, .inr ⟨written, expected.depth, type, above, same ▸ typed, fun element is => ?_⟩⟩
          exact other element (Types.peelArrays_eq_some.mpr is)
    · cases refused
  · rintro ⟨⟨near, has⟩, refuses⟩
    obtain ⟨expected, entered⟩ := has.entered
    refine ⟨_, CompilationUnit.mem_left.mpr entered, ?_⟩
    rcases refuses with free | ⟨written, depth, type, above, typed, other⟩
    · obtain ⟨_, expects⟩ := CompilationUnit.stands_of_entered entered
      cases expected with
      | none => rfl
      | some expected =>
        obtain ⟨written, above, _⟩ := expects
        exact absurd above (free _ _)
    · cases told entered above
      rw [refused?, typed]
      dsimp only
      split
      · next element peeled => exact absurd (Types.peelArrays_eq_some.mp peeled) (other element)
      · rfl

theorem Named.arraysTyped (named : Named unit a) (numbered : unit.WellNumbered)
    (ran : Ran .resolveTypes a b) : b.ArraysTyped unit where
  followed above typed := ran.emptyTyped named above.entered typed
  refused := by
    refine ⟨unit.left.filterMap b.refused?, ?_, fun tag => ?_, ?_⟩
    · refine numbered.left.sublist (sublist_filterMap (fun part tag same => ?_) _)
      unfold refused? at same
      split at same
      · cases same
        rfl
      · split at same
        · cases same
        · split at same <;> cases same
          rfl
      · cases same
    · rw [mem_filterMap, exists_refused?_iff numbered]
    · have perm := (named.ready numbered).rootErrors_perm ran fun rule => named.decided _
      rw [named.plan_eq, named.done.clean, nil_append, Types.plan, flatMap_assoc] at perm
      refine (perm.filter _).trans (.of_eq ?_)
      rw [filter_flatMap, filterMap_eq_flatMap_toList, map_flatMap]
      exact flatMap_congr fun part _ => ran.errors_part part
  joined {_ _ _ _ type types} has first rest :=
    have typed : _ = (type :: types).map some := congrArg₂ cons first rest
    ran.arraysJoined named has (cons_ne_nil _ _) typed

end Analysis

/-- A unit that passes the pass over names goes through the pass over types, in which annotations alone
decide about empty array literals, and in which all other array literals cover their elements. -/
theorem array_literals_typed (unit : CompilationUnit) (a : Analysis)
    (reached : analyzeUntil unit .resolveReferences = .ok a) :
    ∃ b, a.advance .resolveTypes = .ok b ∧ b.ArraysTyped unit ∧
      analyzeUntil unit .resolveTypes = if b.reactor.rootErrors.isEmpty then .ok b
        else .error (.rejected .resolveTypes b.reactor.rootErrors) := by
  obtain ⟨numbered, named⟩ := named_of_analyzeUntil reached
  obtain ⟨b, ran⟩ := (named.ready numbered).exists_ran
  refine ⟨b, ran.advanced, named.arraysTyped numbered ran, ?_⟩
  rw [analyzeUntil_eq .resolveReferences rfl, reached]
  simp only [Except.bind, Analysis.step, ran.advanced]

/-- A nest of literals under an annotation that goes too deep in one place, and literals in a call and
in an initializer that no annotation reaches. -/
def nests : CompilationUnit := (Parser.ofText ("fun f(xs: [Int]) \x7b \x7d " ++
  "var a: [[Int]] = [[1], [], [[]]]; fun g() \x7b f([]); var b = [[], [2, 3]]; \x7d").toList).unit

theorem array_literals_typed_nests : ∃ a, analyzeUntil nests .resolveReferences = .ok a ∧
    ∃ b, a.advance .resolveTypes = .ok b ∧ b.ArraysTyped nests ∧ b.reactor.rootErrors ≠ [] := by
  obtain ⟨a, reached⟩ : ∃ a, analyzeUntil nests .resolveReferences = .ok a :=
    exists_of_isOk (by decide +kernel)
  obtain ⟨b, advanced, typed, result⟩ := array_literals_typed nests a reached
  refine ⟨a, reached, b, advanced, typed, fun clean => ?_⟩
  have refused : (analyzeUntil nests .resolveTypes).isOk = false := by decide +kernel
  rw [result, clean] at refused
  cases refused

end BlFront
