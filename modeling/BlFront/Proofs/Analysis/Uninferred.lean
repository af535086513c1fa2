import BlFront.Proofs.Analysis.Complete
import BlFront.Proofs.Analysis.Scoping

/-!
# Types that could not be inferred

The pass over missing types reports each symbol without a type once, by its name and where it is
first mentioned, and each array literal without a type.  It has no need to report other nodes: a use
of a symbol that has a type has that type.
-/

namespace BlFront

open List Names

namespace Analysis

/-- The pass over the names of a unit has found no errors. -/
structure Resolved (unit : CompilationUnit) (a b : Analysis) : Prop where
  begun : Begun unit a
  ran : Ran .resolveReferences a b
  clean : b.reactor.rootErrors = []

variable {unit : CompilationUnit} {a b : Analysis}

theorem Resolved.named (h : Resolved unit a b) : Named unit b := h.begun.named h.ran h.clean

theorem Resolved.bindings (h : Resolved unit a b) : Bindings unit b.reactor := h.named.done.bindings

theorem Resolved.passed (h : Resolved unit a b) :
    Reactor.Passed (table unit) (Names.plan unit .initial).2 a.reactor b.reactor :=
  h.begun.passed h.ran

end Analysis

namespace Inferred

variable {unit : CompilationUnit} {part : Part} {s : SymbolId} {name : String} {tag : Tag}

/-! ### Names of symbols -/

theorem name_of_mem_declaredBy (numbered : unit.WellNumbered) {d : Declaration}
    (mem : d ∈ declaredBy unit.tour) : (table unit).name d.symbol = d.name := by
  obtain ⟨symbol, held, describes⟩ := describes_of_mem numbered mem
  rw [SymbolTable.name, held, Option.map_some, Option.getD_some, describes.name]

theorem mem_declarationsFrom {visits : List Visit} {n : Nat} :
    (part, s) ∈ declarationsFrom n visits ↔
      n ≤ s.index ∧ (visits.filterMap Visit.declaring?)[s.index - n]? = some part := by
  rw [← mk_mem_zipIdx_iff_le_and_getElem?_sub, declarationsFrom, mem_map]
  constructor
  · rintro ⟨e, mem, same⟩
    cases same
    exact mem
  · exact fun mem => ⟨_, mem, rfl⟩

theorem name_of_mem_declarations (numbered : unit.WellNumbered) (mem : (part, s) ∈ declarations unit) :
    (table unit).name s = part.declaredName := by
  rw [declarations, mem_declarationsFrom, ← map_fst_pickedFrom _ [], List.getElem?_map,
    Option.map_eq_some_iff] at mem
  obtain ⟨above, declared, found, rfl⟩ := mem
  exact name_of_mem_declaredBy numbered (mem_declaredBy.mpr
    (.inr ⟨(declared, s.index), mk_mem_zipIdx_iff_le_and_getElem?_sub.mpr ⟨above, found⟩, rfl⟩))

variable {a b : Analysis}

theorem name_of_named (h : Analysis.Resolved unit a b) (numbered : unit.WellNumbered)
    (entered : part ∈ unit.entered) (named : named? part = some (tag, name)) :
    b.reactor.get? (AttrName.symbol.of tag.id) = some (.symbol (symbolAt b.reactor tag.id)) ∧
      (table unit).name (symbolAt b.reactor tag.id) = name := by
  obtain ⟨before, after, split⟩ := append_of_mem (CompilationUnit.mem_entered.mp entered)
  have bound := h.bindings.symbolAt_named entered named
  refine ⟨bound, ?_⟩
  rw [bound_of_passed h.passed numbered split named, Option.map_eq_some_iff] at bound
  obtain ⟨d, means, same⟩ := bound
  obtain ⟨mem, _, rfl⟩ := mem_of_meaning? split means
  rw [← Value.symbol.inj same, name_of_mem_declaredBy numbered mem]

/-- A part mentions a symbol by its name. -/
theorem name_of_mentioning? (h : Analysis.Resolved unit a b) (numbered : unit.WellNumbered)
    (entered : part ∈ unit.entered) {n : NodeId} (mentions : mentioning? part = some (n, name)) :
    b.reactor.get? (AttrName.symbol.of n) = some (.symbol (symbolAt b.reactor n)) ∧
      (table unit).name (symbolAt b.reactor n) = name := by
  have declared : ∀ {n}, isDeclaration part = true → part.id? = some n →
      b.reactor.get? (AttrName.symbol.of n) = some (.symbol (symbolAt b.reactor n)) ∧
        (table unit).name (symbolAt b.reactor n) = part.declaredName := fun declares node =>
    have bound := h.bindings.symbolAt entered declares node
    ⟨bound.2, name_of_mem_declarations numbered bound.1⟩
  cases part with
  | function decl | structDecl decl | classDecl decl | varDecl decl =>
    cases mentions
    exact declared rfl rfl
  | expr e expected =>
    cases e with
    | reference tag name =>
      cases mentions
      exact name_of_named h numbered entered rfl
    | _ => cases mentions
  | type written =>
    cases written with
    | named tag name =>
      cases mentions
      exact name_of_named h numbered entered rfl
    | array tag element => cases mentions
  | _ => cases mentions

end Inferred

namespace Analysis

open Inferred

/-! ### What has no type -/

/-- A part declares or uses a symbol. -/
def mentions (a : Analysis) (s : SymbolId) (part : Part) : Bool :=
  (mentioning? part).any fun m => a.symbolOf? m.1 == some s

/-- The first place in a unit where a symbol is declared or used. -/
def firstMention (a : Analysis) (unit : CompilationUnit) (s : SymbolId) : Span :=
  ((unit.entered.find? (a.mentions s)).map Part.span).getD .dummy

def isOpenArray (a : Analysis) : Part → Bool
  | .expr (.array tag _) _ => (a.typeOf? tag.id).isNone
  | _ => false

/-- The errors that report exactly what has no type. -/
structure Uninferred (a : Analysis) (unit : CompilationUnit) (symbols : List SymbolId)
    (errors : List SemanticError) : Prop where
  once : symbols.Nodup
  untyped : ∀ s, s ∈ symbols ↔ a.typeOf? s = none ∧ ∃ part ∈ unit.entered, a.mentions s part = true
  errors : errors.Perm
    (symbols.map (fun s => ⟨a.firstMention unit s, "unable to infer type for " ++ a.symbols.name s⟩) ++
      (unit.entered.filter a.isOpenArray).map fun part =>
        ⟨part.span, "unable to infer type for array literal"⟩)

variable {unit : CompilationUnit} {part : Part} {s : SymbolId} {a₀ a₁ a b : Analysis}

theorem resolved_of_analyzeUntil (h : analyzeUntil unit .resolveReferences = .ok a) :
    ∃ a₀, Resolved unit a₀ a := by
  obtain ⟨a₀, begun, same⟩ := analyzeUntil_resolveReferences unit
  rw [same] at h
  have numbered := begun.wellNumbered (step_eq_ok.mp h).1
  obtain ⟨ran, clean⟩ := (begun.ready numbered).ran_of_step h
  exact ⟨a₀, begun, ran, clean⟩

/-- Names keep their symbols while types are found. -/
theorem resolved_typed_of_analyzeUntil (h : analyzeUntil unit .resolveTypes = .ok a) :
    unit.WellNumbered ∧ ∃ a₀ a₁, Resolved unit a₀ a₁ ∧ Typed unit a₁ a := by
  obtain ⟨a₁, before, step⟩ := (analyzeUntil_eq_ok .resolveReferences rfl).mp h
  obtain ⟨a₀, resolved⟩ := resolved_of_analyzeUntil before
  obtain ⟨numbered, named⟩ := named_of_analyzeUntil before
  obtain ⟨ran, clean⟩ := (named.ready numbered).ran_of_step step
  exact ⟨numbered, a₀, a₁, resolved, named, ran, clean⟩

namespace Typed

variable (h : Typed unit a₁ a)

include h

theorem rootErrors_perm (ran : Ran .checkInferred a b) :
    b.reactor.rootErrors.Perm ((Inferred.plan unit a.reactor).flatMap
      (Request.errors (table unit) b.reactor.get?)) := by
  have errors := h.ready.rootErrors_perm ran fun rule mem => by
    rw [h.plan_eq] at mem
    obtain ⟨e, same⟩ := Inferred.mem_plan h.bindings mem
    cases same
  rwa [h.clean, List.nil_append, h.plan_eq] at errors

theorem isOpen_eq (owner : Owner) : isOpen a.reactor owner = (a.typeOf? owner).isNone := by
  cases held : a.reactor.get? (typeOf owner) with
  | none => simp [isOpen, typeOf?, Reactor.getAs?, held]
  | some v =>
    have typed : a.typeOf? owner = some (a.typeAt owner) := h.hasType ⟨v, held⟩
    simp [isOpen, held, typed]

/-- The type of a symbol goes to where it is used, so that the uses of symbols need no report. -/
theorem openNode?_eq (entered : part ∈ unit.entered) :
    openNode? a.reactor part = if a.isOpenArray part then some "array literal" else none := by
  have closed : ∀ {tag name what}, mentioning? part = some (tag.id, name) →
      looked? part = some (tag.id, name) → named? part = some (tag, name) →
      .register (.copy what (typeOf (symbolAt a₁.reactor tag.id)) (typeOf tag.id)) ∈
        Types.partRequests a₁.reactor (table unit) part → openNode? a.reactor part = none := by
    intro tag name what mentions looked named mem
    have bound := h.named.done.bindings.symbolAt_named entered named
    simp only [openNode?, openSymbol?, mentioned?, mentions, looked, Option.map_some]
    rw [h.symbolAt_eq bound]
    cases missing : isOpen a.reactor (symbolAt a₁.reactor tag.id) with
    | true => simp [missing]
    | false =>
      have typed := h.hasType (isOpen_eq_false.mp missing)
      have here : isOpen a.reactor tag.id = false :=
        isOpen_eq_false.mpr (h.copied entered mem typed).valued
      simp [here]
  have unlooked : looked? part = none → openNode? a.reactor part = none := fun none => by
    simp [openNode?, none]
  cases part with
  | expr e expected =>
    cases e with
    | reference tag name =>
      have requests := Types.reference_requests h.named.done.bindings entered (table unit)
      exact closed rfl rfl rfl (requests ▸ mem_singleton_self _)
    | array tag elements =>
      rw [isOpenArray, ← h.isOpen_eq]
      cases missing : isOpen a.reactor tag.id <;>
        simp [openNode?, openSymbol?, mentioned?, mentioning?, looked?, missing]
    | _ => exact unlooked rfl
  | type written =>
    cases written with
    | named tag name =>
      have requests := Types.named_requests h.named.done.bindings entered (table unit)
      split at requests
      · exact closed rfl rfl rfl (requests ▸ mem_singleton_self _)
      · exact absurd (requests ▸ mem_singleton_self _) (h.not_rejected entered)
    | array tag element => exact unlooked rfl
  | _ => exact unlooked rfl

variable (resolved : Resolved unit a₀ a₁) (numbered : unit.WellNumbered)

include resolved numbered

theorem mention?_eq (entered : part ∈ unit.entered) : mention? a.reactor s part =
    if a.mentions s part then some (rejection part.span (a.symbols.name s)) else none := by
  rw [mention?, mentioned?, mentions, h.symbols_eq]
  cases found : mentioning? part with
  | none => rfl
  | some m =>
    obtain ⟨bound, spelled⟩ := name_of_mentioning? resolved numbered entered found
    have means : a.symbolOf? m.1 = some (symbolAt a₁.reactor m.1) :=
      means_iff.mpr (h.passed.keeps.get? bound)
    simp only [Option.map_some, Option.any_some, means, h.symbolAt_eq bound]
    by_cases same : symbolAt a₁.reactor m.1 = s
    · subst same
      simp [spelled]
    · simp [same]

/-- A symbol is reported where it is first mentioned. -/
theorem findSome?_mention? (some_ : ∃ part ∈ unit.entered, a.mentions s part = true) :
    unit.entered.findSome? (mention? a.reactor s) =
      some (rejection (a.firstMention unit s) (a.symbols.name s)) := by
  cases found : unit.entered.find? (a.mentions s) with
  | none =>
    obtain ⟨part, entered, here⟩ := some_
    exact absurd here (find?_eq_none.mp found part entered)
  | some part =>
    obtain ⟨here, before, after, split, none⟩ := find?_eq_some_iff_append.mp found
    have inside : part ∈ unit.entered := split ▸ mem_append_right _ (.head _)
    rw [firstMention, found, findSome?_eq_some_iff]
    refine ⟨before, part, after, split, ?_, fun p mem => ?_⟩
    · rw [h.mention?_eq resolved numbered inside, if_pos here]
      rfl
    · have other : a.mentions s p = false := by simpa using none p mem
      rw [h.mention?_eq resolved numbered (split ▸ mem_append_left _ mem), other]
      rfl

theorem mem_openSymbols : (∃ part ∈ unit.entered, ∃ used, openSymbol? a.reactor part = some (s, used)) ↔
    a.typeOf? s = none ∧ ∃ part ∈ unit.entered, a.mentions s part = true := by
  constructor
  · rintro ⟨part, entered, used, found⟩
    obtain ⟨mentioned, missing⟩ := Option.filter_eq_some_iff.mp found
    have asked := h.mention?_eq (s := s) resolved numbered entered
    rw [mention?, mentioned] at asked
    rw [h.isOpen_eq, Option.isNone_iff_eq_none] at missing
    refine ⟨missing, part, entered, ?_⟩
    by_contra other
    simp [other] at asked
  · rintro ⟨missing, part, entered, here⟩
    have asked := h.mention?_eq (s := s) resolved numbered entered
    rw [if_pos here, mention?, Option.map_eq_some_iff] at asked
    obtain ⟨m, found, -⟩ := asked
    obtain ⟨mentioned, same⟩ := Option.filter_eq_some_iff.mp found
    obtain rfl := eq_of_beq same
    refine ⟨part, entered, m.2, Option.filter_eq_some_iff.mpr ⟨mentioned, ?_⟩⟩
    rw [h.isOpen_eq, missing]
    rfl

/-- What the pass over missing types reports. -/
theorem uninferred (ran : Ran .checkInferred a b) :
    ∃ symbols, a.Uninferred unit symbols b.reactor.rootErrors := by
  have tally := plan_tally h.bindings
  have errors := h.rootErrors_perm ran
  rw [Inferred.plan] at errors
  generalize unit.entered.foldl (inspect a.reactor) ⟨[], []⟩ = f at tally errors
  have open_ : ∀ s, s ∈ f.reported ↔ _ := fun s =>
    (tally.symbols s).trans (h.mem_openSymbols resolved numbered)
  refine ⟨f.reported, tally.once, open_, errors.trans ((tally.requests.flatMap_right _).trans ?_)⟩
  have symbols : f.reported.filterMap (fun s => unit.entered.findSome? (mention? a.reactor s)) =
      f.reported.map fun s => rejection (a.firstMention unit s) (a.symbols.name s) := by
    rw [← filterMap_eq_map]
    exact filterMap_congr fun s mem =>
      h.findSome?_mention? resolved numbered ((open_ s).mp mem).2
  have arrays : unit.entered.filterMap (gap? a.reactor) =
      (unit.entered.filter a.isOpenArray).map fun part => rejection part.span "array literal" := by
    rw [← filterMap_eq_map, filterMap_filter]
    refine filterMap_congr fun part entered => ?_
    rw [gap?, h.openNode?_eq entered]
    split <;> rfl
  rw [symbols, arrays, flatMap_append, flatMap_map, flatMap_map]
  exact .of_eq (congrArg₂ (· ++ ·) (flatMap_pure_eq_map _ _) (flatMap_pure_eq_map _ _))

end Typed

end Analysis

/-- A unit that passes the search for types goes through the pass over missing types.  Its errors are
one for each symbol that is mentioned and has no type, and one for each array literal without a type. -/
theorem uninferred_reported_once (unit : CompilationUnit) (a : Analysis)
    (reached : analyzeUntil unit .resolveTypes = .ok a) :
    ∃ b symbols, a.advance .checkInferred = .ok b ∧
      a.Uninferred unit symbols b.reactor.rootErrors ∧
      analyzeUntil unit .checkInferred = if b.reactor.rootErrors.isEmpty then .ok b
        else .error (.rejected .checkInferred b.reactor.rootErrors) := by
  obtain ⟨numbered, a₀, a₁, resolved, typed⟩ := Analysis.resolved_typed_of_analyzeUntil reached
  obtain ⟨b, ran⟩ := typed.ready.exists_ran
  obtain ⟨symbols, exact_⟩ := typed.uninferred resolved numbered ran
  refine ⟨b, symbols, ran.advanced, exact_, ?_⟩
  rw [analyzeUntil_eq .resolveTypes rfl, reached]
  simp only [Except.bind, Analysis.step, ran.advanced]

/-- Two functions whose result types wait for each other, a variable that waits for one of them, and
an array literal of calls. -/
def entangled : CompilationUnit := (Parser.ofText ("fun f() \x7b return g(); \x7d " ++
  "fun g() \x7b return f(); \x7d fun h() \x7b var x = f(); var y = [x, g()]; \x7d").toList).unit

theorem uninferred_reported_once_entangled : ∃ a, analyzeUntil entangled .resolveTypes = .ok a ∧
    ∃ b symbols, a.advance .checkInferred = .ok b ∧
      a.Uninferred entangled symbols b.reactor.rootErrors ∧ b.reactor.rootErrors ≠ [] := by
  obtain ⟨a, reached⟩ : ∃ a, analyzeUntil entangled .resolveTypes = .ok a :=
    exists_of_isOk (by decide +kernel)
  obtain ⟨b, symbols, advanced, exact_, result⟩ := uninferred_reported_once entangled a reached
  refine ⟨a, reached, b, symbols, advanced, exact_, fun clean => ?_⟩
  have refused : (analyzeUntil entangled .checkInferred).isOk = false := by decide +kernel
  rw [result, clean] at refused
  cases refused

end BlFront
