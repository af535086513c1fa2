import BlFront.Proofs.Analysis.Complete
import BlFront.Proofs.Syntax.Reading.Unit

/-!
# The analysis does not break

Parsing numbers the nodes of every text apart.  Therefore no phase ever ends with an internal error:
what a phase asks for is free, the symbols that it looks for are there, its rules stay within their
declarations, and every table and every list is asked only about what it holds.
-/

namespace BlFront

/-- Every question about what a table holds has an answer. -/
structure SymbolTable.Answers (t : SymbolTable) : Prop where
  lookup : ∀ {scope}, t.hasScope scope = true → ∀ name, t.canLookup scope name = true
  owner : ∀ {scope}, t.hasScope scope = true → ∀ wanted, t.canFindOwner wanted scope = true
  declare : ∀ {scope}, t.hasScope scope = true → t.canDeclareFunction scope = true
  qualify : ∀ {symbol}, t.hasSymbol symbol = true → t.canQualify symbol = true
  trace : ∀ {symbol}, t.hasSymbol symbol = true → t.canTrace symbol = true

theorem SymbolTable.Closed.answers {t : SymbolTable} (h : t.Closed) : t.Answers :=
  ⟨h.canLookup, h.canFindOwner, h.canDeclareFunction, h.canQualify, h.canTrace⟩

namespace Names

theorem Walk.Tracks.foldl_visit {around : List Part} {w : Walk} {visits rest : List Visit}
    (h : w.Tracks around) (nested : Nested around (visits ++ rest)) :
    ∃ around', (visits.foldl Walk.visit w).Tracks around' := by
  induction visits generalizing around w with
  | nil => exact ⟨around, h⟩
  | cons v visits ih =>
    cases v with
    | enter part => exact ih (h.enter part).tracks nested
    | leave part =>
      obtain ⟨first, nested⟩ := nested
      obtain ⟨more, rfl⟩ : ∃ more, around = part :: more := ⟨_, List.eq_cons_of_mem_head? first⟩
      exact ih h.leave.tracks nested

/-- At every point of the tour the table is whole, and the scope at hand is in it. -/
theorem answers_on_tour {unit : CompilationUnit} {visits rest : List Visit}
    (tour : unit.tour = visits ++ rest) :
    (visits.foldl Walk.visit (begin unit)).table.Answers ∧
      (visits.foldl Walk.visit (begin unit)).table.hasScope
        (visits.foldl Walk.visit (begin unit)).scope = true := by
  obtain ⟨around, tracks⟩ := (begin_tracks unit).foldl_visit (tour ▸ unit.nested)
  obtain ⟨_, _, present⟩ := tracks.scope
  exact ⟨tracks.closed.answers, present⟩

end Names

theorem incompatibleFrom_lt {params : List Member} {types : List Ty} {start position : Nat}
    {expected got : Ty}
    (h : .incompatible position expected got ∈ incompatibleFrom start params types) :
    position < start + types.length := by
  induction params generalizing start types with
  | nil => cases h
  | cons param params ih =>
    cases types with
    | nil => cases h
    | cons type types =>
      have later : .incompatible position expected got ∈
          incompatibleFrom (start + 1) params types → position < start + (types.length + 1) :=
        fun h => by
          have := ih h
          omega
      rw [incompatibleFrom] at h
      split at h
      · exact later h
      · rcases List.mem_cons.mp h with same | h
        · cases same
          simp
        · exact later h

/-- A problem with an argument is a problem with one that is there. -/
theorem argumentProblems_lt {params : List Member} {types : List Ty} {position : Nat}
    {expected got : Ty} (h : .incompatible position expected got ∈ argumentProblems params types) :
    position < types.length := by
  rcases List.mem_append.mp h with arity | incompatible
  · split at arity
    · cases arity
    · cases List.mem_singleton.mp arity
  · simpa using incompatibleFrom_lt incompatible

namespace Analysis

/-- The analysis that a phase starts from. -/
def Starts (unit : CompilationUnit) : Phase → Analysis → Prop
  | .resolveReferences, a => start unit = .ok a
  | .resolveTypes, a => analyzeUntil unit .resolveReferences = .ok a
  | .checkInferred, a => analyzeUntil unit .resolveTypes = .ok a
  | .checkTypes, a => analyzeUntil unit .checkInferred = .ok a
  | .checkReturns, a => analyzeUntil unit .checkTypes = .ok a

variable {unit : CompilationUnit} {phase : Phase} {a b : Analysis}

theorem Starts.ready (h : Starts unit phase a) (numbered : unit.WellNumbered) :
    a.Ready phase ∧ (a.plan phase).1 = Names.table unit := by
  cases phase with
  | resolveReferences =>
    obtain ⟨b, started, begun⟩ := start_begun unit
    cases started.symm.trans h
    exact ⟨begun.ready numbered, by rw [begun.plan_eq]; rfl⟩
  | resolveTypes =>
    obtain ⟨_, named⟩ := named_of_analyzeUntil h
    exact ⟨named.ready numbered, by rw [named.plan_eq]⟩
  | checkInferred =>
    obtain ⟨_, _, typed⟩ := typed_of_analyzeUntil h
    exact ⟨typed.ready, by rw [typed.plan_eq]⟩
  | checkTypes =>
    obtain ⟨_, _, _, known⟩ := known_of_analyzeUntil h
    exact ⟨known.ready, by rw [known.plan_eq]⟩
  | checkReturns =>
    obtain ⟨_, _, _, _, checked⟩ := checked_of_analyzeUntil h
    exact ⟨checked.ready numbered, by rw [checked.plan_eq]⟩

/-- What a phase leaves, be it accepted or not, is within its table. -/
theorem Starts.advances (h : Starts unit phase a) (numbered : unit.WellNumbered) :
    ∃ b, a.advance phase = .ok b ∧ b.symbols.Answers ∧
      ∀ attr v, b.reactor.get? attr = some v → Fits b.symbols attr v := by
  obtain ⟨ready, symbols⟩ := h.ready numbered
  obtain ⟨b, ran⟩ := ready.exists_ran
  refine ⟨b, ran.advanced, ?_, fun attr v hv => ran.settled.healthy.holds hv⟩
  rw [ran.symbols_eq, symbols]
  exact (Names.table_closed unit).answers

theorem Starts.step_ne_internal (h : Starts unit phase a) (numbered : unit.WellNumbered)
    (e : ReactorError) : a.step phase ≠ .error (.internal e) := by
  obtain ⟨b, ran⟩ := (h.ready numbered).1.exists_ran
  exact ran.step_ne_internal e

end Analysis

variable {unit : CompilationUnit}

/-- A phase adds no internal errors to those of the phases before it. -/
theorem analyzeUntil_ne_internal (first last : Phase) (next : last.upTo = first.upTo ++ [last])
    (starts : ∀ a, analyzeUntil unit first = .ok a → Analysis.Starts unit last a)
    (numbered : unit.WellNumbered)
    (before : ∀ e, analyzeUntil unit first ≠ .error (.internal e)) (e : ReactorError) :
    analyzeUntil unit last ≠ .error (.internal e) := by
  rw [analyzeUntil_eq first next]
  cases h : analyzeUntil unit first with
  | error earlier =>
    intro same
    cases same
    exact before e h
  | ok a => exact (starts a h).step_ne_internal numbered e

theorem analyzeUntil_ne_internal_of_wellNumbered (numbered : unit.WellNumbered) (last : Phase) :
    ∀ e, analyzeUntil unit last ≠ .error (.internal e) := by
  have names : ∀ e, analyzeUntil unit .resolveReferences ≠ .error (.internal e) := by
    obtain ⟨a, begun, same⟩ := analyzeUntil_resolveReferences unit
    obtain ⟨b, ran⟩ := (begun.ready numbered).exists_ran
    rw [same]
    exact ran.step_ne_internal
  have types := analyzeUntil_ne_internal _ .resolveTypes rfl (fun _ h => h) numbered names
  have inferred := analyzeUntil_ne_internal _ .checkInferred rfl (fun _ h => h) numbered types
  have checks := analyzeUntil_ne_internal _ .checkTypes rfl (fun _ h => h) numbered inferred
  cases last with
  | resolveReferences => exact names
  | resolveTypes => exact types
  | checkInferred => exact inferred
  | checkTypes => exact checks
  | checkReturns => exact analyzeUntil_ne_internal _ .checkReturns rfl (fun _ h => h) numbered checks

/-- No text makes the analysis fail internally.  Every phase that is reached finds what it looks
for, asks for what is free, and keeps within its table. -/
theorem analysis_never_breaks (source : List Char) :
    (∀ last e, analyzeUntil (Parser.ofText source).unit last ≠ .error (.internal e)) ∧
    (∀ phase a, Analysis.Starts (Parser.ofText source).unit phase a → a.Ready phase ∧
      ∃ b, a.advance phase = .ok b ∧ b.symbols.Answers ∧
        ∀ attr v, b.reactor.get? attr = some v → Fits b.symbols attr v) ∧
    (∀ visits rest, (Parser.ofText source).unit.tour = visits ++ rest →
      (visits.foldl Names.Walk.visit (Names.begin (Parser.ofText source).unit)).table.Answers ∧
      (visits.foldl Names.Walk.visit (Names.begin (Parser.ofText source).unit)).table.hasScope
        (visits.foldl Names.Walk.visit (Names.begin (Parser.ofText source).unit)).scope = true) ∧
    ∀ (params : List Member) (args : List Expr) (typeAt : Expr → Ty) position expected got,
      .incompatible position expected got ∈ argumentProblems params (args.map typeAt) →
        position < (args.map (·.span)).length := by
  have numbered := Parser.ofText_wellNumbered source
  refine ⟨fun last => analyzeUntil_ne_internal_of_wellNumbered numbered last, fun phase a starts => ?_,
    fun visits rest tour => Names.answers_on_tour tour, fun params args typeAt _ _ _ problem => ?_⟩
  · exact ⟨(starts.ready numbered).1, starts.advances numbered⟩
  · simpa using argumentProblems_lt problem

theorem analysis_never_breaks_sample :
    ∃ a, Analysis.Starts sample .checkReturns a ∧ a.Ready .checkReturns := by
  obtain ⟨a, accepted⟩ := sample_accepted
  obtain ⟨b, starts, _⟩ := (analyzeUntil_eq_ok .checkTypes rfl).mp accepted
  exact ⟨b, starts, ((analysis_never_breaks _).2.1 .checkReturns b starts).1⟩

end BlFront
