import BlFront.Proofs.Analysis.Scoping
import BlFront.Proofs.Symbol.Lines

/-!
# Cyclic inheritance is rejected

An error is reported for each class whose superclasses lead back to it and for no other.  So in a unit
that passes the pass over names superclasses come to an end, also those of the classes that would only
lead into a cycle.
-/

namespace BlFront

open List SymbolTable Names

variable {unit : CompilationUnit} {a b : Analysis} {before after : List Visit} {decl : ClassDecl}

namespace Names

/-- Every class is declared by a node. -/
theorem exists_classDecl (numbered : unit.WellNumbered) {s : SymbolId}
    (isClass : (table unit).hasKind (·.isClass) s = true) : ∃ d ∈ declaredBy unit.tour, d.symbol = s ∧
      ∃ before decl after, d.origin = some (.classDecl decl) ∧
        unit.tour = before ++ .enter (.classDecl decl) :: after := by
  have builtins : ∀ e ∈ initial.entries, e.2.kind.isClass = false := by decide
  obtain ⟨symbol, held⟩ := Option.isSome_iff_exists.mp (hasSymbol_of_hasKind isClass)
  have mem : (s, symbol) ∈ (table unit).entries := mem_entries.mpr held
  rw [table_eq, entries_walkTo numbered (append_nil _).symm, mem_append] at mem
  rcases mem with old | new
  · have other := builtins _ old
    simp [hasKind, kind?, held, other] at isClass
  · obtain ⟨e, he, same⟩ := mem_map.mp new
    cases same
    have declared : .ofPart e.1 ⟨e.2⟩ ∈ declaredBy unit.tour := mem_declaredBy.mpr (.inr ⟨e, he, rfl⟩)
    obtain ⟨decl, class?⟩ := Option.isSome_iff_exists.mp (hasKind_isClass numbered declared ▸ isClass)
    obtain ⟨before, after, split, e', _, part, same⟩ := exists_entered_of_class? declared class?
    refine ⟨_, declared, rfl, before, decl, after, ?_, split⟩
    rw [same, Declaration.ofPart, part]

theorem Fault.of_cyclic {part : Part} {e : SemanticError} {name : String} (h : Fault unit before part e)
    (message : e.message = "cyclic inheritance involving " ++ name) : ∃ decl written,
      part = .classDecl decl ∧ decl.superclass = some written ∧
      e = ⟨written.span, "cyclic inheritance involving " ++ decl.name⟩ ∧
      Relation.TransGen (Inherits unit) (classAt before decl) (classAt before decl) := by
  have first := congrArg (·.toList.head?) message
  cases h with
  | cyclic names cyclic => exact ⟨_, _, rfl, names, rfl, cyclic⟩
  | _ => simp [String.toList_append] at first

end Names

namespace Analysis

/-- How cyclic inheritance is reported. -/
structure Untangled (unit : CompilationUnit) (a : Analysis) (faults : List (Part × SemanticError)) :
    Prop where
  reports : Reports unit a.reactor.rootErrors faults
  cyclic : ∀ before decl after, unit.tour = before ++ .enter (.classDecl decl) :: after →
    ∃ s, a.reactor.get? (AttrName.symbol.of decl.tag.id) = some (.symbol s) ∧
      (Relation.TransGen a.symbols.Extends s s ↔ ∃ written, decl.superclass = some written ∧
        (.classDecl decl, ⟨written.span, "cyclic inheritance involving " ++ decl.name⟩) ∈ faults)
  only : ∀ part e name, (part, e) ∈ faults → e.message = "cyclic inheritance involving " ++ name →
    ∃ decl written, part = .classDecl decl ∧ decl.superclass = some written ∧
      e = ⟨written.span, "cyclic inheritance involving " ++ decl.name⟩
  grounded : a.reactor.rootErrors = [] → WellFounded fun parent s => a.symbols.Extends s parent

theorem Begun.untangled (h : Begun unit a) (numbered : unit.WellNumbered)
    (ran : Ran .resolveReferences a b) : Untangled unit b (faults unit) := by
  have reports := h.reports numbered ran
  have mirrors := h.mirrors numbered ran
  have symbols := h.symbols_after ran
  have bound {d part} (mem : d ∈ declaredBy unit.tour) (origin : d.origin = some part) :
      b.reactor.get? (AttrName.symbol.of part.node) = some (.symbol d.symbol) := by
    obtain ⟨_, _, _, bound⟩ := mirrors.declared d mem
    exact bound part origin
  have cyclic {before decl after} (split : unit.tour = before ++ .enter (.classDecl decl) :: after) :
      Relation.TransGen b.symbols.Extends (classAt before decl).symbol (classAt before decl).symbol ↔
        ∃ written, decl.superclass = some written ∧
          (.classDecl decl, ⟨written.span, "cyclic inheritance involving " ++ decl.name⟩) ∈
            faults unit := by
    have mem := classAt_mem split
    obtain ⟨_, held, _⟩ := describes_of_mem numbered mem
    rw [symbols, ← isCyclic_iff (hasSymbol_of_symbol? held), isCyclic_iff_transGen numbered mem]
    constructor
    · intro cyclic
      obtain ⟨parent, inherits, _⟩ := Relation.TransGen.head'_iff.mp cyclic
      obtain ⟨written, names, _⟩ := Option.bind_eq_some_iff.mp inherits
      exact ⟨written, names, (reports.exact _ _).mpr ⟨before, after, split, .cyclic names cyclic⟩⟩
    · rintro ⟨written, _, mem'⟩
      obtain ⟨before', after', split', fault⟩ := (reports.exact _ _).mp mem'
      obtain ⟨_, _, same, _, _, cyclic⟩ := fault.of_cyclic rfl
      cases same
      -- both places declare the class of one node
      have same := (bound mem rfl).symm.trans (bound (classAt_mem split') rfl)
      rwa [declaredBy_inj mem (classAt_mem split') (Value.symbol.inj (Option.some.inj same))]
  refine ⟨reports, fun before decl after split => ⟨_, bound (classAt_mem split) rfl, cyclic split⟩,
    fun part e name mem message => ?_, fun empty => ?_⟩
  · obtain ⟨_, _, _, fault⟩ := (reports.exact part e).mp mem
    obtain ⟨decl, written, rfl, names, same, _⟩ := fault.of_cyclic message
    exact ⟨decl, written, rfl, names, same⟩
  · refine wellFounded_of_acyclic fun s loop => ?_
    obtain ⟨parent, step, _⟩ := Relation.TransGen.head'_iff.mp loop
    obtain ⟨d, mem, rfl, before, decl, after, origin, split⟩ :=
      exists_classDecl numbered (symbols ▸ step.isClass)
    have same := (bound mem origin).symm.trans (bound (classAt_mem split) rfl)
    rw [Value.symbol.inj (Option.some.inj same)] at loop
    obtain ⟨written, _, mem⟩ := (cyclic split).mp loop
    have none : faults unit = [] := map_eq_nil_iff.mp (empty ▸ reports.errors).symm.eq_nil
    cases none ▸ mem

end Analysis

/-- Superclasses are found and cycles are reported. -/
theorem inheritance_is_traced (unit : CompilationUnit) :
    (∀ (t : SymbolTable) (id : SymbolId), t.Traced id) ∧
    ((¬ unit.WellNumbered ∧ ∃ e, analyzeUntil unit .resolveReferences = .error (.internal e)) ∨
      ∃ a faults, Analysis.Untangled unit a faults ∧
        analyzeUntil unit .resolveReferences = (if a.reactor.rootErrors.isEmpty then .ok a
          else .error (.rejected .resolveReferences a.reactor.rootErrors))) := by
  refine ⟨traced, ?_⟩
  rcases analyzeUntil_names unit with failed | ⟨a₀, a, numbered, begun, ran, same⟩
  · exact .inl failed
  · exact .inr ⟨a, faults unit, begun.untangled numbered ran, same⟩

end BlFront
