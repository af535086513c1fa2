import BlFront.Proofs.Reactor.Fixpoint

/-!
# Rules that only compute

A rule that only computes is described by the effects of its body, given the values of its
dependencies.  From that it follows both that the rule stays within an outlook and what it has left
in a reactor once its dependencies have values.
-/

namespace BlFront

/-! ### What a rule computes -/

/-- The effects of a rule whose dependencies hold some values. -/
def Rule.Computes (rule : Rule) (symbols : SymbolTable) (values : Attribute → Value)
    (effects : List Effect) : Prop :=
  ∃ f, rule.body = [.compute f] ∧
    ∀ lookup : Attribute → Option Value, (∀ d ∈ rule.deps, lookup d = some (values d)) →
      f ⟨rule.tidied.name, rule.tidied.deps, lookup, symbols⟩ = .ok effects

variable {rule : Rule} {values : Attribute → Value} {effects : List Effect}

theorem Rule.Computes.unique {symbols : SymbolTable}
    {effects' : List Effect} (h : rule.Computes symbols values effects)
    (h' : rule.Computes symbols values effects') : effects = effects' := by
  obtain ⟨f, body, result⟩ := h
  obtain ⟨f', body', result'⟩ := h'
  obtain rfl : f = f' := by simpa using body.symm.trans body'
  exact Except.ok.inj ((result _ fun _ _ => rfl).symm.trans (result' (fun d => some (values d)) fun _ _ => rfl))

namespace Rule

variable {α : Type} {symbols : SymbolTable} {values : Attribute → Value}

theorem computing_computes {name : String} {deps exports : List Attribute}
    {f : View → Except ReactorError (List Effect)}
    (computes : ∀ view : View, view.symbols = symbols → (∀ d ∈ deps, d ∈ view.deps) →
      (∀ d ∈ deps, view.lookup d = some (values d)) → f view = .ok effects) :
    (computing name deps exports f).Computes symbols values effects :=
  ⟨f, rfl, fun _ found => computes _ rfl (fun _ hd => mem_deps_tidied.mpr hd) found⟩

theorem map_computes (name : String) {kind : Kind α} {source : Attribute} {a : α}
    (fits : kind.extract (values source) = some a) (target : Attribute)
    (f : α → SymbolTable → Except SemanticError Value) :
    (map name kind source target f).Computes symbols values
      [.write target (.ofResult (f a symbols))] := by
  refine computing_computes fun view hsymbols declared found => ?_
  have input := View.get_eq_ok (declared source (by simp)) (found source (by simp)) fits
  rw [input, ← hsymbols]
  rfl

theorem copy_computes (name : String) (source target : Attribute) :
    (copy name source target).Computes symbols values [.write target (.value (values source))] :=
  map_computes name rfl target _

theorem flatMap_computes (name : String) {kind : Kind α} {sources : List Attribute} {as : List α}
    (fits : sources.mapM (fun d => kind.extract (values d)) = some as) (target : Attribute)
    (f : List α → SymbolTable → Except SemanticError Value) :
    (flatMap name kind sources target f).Computes symbols values
      [.write target (.ofResult (f as symbols))] := by
  refine computing_computes fun view hsymbols declared found => ?_
  have inputs := View.getAll_eq_ok declared found fits
  rw [inputs, ← hsymbols]
  rfl

end Rule

/-! ### Outlooks -/

namespace Outlook

/-- A rule that only computes, and whose effects stay within an outlook. -/
structure Decides (M : Outlook) (rule : Rule) : Prop where
  plain : ∃ f, rule.body = [.compute f]
  computes : ∀ values : Attribute → Value, (∀ d ∈ rule.deps, M.holds d (values d)) →
    ∃ effects, rule.Computes M.symbols values effects ∧
      (writes effects).map Prod.fst = rule.exports ∧ ∀ w ∈ writes effects, M.Allows w.1 w.2

theorem Decides.admits {M : Outlook} (h : M.Decides rule)
    (spreads : ∀ d ∈ rule.deps, M.fails d → ∀ x ∈ rule.exports, M.fails x) :
    M.Admits rule.tidied := by
  obtain ⟨f, body⟩ := h.plain
  refine @Admits.intro M rule.tidied f [] body ?_ ?_ (by simp)
  · intro lookup allowed
    have found : ∀ d ∈ rule.deps, lookup d = some ((lookup d).getD (.flag false)) ∧
        M.holds d ((lookup d).getD (.flag false)) := by
      intro d hd
      obtain ⟨v, hv, holds⟩ := allowed d (Rule.mem_deps_tidied.mpr hd)
      rw [hv]
      exact ⟨rfl, holds⟩
    obtain ⟨effects, ⟨f', body', result⟩, exports, allows⟩ :=
      h.computes _ fun d hd => (found d hd).2
    obtain rfl : f = f' := by simpa using body.symm.trans body'
    exact ⟨effects, result lookup fun d hd => (found d hd).1, exports, allows⟩
  · intro d hd
    exact spreads d (Rule.mem_deps_tidied.mp hd)

end Outlook

namespace Reactor

variable {symbols : SymbolTable} {r : Reactor}

/-- Once the dependencies of a rule have values, its effects are there. -/
theorem Concluded.recorded (h : Concluded symbols r rule.tidied)
    (held : ∀ d ∈ rule.deps, r.get? d = some (values d))
    (computes : rule.Computes symbols values effects) :
    ∀ effect ∈ effects, r.Recorded effect := by
  cases h with
  | waits stuck =>
    obtain ⟨⟨d, hd, hopen⟩, _⟩ := stuck
    have slot := get?_eq_some.mp (held d (Rule.mem_deps_tidied.mp hd))
    rw [hopen] at slot
    cases slot
  | lost dep failed _ =>
    have slot := get?_eq_some.mp (held _ (Rule.mem_deps_tidied.mp dep))
    rw [errorOf?_eq_some.mp failed] at slot
    cases slot
  | ran spawns found result recorded _ =>
    obtain ⟨f', body, computed⟩ := computes
    obtain ⟨rfl, _⟩ := spawns.unique (show rule.tidied.Spawns f' [] from body)
    rw [computed _ fun d hd => ?_] at result
    · cases result
      exact recorded
    · obtain ⟨v, hl, hv⟩ := found d (Rule.mem_deps_tidied.mpr hd)
      rw [hl, ← hv]
      exact held d hd

end Reactor

end BlFront
