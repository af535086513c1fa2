import BlFront.Proofs.Analysis.Safety
import BlFront.Proofs.Reactor.Intact

/-!
# Phases extend one another

A longer analysis does what a shorter one does and then more.  What a phase has stored stays in its
place whatever later phases ask for, only the first phase touches the table, and an analysis that is
rejected stays so with the same errors.
-/

namespace BlFront

open List

theorem bind_eq_ok {ε α β : Type} {x : Except ε α} {f : α → Except ε β} {b : β} :
    x >>= f = .ok b ↔ ∃ a, x = .ok a ∧ f a = .ok b := by
  cases x <;> simp [bind, Except.bind]

/-! ### What is stored stays in its place -/

namespace Reactor

variable {r r' r'' : Reactor}

theorem Leads.trans (first : r.Leads r') (second : r'.Leads r'') : r.Leads r'' := by
  obtain ⟨past, path⟩ := first
  obtain ⟨more, path'⟩ := second
  exact ⟨more ++ past, path.trans path'⟩

theorem Leads.orderly (leads : r.Leads r') (h : r.Orderly) : r'.Orderly := by
  obtain ⟨past, path⟩ := leads
  exact path.orderly h

theorem Leads.grows (leads : r.Leads r') (h : r.Orderly) : r.Grows r' := by
  obtain ⟨past, path⟩ := leads
  exact path.grows h

theorem Grows.values (h : r.Grows r') : r.values <+: r'.values := h.stored.filterMap _

theorem performRequest_leads {q : Request} (done : r.performRequest q = .ok r') : r.Leads r' := by
  cases q with
  | seed attr value => exact Makes.leads (.seed done)
  | reject error affected =>
    cases done
    exact Makes.leads (.reject r error affected)
  | register rule =>
    cases done
    exact Makes.leads (.register r rule)
  | abort error => cases done

variable {requests : List Request}

theorem performRequests_leads (done : r.performRequests requests = .ok r') :
    r.Leads r' := by
  induction requests generalizing r with
  | nil =>
    cases done
    exact ⟨[], .here⟩
  | cons q requests ih =>
    rw [Reactor.performRequests, foldlM_cons] at done
    obtain ⟨r₁, first, rest⟩ := bind_eq_ok.mp done
    exact (performRequest_leads first).trans (ih rest)

theorem runPass_leads {symbols : SymbolTable} (h : r.Orderly)
    (ran : r.runPass symbols requests = .ok r') : r.Leads r' := by
  obtain ⟨ready, stats, done, result⟩ := runPass_eq_ok.mp ran
  have requested := performRequests_leads done
  have ends := (run_goes (requested.orderly h) symbols).leads
  rw [result] at ends
  exact requested.trans ends

end Reactor

/-! ### Steps -/

namespace Analysis

variable {unit : CompilationUnit} {a b : Analysis} {phase : Phase} {phases : List Phase}

/-- A later analysis: the same table, and what was found comes first. -/
structure Extends (a b : Analysis) : Prop where
  symbols : b.symbols = a.symbols
  leads : a.reactor.Leads b.reactor

theorem start_orderly (h : start unit = .ok a) : a.reactor.Orderly := by
  obtain ⟨r, seeded, same⟩ := bind_eq_ok.mp h
  cases same
  exact (Reactor.performRequests_leads seeded).orderly .empty

theorem step_leads (h : a.step phase = .ok b) (orderly : a.reactor.Orderly) :
    a.reactor.Leads b.reactor :=
  Reactor.runPass_leads orderly (runPass_of_advance (step_eq_ok.mp h).1)

/-- Only the first phase changes the table. -/
theorem step_extends (h : a.step phase = .ok b) (orderly : a.reactor.Orderly)
    (later : phase ≠ .resolveReferences) : a.Extends b := by
  refine ⟨?_, step_leads h orderly⟩
  have advanced := (step_eq_ok.mp h).1
  unfold advance at advanced
  cases pass : a.reactor.runPass (a.plan phase).1 (a.plan phase).2 with
  | error e => simp [pass, Except.map] at advanced
  | ok r =>
    simp only [pass, Except.map, Except.ok.injEq] at advanced
    rw [← advanced]
    cases phase with
    | resolveReferences => exact absurd rfl later
    | _ => rfl

variable {errors : List SemanticError}

theorem step_rejected {r : Phase}
    (h : a.step phase = .error (.rejected r errors)) : r = phase := by
  unfold step at h
  split at h
  · cases h
  · split at h
    · cases h
    · cases h
      rfl

/-! ### Runs of phases -/

theorem foldlM_step_orderly (h : phases.foldlM step a = .ok b) (orderly : a.reactor.Orderly) :
    b.reactor.Orderly := by
  induction phases generalizing a with
  | nil =>
    cases h
    exact orderly
  | cons phase phases ih =>
    rw [foldlM_cons] at h
    obtain ⟨next, first, rest⟩ := bind_eq_ok.mp h
    exact ih rest ((step_leads first orderly).orderly orderly)

theorem foldlM_step_extends (h : phases.foldlM step a = .ok b) (orderly : a.reactor.Orderly)
    (later : .resolveReferences ∉ phases) : a.Extends b := by
  induction phases generalizing a with
  | nil =>
    cases h
    exact ⟨rfl, [], .here⟩
  | cons phase phases ih =>
    rw [mem_cons, not_or] at later
    obtain ⟨here, later⟩ := later
    rw [foldlM_cons] at h
    obtain ⟨next, first, rest⟩ := bind_eq_ok.mp h
    have step := step_extends first orderly (Ne.symm here)
    have steps := ih rest (step.leads.orderly orderly) later
    exact ⟨steps.symbols.trans step.symbols, step.leads.trans steps.leads⟩

theorem mem_of_foldlM_step_rejected {r : Phase}
    (h : phases.foldlM step a = .error (.rejected r errors)) : r ∈ phases := by
  induction phases generalizing a with
  | nil => cases h
  | cons phase phases ih =>
    rw [foldlM_cons] at h
    cases first : a.step phase with
    | error e =>
      rw [first] at h
      cases h
      exact mem_cons.mpr (.inl (step_rejected first))
    | ok next =>
      rw [first] at h
      exact .tail _ (ih h)

end Analysis

variable {p q : Phase}

namespace Phase

/-- A longer analysis runs some more phases, none of which is the first. -/
theorem exists_upTo_eq (le : p.rank ≤ q.rank) :
    ∃ more, q.upTo = p.upTo ++ more ∧ .resolveReferences ∉ more := by
  refine ⟨q.upTo.drop p.upTo.length, ?_⟩
  revert le
  cases p <;> cases q <;> decide

theorem rank_le_of_mem_upTo {r : Phase} (mem : r ∈ p.upTo) : r.rank ≤ p.rank := by
  simpa [upTo] using (mem_filter.mp mem).2

end Phase

variable {unit : CompilationUnit} {p q r : Phase} {errors : List SemanticError}

theorem analyzeUntil_append {more : List Phase} (split : q.upTo = p.upTo ++ more) :
    analyzeUntil unit q = (analyzeUntil unit p).bind (more.foldlM Analysis.step) := by
  unfold analyzeUntil
  cases Analysis.start unit with
  | error e => rfl
  | ok a =>
    simp only [split, foldlM_append]
    rfl

theorem analyzeUntil_orderly {a : Analysis} (h : analyzeUntil unit p = .ok a) :
    a.reactor.Orderly := by
  unfold analyzeUntil at h
  cases started : Analysis.start unit with
  | error e => rw [started] at h; cases h
  | ok b =>
    rw [started] at h
    exact Analysis.foldlM_step_orderly h (Analysis.start_orderly started)

theorem rank_le_of_rejected (h : analyzeUntil unit p = .error (.rejected r errors)) :
    r.rank ≤ p.rank := by
  unfold analyzeUntil at h
  cases started : Analysis.start unit with
  | error e => rw [started] at h; cases h
  | ok b =>
    rw [started] at h
    exact Phase.rank_le_of_mem_upTo (Analysis.mem_of_foldlM_step_rejected h)

theorem exists_extends (le : p.rank ≤ q.rank) {b : Analysis} (h : analyzeUntil unit q = .ok b) :
    ∃ a, analyzeUntil unit p = .ok a ∧ a.Extends b := by
  obtain ⟨more, split, later⟩ := Phase.exists_upTo_eq le
  rw [analyzeUntil_append split] at h
  obtain ⟨a, shorter, rest⟩ := bind_eq_ok.mp h
  exact ⟨a, shorter, Analysis.foldlM_step_extends rest (analyzeUntil_orderly shorter) later⟩

theorem error_of_error (le : p.rank ≤ q.rank) {e : AnalysisError}
    (h : analyzeUntil unit p = .error e) : analyzeUntil unit q = .error e := by
  obtain ⟨more, split, _⟩ := Phase.exists_upTo_eq le
  rw [analyzeUntil_append split, h]
  rfl

/-- An analysis up to a phase is the beginning of each longer one: what is accepted stays with its
table and its values in their order, what is rejected stays so with its errors, and before the phase
that rejects all is well. -/
theorem phases_extend_one_another (unit : CompilationUnit) (le : p.rank ≤ q.rank) :
    (∀ b, analyzeUntil unit q = .ok b → ∃ a, analyzeUntil unit p = .ok a ∧
      a.symbols = b.symbols ∧ a.reactor.values <+: b.reactor.values) ∧
    (∀ r errors, analyzeUntil unit p = .error (.rejected r errors) →
      r.rank ≤ p.rank ∧ analyzeUntil unit q = .error (.rejected r errors)) ∧
    ∀ r errors, analyzeUntil unit q = .error (.rejected r errors) →
      ∀ earlier : Phase, earlier.rank < r.rank → ∃ a, analyzeUntil unit earlier = .ok a := by
  refine ⟨fun b accepted => ?_, fun r errors rejected => ?_, fun r errors rejected earlier before => ?_⟩
  · obtain ⟨a, shorter, more⟩ := exists_extends le accepted
    exact ⟨a, shorter, more.symbols.symm, (more.leads.grows (analyzeUntil_orderly shorter)).values⟩
  · exact ⟨rank_le_of_rejected rejected, error_of_error le rejected⟩
  · cases shorter : analyzeUntil unit earlier with
    | ok a => exact ⟨a, rfl⟩
    | error e =>
      -- an error of the shorter analysis would be that of the longer one, and come too early
      have within := Nat.le_trans (Nat.le_of_lt before) (rank_le_of_rejected rejected)
      have same := (error_of_error within shorter).symm.trans rejected
      cases same
      exact absurd (rank_le_of_rejected shorter) (Nat.not_le_of_lt before)

/-- Wrong only in that a function does not return. -/
def unreturning : CompilationUnit := (Parser.ofText "fun f() -> Int \x7b \x7d".toList).unit

theorem phases_extend_one_another_unreturning :
    ((analyzeUntil unreturning .checkTypes).isOk = true ∧
      ∃ a b, analyzeUntil unreturning .resolveTypes = .ok a ∧
        analyzeUntil unreturning .checkTypes = .ok b ∧ a.symbols = b.symbols ∧
          a.reactor.values <+: b.reactor.values) ∧
    (analyze unreturning).isOk = false ∧
      ∃ r errors, analyze unreturning = .error (.rejected r errors) ∧
        ∀ earlier : Phase, earlier.rank < r.rank → ∃ a, analyzeUntil unreturning earlier = .ok a := by
  have types : (analyzeUntil unreturning .checkTypes).isOk = true := by decide +kernel
  have returns : (analyze unreturning).isOk = false := by decide +kernel
  refine ⟨⟨types, ?_⟩, returns, ?_⟩
  · obtain ⟨b, accepted⟩ := exists_of_isOk types
    obtain ⟨a, shorter, symbols, values⟩ := (phases_extend_one_another unreturning
      (p := .resolveTypes) (q := .checkTypes) (by decide)).1 b accepted
    exact ⟨a, b, shorter, accepted, symbols, values⟩
  · cases result : analyze unreturning with
    | ok a => rw [result] at returns; cases returns
    | error e =>
      cases e with
      | internal e =>
        exact absurd result (analyzeUntil_ne_internal_of_wellNumbered
          (Parser.ofText_wellNumbered _) .checkReturns e)
      | rejected r errors =>
        exact ⟨r, errors, rfl, (phases_extend_one_another unreturning
          (p := .checkReturns) (q := .checkReturns) (by decide)).2.2 r errors result⟩

end BlFront
