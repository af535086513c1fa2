import BlFront.Analysis.Request
import BlFront.Proofs.Reactor.Computing

/-!
# Passes of requests

A pass whose requests stay within an outlook, and whose targets are distinct and without a slot,
ends without a fault.  Every request is then met, and only the targets have got a slot.
-/

namespace BlFront

open List

variable {only : Attribute → Prop} {q : Request} {rule : Rule}

/-! ### Requests -/

/-- The same outlook on some attributes only. -/
def Outlook.restrict (M : Outlook) (only : Attribute → Prop) : Outlook :=
  ⟨M.symbols, fun attr v => M.holds attr v ∧ only attr, fun attr => M.fails attr ∧ only attr⟩

variable {M : Outlook}

theorem Outlook.Admits.restrict (h : M.Admits rule)
    (inside : ∀ x ∈ rule.targets, only x) : (M.restrict only).Admits rule := by
  induction h with
  | @intro rule f inner spawns computes spreads later ih =>
    rw [spawns.targets] at inside
    have exports : ∀ x ∈ rule.exports, only x := fun x hx => inside x (mem_append_left _ hx)
    refine .intro spawns ?_ ?_ ?_
    · intro lookup allowed
      obtain ⟨effects, result, written, allows⟩ := computes lookup fun d hd => by
        obtain ⟨v, hv, holds⟩ := allowed d hd
        exact ⟨v, hv, holds.1⟩
      refine ⟨effects, result, written, fun w hw => ?_⟩
      have here := exports w.1 (written ▸ mem_map_of_mem hw)
      have allowed := allows w hw
      cases hout : w.2 with
      | value v => exact ⟨by rwa [hout] at allowed, here⟩
      | error e => exact ⟨by rwa [hout] at allowed, here⟩
    · intro d hd failed x hx
      exact ⟨spreads d hd failed.1 x hx, exports x hx⟩
    · intro i hi
      refine ih i hi fun x hx => inside x (mem_append_right _ ?_)
      rw [Rule.targets_tidied] at hx
      exact mem_flatMap.mpr ⟨i, hi, hx⟩

variable {symbols : SymbolTable}

namespace Request

/-- The attributes that a request can bring to have a slot. -/
def targets : Request → List Attribute
  | .seed attr _ => [attr]
  | .reject _ affected => affected
  | .register rule => rule.targets
  | .abort _ => []

/-- A request that stays within an outlook. -/
def Admitted (M : Outlook) : Request → Prop
  | .seed attr v => M.holds attr v
  | .reject _ affected => ∀ x ∈ affected, M.fails x
  | .register rule => M.Admits rule.tidied
  | .abort _ => False

theorem Admitted.restrict (h : q.Admitted M) (inside : ∀ x ∈ q.targets, only x) :
    q.Admitted (M.restrict only) := by
  cases q with
  | seed attr v => exact ⟨h, inside attr (by simp [targets])⟩
  | reject error affected => exact fun x hx => ⟨h x hx, inside x hx⟩
  | register rule =>
    refine Outlook.Admits.restrict h fun x hx => inside x ?_
    rwa [Rule.targets_tidied] at hx
  | abort error => exact h.elim

/-- What is left of a request, given which rules may count as waiting. -/
def Met (symbols : SymbolTable) (waiting : Rule → Prop) (r : Reactor) : Request → Prop
  | .seed attr v => r.get? attr = some v
  | .reject error affected => error ∈ r.rootErrors ∧ ∀ x ∈ affected, (r.errorOf? x).isSome
  | .register rule => Reactor.Accounted symbols waiting r rule.tidied
  | .abort _ => False

theorem Met.advance {waiting waiting' : Rule → Prop} {r r' : Reactor}
    (keeps : r.Extends r')
    (rules : ∀ rule, waiting rule → Reactor.Accounted symbols waiting' r' rule)
    (met : q.Met symbols waiting r) : q.Met symbols waiting' r' := by
  cases q with
  | seed attr v => exact keeps.get? met
  | reject error affected =>
    refine ⟨keeps.rootErrors met.1, fun x hx => ?_⟩
    obtain ⟨e, he⟩ := Option.isSome_iff_exists.mp (met.2 x hx)
    exact Option.isSome_iff_exists.mpr ⟨e, keeps.errorOf? he⟩
  | register rule => exact Reactor.Accounted.advance keeps rules met
  | abort error => exact met.elim

end Request

namespace Reactor

variable {M : Outlook} {reserved : List Attribute} {r r' : Reactor}

theorem Healthy.performRequest (h : r.Healthy M (q.targets ++ reserved)) (idle : r.running = false)
    (admitted : q.Admitted M) :
    ∃ r', r.performRequest q = .ok r' ∧ r'.Healthy M reserved ∧ Advances M.symbols r r' ∧
      q.Met M.symbols r'.Waits r' := by
  cases q with
  | seed attr v =>
    obtain ⟨r', hr, hh, ha, hv⟩ := Healthy.seed h admitted idle
    exact ⟨r', hr, hh, ha, hv⟩
  | reject error affected =>
    obtain ⟨hh, ha, hroot, hfailed, _⟩ := Healthy.reject h admitted error
    exact ⟨_, rfl, hh, ha, hroot, hfailed⟩
  | register rule =>
    obtain ⟨hh, ha, hacc, _⟩ := Healthy.register h admitted
    exact ⟨_, rfl, hh, ha, hacc⟩
  | abort error => exact admitted.elim

variable {requests : List Request}

theorem Healthy.performRequests
    (h : r.Healthy M (requests.flatMap Request.targets ++ reserved)) (idle : r.running = false)
    (admitted : ∀ q ∈ requests, q.Admitted M) :
    ∃ r', r.performRequests requests = .ok r' ∧ r'.Healthy M reserved ∧
      Advances M.symbols r r' ∧ ∀ q ∈ requests, q.Met M.symbols r'.Waits r' := by
  induction requests generalizing r with
  | nil => exact ⟨r, rfl, h, Advances.refl _ _, by simp⟩
  | cons q requests ih =>
    rw [flatMap_cons, append_assoc] at h
    obtain ⟨r₁, hr₁, hh₁, ha₁, hmet₁⟩ := h.performRequest idle (admitted q (by simp))
    obtain ⟨r', hr, hh, ha, hmet⟩ :=
      ih hh₁ (ha₁.running.trans idle) fun q hq => admitted q (by simp [hq])
    refine ⟨r', ?_, hh, ha₁.trans ha, ?_⟩
    · rw [Reactor.performRequests, foldlM_cons, hr₁]
      exact hr
    · intro q' hq
      rcases mem_cons.mp hq with rfl | hq
      · exact hmet₁.advance ha.keeps ha.rules
      · exact hmet q' hq

/-! ### Passes -/

/-- A reactor within an outlook that has nothing left to run. -/
structure Settled (M : Outlook) (r : Reactor) : Prop where
  healthy : r.Healthy M []
  resting : r.Resting

theorem Settled.empty (M : Outlook) : Reactor.empty.Settled M where
  healthy :=
    { consistent := .empty
      unharmed := fun hp => by simp [Resting.empty.rule?] at hp
      holds := fun hv => by simp [get?_eq_some, slot?, Reactor.empty] at hv
      fails := fun he => by simp [errorOf?_eq_some, slot?, Reactor.empty] at he
      admits := fun hp => by simp [Resting.empty.rule?] at hp
      nodup := nodup_nil
      fresh := by simp [claimed, pendingRules, Reactor.empty] }
  resting := .empty

theorem Resting.claimed (h : r.Resting) : r.claimed = [] := by
  simp [Reactor.claimed, pendingRules, h.rules]

theorem Settled.restrict (h : r.Settled M)
    (inside : ∀ {attr slot}, r.slot? attr = some slot → only attr) :
    r.Settled (M.restrict only) where
  healthy :=
    { h.healthy with
      holds := fun hv => ⟨h.healthy.holds hv, inside (get?_eq_some.mp hv)⟩
      fails := fun he => ⟨h.healthy.fails he, inside (errorOf?_eq_some.mp he)⟩
      admits := fun hp => by simp [h.resting.rule?] at hp }
  resting := h.resting

theorem Settled.unrestrict (h : r.Settled (M.restrict only)) : r.Settled M where
  healthy :=
    { h.healthy with
      holds := fun hv => (h.healthy.holds hv).1
      fails := fun he => (h.healthy.fails he).1
      admits := fun hp => by simp [h.resting.rule?] at hp }
  resting := h.resting

theorem Settled.reserve (h : r.Settled M) {attrs : List Attribute} (nodup : attrs.Nodup)
    (fresh : ∀ attr ∈ attrs, r.slot? attr = none) : r.Healthy M attrs where
  consistent := h.healthy.consistent
  unharmed := h.healthy.unharmed
  holds := h.healthy.holds
  fails := h.healthy.fails
  admits := h.healthy.admits
  nodup := by rwa [h.resting.claimed, append_nil]
  fresh := by rwa [h.resting.claimed, append_nil]

/-- Without errors that nothing caused there are no errors at all. -/
theorem Settled.errorOf? (h : r.Settled M) (clean : r.rootErrors = []) (attr : Attribute) :
    r.errorOf? attr = none := by
  cases he : r.errorOf? attr with
  | none => rfl
  | some e =>
    have below := h.healthy.consistent.slot_lt (errorOf?_eq_some.mp he)
    cases hr : r.errors with
    | nil => simp [hr] at below
    | cons first rest =>
      cases hc : first.cause with
      | none => simp [rootErrors, hr, hc] at clean
      | some cause =>
        have front : r.errors[0]? = some first := by
          rw [hr]
          rfl
        exact absurd (h.healthy.consistent.cause_lt front hc) (Nat.not_lt_zero _)

theorem runPass_eq_ok :
    r.runPass symbols requests = .ok r' ↔ ∃ ready stats,
      r.performRequests requests = .ok ready ∧ ready.run symbols = (.ok stats, r') := by
  cases hp : r.performRequests requests with
  | error e => simp [Reactor.runPass, hp, bind, Except.bind]
  | ok ready =>
    rcases hr : ready.run symbols with ⟨result, after⟩
    cases result with
    | error e =>
      simp [Reactor.runPass, hp, bind, Except.bind, hr, throw, throwThe, MonadExceptOf.throw]
    | ok stats => simp [Reactor.runPass, hp, bind, Except.bind, hr, pure, Except.pure]

/-- What a pass has done. -/
structure Passed (symbols : SymbolTable) (requests : List Request) (r r' : Reactor) : Prop where
  keeps : r.Extends r'
  met : ∀ q ∈ requests, q.Met symbols r'.Stuck r'
  only : ∀ {attr slot}, r'.slot? attr = some slot →
    r.slot? attr = some slot ∨ attr ∈ requests.flatMap Request.targets

variable {attr : Attribute}

namespace Passed

variable {symbols : SymbolTable} {requests : List Request}

theorem seeded (h : Passed symbols requests r r') {v : Value}
    (mem : .seed attr v ∈ requests) : r'.get? attr = some v :=
  h.met _ mem

theorem not_rejected (h : Passed symbols requests r r') (clean : r'.rootErrors = [])
    {error : SemanticError} {affected : List Attribute} : .reject error affected ∉ requests := by
  intro mem
  have reported := (h.met _ mem).1
  rw [clean] at reported
  cases reported

/-- What a rule has left, if there are no errors and its dependencies have values. -/
theorem computed (h : Passed symbols requests r r') (mem : .register rule ∈ requests)
    {values : Attribute → Value} (held : ∀ d ∈ rule.deps, r'.get? d = some (values d))
    {effects : List Effect} (computes : rule.Computes symbols values effects) :
    ∀ effect ∈ effects, r'.Recorded effect :=
  Concluded.recorded (h.met _ mem) held computes

end Passed

/-- Without errors a rule whose dependencies have values has given values to its exports. -/
theorem Passed.valued (h : Passed M.symbols requests r r')
    (settled : r'.Settled M) (clean : r'.rootErrors = []) (mem : .register rule ∈ requests)
    (admitted : M.Admits rule.tidied) (held : ∀ d ∈ rule.deps, ∃ v, r'.get? d = some v) :
    ∀ x ∈ rule.exports, ∃ v, r'.get? x = some v := by
  intro x hx
  have met : Concluded M.symbols r' rule.tidied := h.met _ mem
  cases met with
  | waits stuck =>
    obtain ⟨⟨d, hd, hopen⟩, _⟩ := stuck
    obtain ⟨v, hv⟩ := held d (Rule.mem_deps_tidied.mp hd)
    rw [get?_eq_some, hopen] at hv
    cases hv
  | lost dep failed _ =>
    rw [settled.errorOf? clean] at failed
    cases failed
  | ran spawns found result recorded _ =>
    cases admitted with
    | intro spawns' computes _ _ =>
      obtain ⟨rfl, _⟩ := spawns.unique spawns'
      obtain ⟨effects, result', written, _⟩ := computes _ fun d hd => by
        obtain ⟨v, hl, hv⟩ := found d hd
        exact ⟨v, hl, settled.healthy.holds hv⟩
      cases result.symm.trans result'
      change x ∈ rule.tidied.exports at hx
      rw [← written, mem_map] at hx
      obtain ⟨⟨_, output⟩, hw, rfl⟩ := hx
      have there := recorded _ (write_mem_of_mem_writes hw)
      cases output with
      | value v => exact ⟨v, there⟩
      | error e =>
        have reported := there.2
        rw [clean] at reported
        cases reported

/-- A pass without requests changes nothing. -/
theorem Resting.runPass (h : r.Resting) (symbols : SymbolTable) :
    ∃ r', r.runPass symbols [] = .ok r' ∧ r'.errors = r.errors := by
  have idle : r.fuel = 0 := by simp [fuel, h.queue, pendingRules, h.rules]
  rw [Reactor.runPass, show r.performRequests [] = .ok r from rfl]
  simp only [bind, Except.bind, Reactor.run, runBy, idle, drain]
  exact ⟨_, rfl, rfl⟩

theorem Recorded.ofResult {result : Except SemanticError Value}
    (h : r.Recorded (.write attr (.ofResult result))) (clean : r.rootErrors = []) :
    ∃ v, result = .ok v ∧ r.get? attr = some v := by
  cases result with
  | ok v => exact ⟨v, rfl, h⟩
  | error e =>
    have reported := h.2
    rw [clean] at reported
    cases reported

theorem Settled.runPass (h : r.Settled M)
    (nodup : (requests.flatMap Request.targets).Nodup)
    (fresh : ∀ attr ∈ requests.flatMap Request.targets, r.slot? attr = none)
    (admitted : ∀ q ∈ requests, q.Admitted M) :
    ∃ r', r.runPass M.symbols requests = .ok r' ∧ r'.Settled M ∧
      Passed M.symbols requests r r' := by
  -- within the outlook on what has a slot already and on the targets
  let only : Attribute → Prop := fun attr =>
    (∃ slot, r.slot? attr = some slot) ∨ attr ∈ requests.flatMap Request.targets
  have narrow : r.Settled (M.restrict only) := h.restrict fun hs => .inl ⟨_, hs⟩
  have ready : r.Healthy (M.restrict only) (requests.flatMap Request.targets ++ []) := by
    rw [append_nil]
    exact narrow.reserve nodup fresh
  obtain ⟨r₁, hr₁, hh₁, ha₁, hmet⟩ := ready.performRequests h.resting.idle fun q hq =>
    (admitted q hq).restrict fun x hx => .inr (mem_flatMap.mpr ⟨q, hq, hx⟩)
  obtain ⟨stats, r', hr, hh, hrest, hkeeps, hconcluded⟩ := hh₁.run
  have settled : r'.Settled (M.restrict only) := ⟨hh, hrest⟩
  refine ⟨r', runPass_eq_ok.mpr ⟨r₁, stats, hr₁, hr⟩, settled.unrestrict,
    ha₁.keeps.trans hkeeps, fun q hq => ?_, fun {attr slot} hs => ?_⟩
  · exact (hmet q hq).advance hkeeps fun rule hw => hconcluded rule (.waits hw)
  · have allowed : only attr := by
      cases slot with
      | value v => exact (settled.healthy.holds (get?_eq_some.mpr hs)).2
      | error e => exact (settled.healthy.fails (errorOf?_eq_some.mpr hs)).2
    rcases allowed with ⟨before, hbefore⟩ | target
    · have same := (ha₁.keeps.trans hkeeps).slots hbefore
      rw [hs] at same
      exact .inl (same ▸ hbefore)
    · exact .inr target

end Reactor

end BlFront
