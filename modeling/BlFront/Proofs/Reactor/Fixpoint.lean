import BlFront.Proofs.Reactor.Steps

/-!
# Runs of a healthy reactor

A run of a healthy reactor comes to its end without a fault and stays within the outlook.  Every
rule that was pending is then concluded: it has run and left its results, or it has lost a
dependency and its exports have failed, or one of its dependencies never got a slot.  Both facts
together say that a run finds the least state that is closed under its rules.
-/

namespace BlFront.Reactor

open List

variable {M : Outlook} {reserved : List Attribute} {r r' : Reactor}

/-! ### Bodies -/

theorem Healthy.applyEffects {rule : Rule} {effects : List Effect} (h : r.Healthy M reserved)
    (declared : ∀ w ∈ writes effects, w.1 ∈ rule.exports) (outs : List (Attribute × Output)) :
    ∃ r', applyEffects rule effects ⟨r, outs⟩ = (.ok (), ⟨r', outs ++ writes effects⟩) ∧
      r'.Healthy M reserved ∧ Advances M.symbols r r' ∧
      (∀ e, .report e ∈ effects → e ∈ r'.rootErrors) ∧ r'.load ≤ r.load := by
  induction effects generalizing r outs with
  | nil => exact ⟨r, by simp [Reactor.applyEffects, writes], h, Advances.refl _ _, by simp,
      Nat.le_refl _⟩
  | cons effect effects ih =>
    cases effect with
    | write attr output =>
      have hx : attr ∈ rule.exports := declared (attr, output) (by simp [writes, Effect.write?])
      obtain ⟨r', hr, hh, ha, hrep, hload⟩ := ih h
        (fun w hw => declared w (.tail _ hw)) (outs ++ [(attr, output)])
      refine ⟨r', ?_, hh, ha, fun e he => hrep e (by simpa using he), hload⟩
      rw [Reactor.applyEffects, if_pos (by simpa using hx), hr]
      simp [writes, Effect.write?]
    | report error =>
      have unaffected : r.Healthy M ([] ++ reserved) := h
      obtain ⟨hh₁, ha₁, hroot, _, hload₁⟩ := unaffected.reject (by simp) error
      obtain ⟨r', hr, hh, ha, hrep, hload⟩ := ih hh₁ declared outs
      refine ⟨r', hr, hh, ha₁.trans ha, ?_, Nat.le_trans hload hload₁⟩
      intro e he
      rcases mem_cons.mp he with he | he
      · cases he
        exact ha.keeps.rootErrors hroot
      · exact hrep e he
    | note note =>
      obtain ⟨r', hr, hh, ha, hrep, hload⟩ := ih
        (h.congr r.running (r.journal ++ [note]) r.history) declared outs
      exact ⟨r', hr, hh, (Advances.noting r _ _).trans ha, fun e he => hrep e (by simpa using he),
        hload⟩

theorem Healthy.performAll_register {inner : List Rule}
    (h : r.Healthy M (inner.flatMap Rule.targets ++ reserved))
    (admits : ∀ i ∈ inner, M.Admits i.tidied)
    (run : Reactor → Except ReactorError RunStats × Reactor) (symbols : SymbolTable) (rule : Rule)
    (outs : List (Attribute × Output)) :
    ∃ r', performAll run symbols rule (inner.map .register) ⟨r, outs⟩ = (.ok (), ⟨r', outs⟩) ∧
      r'.Healthy M reserved ∧ Advances M.symbols r r' ∧
      (∀ i ∈ inner, Accounted M.symbols r'.Waits r' i.tidied) ∧
      r'.load ≤ r.load + (inner.map Rule.size).sum := by
  induction inner generalizing r with
  | nil => exact ⟨r, rfl, h, Advances.refl _ _, by simp, by simp⟩
  | cons i inner ih =>
    rw [flatMap_cons, append_assoc] at h
    obtain ⟨hh₁, ha₁, hacc₁, hload₁⟩ := h.register (admits i (by simp))
    obtain ⟨r', hr, hh, ha, hacc, hload⟩ := ih hh₁ fun j hj => admits j (by simp [hj])
    refine ⟨r', hr, hh, ha₁.trans ha, ?_, ?_⟩
    · intro j hj
      rcases mem_cons.mp hj with rfl | hj
      · exact ha.accounted hacc₁
      · exact hacc j hj
    · rw [map_cons, sum_cons]
      omega

theorem Healthy.commit {outputs : List (Attribute × Output)}
    (h : r.Healthy M (outputs.map Prod.fst ++ reserved))
    (allowed : ∀ w ∈ outputs, M.Allows w.1 w.2) :
    ∃ r', commit outputs r = (.ok (), r') ∧ r'.Healthy M reserved ∧
      Advances M.symbols r r' ∧ (∀ w ∈ outputs, r'.Recorded (.write w.1 w.2)) ∧
      r'.load ≤ r.load := by
  induction outputs generalizing r with
  | nil => exact ⟨r, rfl, h, Advances.refl _ _, by simp, Nat.le_refl _⟩
  | cons w outputs ih =>
    obtain ⟨attr, output⟩ := w
    have hfirst : M.Allows attr output := allowed (attr, output) (by simp)
    have hrest : ∀ w ∈ outputs, M.Allows w.1 w.2 := fun w hw => allowed w (by simp [hw])
    cases output with
    | value v =>
      obtain ⟨r₁, hr₁, hh₁, ha₁, hv, hload₁⟩ := h.resolve hfirst
      obtain ⟨r', hr, hh, ha, hrec, hload⟩ := ih hh₁ hrest
      refine ⟨r', by rw [Reactor.commit, hr₁]; exact hr, hh, ha₁.trans ha, ?_,
        Nat.le_trans hload hload₁⟩
      intro w hw
      rcases mem_cons.mp hw with rfl | hw
      · exact ha.keeps.get? hv
      · exact hrec w hw
    | error error =>
      have affected : r.Healthy M ([attr] ++ (outputs.map Prod.fst ++ reserved)) := h
      have allowedHere : ∀ x ∈ [attr], M.fails x := by
        intro x hx
        rw [mem_singleton.mp hx]
        exact hfirst
      obtain ⟨hh₁, ha₁, hroot, hfailed, hload₁⟩ := affected.reject allowedHere error
      obtain ⟨r', hr, hh, ha, hrec, hload⟩ := ih hh₁ hrest
      refine ⟨r', hr, hh, ha₁.trans ha, ?_, Nat.le_trans hload hload₁⟩
      intro w hw
      rcases mem_cons.mp hw with rfl | hw
      · have here : Recorded _ (.write attr (.error error)) := ⟨hfailed attr (by simp), hroot⟩
        exact here.extend ha.keeps
      · exact hrec w hw

/-! ### Rules -/

theorem missing_eq_nil {rule : Rule} {outputs : List (Attribute × Output)}
    (written : outputs.map Prod.fst = rule.exports) :
    rule.exports.filter (fun attr => !outputs.any (·.1 == attr)) = [] := by
  rw [filter_eq_nil_iff]
  intro x hx
  rw [← written] at hx
  obtain ⟨w, hw, rfl⟩ := mem_map.mp hx
  simp only [Bool.not_eq_true, Bool.not_eq_false', any_eq_true, beq_iff_eq]
  exact ⟨w, hw, rfl⟩

theorem Healthy.execute {rule : Rule} (h : r.Healthy M (rule.targets ++ reserved))
    (admits : M.Admits rule) (ready : ∀ d ∈ rule.deps, ∃ v, r.get? d = some v)
    (run : Reactor → Except ReactorError RunStats × Reactor) :
    ∃ r', execute run M.symbols rule r = (.ok (), r') ∧ r'.Healthy M reserved ∧
      Advances M.symbols r r' ∧ Accounted M.symbols r'.Waits r' rule ∧
      r'.load + 1 ≤ r.load + rule.size := by
  obtain @⟨_, f, inner, spawns, computes, -, later⟩ := admits
  have allowed : ∀ d ∈ rule.deps, ∃ v, r.get? d = some v ∧ M.holds d v := by
    intro d hd
    obtain ⟨v, hv⟩ := ready d hd
    exact ⟨v, hv, h.holds hv⟩
  obtain ⟨effects, hf, hwrites, hallowed⟩ := computes r.get? allowed
  have declared : ∀ w ∈ writes effects, w.1 ∈ rule.exports := by
    intro w hw
    rw [← hwrites]
    exact mem_map_of_mem hw
  obtain ⟨r₁, hr₁, hh₁, ha₁, hreports, hload₁⟩ := h.applyEffects declared []
  have order : (rule.targets ++ reserved).Perm
      (inner.flatMap Rule.targets ++ ((writes effects).map Prod.fst ++ reserved)) := by
    rw [spawns.targets, hwrites, ← append_assoc]
    exact perm_append_comm.append_right reserved
  obtain ⟨r₂, hr₂, hh₂, ha₂, hacc, hload₂⟩ := 
    (hh₁.perm order).performAll_register later run M.symbols rule (writes effects)
  obtain ⟨r₃, hr₃, hh₃, ha₃, hrec, hload₃⟩ := hh₂.commit hallowed
  have body : performAll run M.symbols rule rule.body ⟨r, []⟩ = (.ok (), ⟨r₂, writes effects⟩) := by
    rw [spawns, Reactor.performAll, perform]
    simp only [view, hf, hr₁, nil_append, hr₂]
  have complete := missing_eq_nil hwrites
  refine ⟨r₃, ?_, hh₃, ha₁.trans (ha₂.trans ha₃), ?_, ?_⟩
  · simp [Reactor.execute, body, complete, hr₃]
  · refine .ran spawns ?_ hf ?_ fun i hi => ha₃.accounted (hacc i hi)
    · intro d hd
      obtain ⟨v, hv⟩ := ready d hd
      exact ⟨v, hv, (ha₁.keeps.trans (ha₂.keeps.trans ha₃.keeps)).get? hv⟩
    · intro effect he
      cases effect with
      | write attr output => exact hrec (attr, output) (mem_filterMap.mpr ⟨_, he, rfl⟩)
      | report e => exact (ha₂.keeps.trans ha₃.keeps).rootErrors (hreports e he)
      | note => trivial
  · have := spawns.size
    omega

/-! ### Queues -/

/-- The first rule of the queue may run: its dependencies have values. -/
theorem Healthy.start (h : r.Healthy M reserved) {id : RuleId} {queue : List RuleId} {p : Pending}
    (front : r.queue = id :: queue) (found : r.rule? id = some p) :
    ((r.pop id queue).record (.ran p.rule.name p.rule.exports.length)).Healthy M
        (p.rule.targets ++ reserved) ∧ M.Admits p.rule ∧
      ∀ d ∈ p.rule.deps, ∃ v, r.get? d = some v := by
  have outcome := h.orderly.start front found
  have perm : (reserved ++ r.claimed).Perm
      (p.rule.targets ++ reserved ++ (r.pop id queue).claimed) := by
    have claims := (held_pop found queue).flatMap_right Rule.targets
    rw [flatMap_cons, ← claimed_eq, ← claimed_eq] at claims
    refine (claims.append_left reserved).trans ?_
    rw [← append_assoc]
    exact perm_append_comm.append_right _
  exact ⟨⟨outcome.orderly.consistent, outcome.orderly.unharmed, h.holds, h.fails,
    fun hq => h.admits (rule?_of_pop queue hq), perm.nodup_iff.mp h.nodup,
    fun attr hm => h.fresh attr (perm.mem_iff.mpr hm)⟩, h.admits found, outcome.ready _ rfl⟩

/-- The queue runs empty before the fuel does: each rule that runs takes one from the load. -/
theorem Healthy.drain {fuel : Nat} (h : r.Healthy M reserved) (enough : r.load ≤ fuel) :
    ∃ n r', drain M.symbols fuel r = (.ok n, r') ∧ r'.Healthy M reserved ∧
      Advances M.symbols r r' ∧ r'.queue = [] := by
  induction fuel generalizing r with
  | zero =>
    refine ⟨0, r, rfl, h, Advances.refl _ _, ?_⟩
    cases hq : r.queue with
    | nil => rfl
    | cons id queue =>
      obtain ⟨p, hp, _⟩ := (h.consistent.mem_queue id).mp (by simp [hq])
      have := load_pop hp queue
      have := size_pos p.rule
      omega
  | succ fuel ih =>
    cases hq : r.queue with
    | nil => exact ⟨0, r, by simp [Reactor.drain, hq], h, Advances.refl _ _, hq⟩
    | cons id queue =>
      obtain ⟨p, hp, _⟩ := (h.consistent.mem_queue id).mp (by simp [hq])
      obtain ⟨hstart, admits, ready⟩ := h.start hq hp
      obtain ⟨r₁, hr₁, hh₁, ha₁, hacc, hload⟩ :=
        hstart.execute admits ready (runBy (Reactor.drain M.symbols fuel))
      have hsplit : r.load = p.rule.size + ((r.pop id queue).record
          (.ran p.rule.name p.rule.exports.length)).load := load_pop hp queue
      obtain ⟨n, r₂, hr₂, hh₂, ha₂, hempty⟩ := ih hh₁ (by omega)
      refine ⟨n + 1, r₂, ?_, hh₂, ?_, hempty⟩
      · have step : Reactor.execute (runBy (Reactor.drain M.symbols fuel)) M.symbols p.rule
            ({ r with queue := queue, rules := r.rules.set id none }.record
              (.ran p.rule.name p.rule.exports.length)) = (.ok (), r₁) := hr₁
        simp only [Reactor.drain, hq, hp]
        rw [step]
        simp only [hr₂]
      · have keeps : r.Extends r₁ := ⟨ha₁.keeps.slots, ha₁.keeps.errors⟩
        refine Advances.trans ⟨keeps, ha₁.running, ?_⟩ ha₂
        rintro rule ⟨other, q, hother, rfl⟩
        by_cases he : other = id
        · subst he
          obtain rfl : p = q := Option.some.inj (hp.symm.trans hother)
          exact hacc
        · exact ha₁.rules q.rule ⟨other, q, by
            rw [← hother]
            exact (rule?_pop r id queue other).trans (if_neg he), rfl⟩

/-! ### Runs -/

/-- Nothing is left to run. -/
structure Resting (r : Reactor) : Prop where
  rules : r.rules = []
  waiters : r.waiters = []
  queue : r.queue = []
  idle : r.running = false

theorem Resting.rule? (h : r.Resting) (id : RuleId) : r.rule? id = none := by
  simp [Reactor.rule?, h.rules]

theorem Resting.empty : Reactor.empty.Resting := ⟨rfl, rfl, rfl, rfl⟩

/-- A rule that can never run: no dependency has failed, but one has no slot. -/
def Stuck (r : Reactor) (rule : Rule) : Prop :=
  (∃ d ∈ rule.deps, r.slot? d = none) ∧ ∀ d ∈ rule.deps, r.errorOf? d = none

/-- What became of a rule once nothing is left to run. -/
abbrev Concluded (symbols : SymbolTable) (r : Reactor) (rule : Rule) : Prop :=
  Accounted symbols r.Stuck r rule

theorem Healthy.stuck (h : r.Healthy M reserved) (empty : r.queue = []) {rule : Rule}
    (waits : r.Waits rule) : r.Stuck rule := by
  obtain ⟨id, p, hp, rfl⟩ := waits
  exact ⟨h.consistent.awaits empty hp, h.unharmed hp⟩

/-- A run of a healthy reactor ends without a fault, within the outlook, and concludes every
rule. -/
theorem Healthy.run (h : r.Healthy M []) :
    ∃ stats r', r.run M.symbols = (.ok stats, r') ∧ r'.Healthy M [] ∧ r'.Resting ∧ r.Extends r' ∧
      ∀ rule, Accounted M.symbols r.Waits r rule → Concluded M.symbols r' rule := by
  have started : ({ r with running := true } : Reactor).Healthy M [] := h.congr true _ _
  have enough : ({ r with running := true } : Reactor).load ≤ r.fuel := load_le_fuel r
  obtain ⟨n, r₁, hr₁, hh₁, ha₁, hempty⟩ := started.drain enough
  let stats : RunStats := ⟨n, r₁.pending⟩
  let r₂ : Reactor := { r₁ with running := false, rules := [], waiters := [] }.record
    (.settled stats r₁.rootErrors.length)
  have keeps : r.Extends r₂ := ⟨ha₁.keeps.slots, ha₁.keeps.errors⟩
  have last : r₁.Extends r₂ := ⟨id, prefix_refl _⟩
  have settled : r₂.Orderly := (hh₁.orderly.settle hempty n).orderly
  have unclaimed : r₂.claimed = [] := by simp [r₂, claimed, pendingRules, record]
  refine ⟨stats, r₂, ?_, ⟨settled.consistent, settled.unharmed, hh₁.holds, hh₁.fails, ?_, ?_, ?_⟩,
    ⟨rfl, rfl, hempty, rfl⟩, keeps, fun rule accounted => ?_⟩
  · simp only [Reactor.run, runBy, hr₁]
    rfl
  · intro id p hp
    simp [r₂, Reactor.rule?, record] at hp
  · simp [unclaimed]
  · simp [unclaimed]
  · have stuck : ∀ rule, r₁.Waits rule → Concluded M.symbols r₂ rule :=
      fun _ hw => .waits (hh₁.stuck hempty hw)
    refine accounted.advance keeps fun rule hw => ?_
    exact (ha₁.rules rule hw).advance last stuck

end BlFront.Reactor
