import BlFront.Proofs.Reactor.Passes
import Mathlib.Data.List.Nodup

/-!
# Where values come from

Every value that a pass leaves has a derivation: it was there before, it is seeded, or a rule computes
it from values that have derivations.  So what holds of the first values and is kept by every rule
holds of all values in the end.
-/

namespace BlFront.Reactor

/-- Derivations of values by seeds and rules from what a reactor holds. -/
inductive Derives (symbols : SymbolTable) (requests : List Request) (r : Reactor) :
    Attribute → Value → Prop
  | before {attr : Attribute} {v : Value} (held : r.get? attr = some v) :
      Derives symbols requests r attr v
  | seeded {attr : Attribute} {v : Value} (asked : .seed attr v ∈ requests) :
      Derives symbols requests r attr v
  | computed {rule : Rule} {values : Attribute → Value} {effects : List Effect} {attr : Attribute}
      {v : Value} (asked : .register rule ∈ requests)
      (inputs : ∀ d ∈ rule.deps, Derives symbols requests r d (values d))
      (computes : rule.Computes symbols values effects)
      (written : (attr, .value v) ∈ writes effects) : Derives symbols requests r attr v

/-- What a pass needs for its values to have derivations: it can end without a fault, and its rules
only compute. -/
structure Prepared (M : Outlook) (requests : List Request) (r : Reactor) : Prop where
  settled : r.Settled M
  distinct : (requests.flatMap Request.targets).Nodup
  fresh : ∀ attr ∈ requests.flatMap Request.targets, r.slot? attr = none
  admitted : ∀ q ∈ requests, q.Admitted M
  decided : ∀ rule, .register rule ∈ requests → M.Decides rule

namespace Prepared

variable {M : Outlook} {requests : List Request} {r r' : Reactor} {attr : Attribute} {v : Value}

/-- What may become of a reactor, where all values have derivations. -/
def derivable (M : Outlook) (requests : List Request) (r : Reactor) : Outlook where
  symbols := M.symbols
  holds attr v := M.holds attr v ∧ Derives M.symbols requests r attr v
  fails _ := True

theorem decides_derivable (h : Prepared M requests r) {rule : Rule}
    (asked : .register rule ∈ requests) : (derivable M requests r).Decides rule := by
  refine ⟨(h.decided rule asked).plain, fun values held => ?_⟩
  obtain ⟨effects, computes, exports, allows⟩ :=
    (h.decided rule asked).computes values fun d dep => (held d dep).1
  refine ⟨effects, computes, exports, fun w mem => ?_⟩
  obtain ⟨attr, output⟩ := w
  cases output with
  | value v => exact ⟨allows _ mem, .computed asked (fun d dep => (held d dep).2) computes mem⟩
  | error e => trivial

/-- Everything that a pass leaves has a derivation. -/
theorem derives (h : Prepared M requests r) (ran : r.runPass M.symbols requests = .ok r')
    (held : r'.get? attr = some v) : Derives M.symbols requests r attr v := by
  have settled : r.Settled (derivable M requests r) :=
    { healthy :=
        { h.settled.healthy with
          holds := fun held => ⟨h.settled.healthy.holds held, .before held⟩
          fails := fun _ => trivial
          admits := fun held => by simp [h.settled.resting.rule?] at held }
      resting := h.settled.resting }
  obtain ⟨s, ran', after, _⟩ := settled.runPass h.distinct h.fresh fun q mem => by
    have admitted := h.admitted q mem
    cases q with
    | seed attr v => exact ⟨admitted, .seeded mem⟩
    | reject e affected => exact fun _ _ => trivial
    | register rule => exact (h.decides_derivable mem).admits fun _ _ _ _ _ => trivial
    | abort e => exact admitted
  cases ran'.symm.trans ran
  exact (after.healthy.holds held).2

theorem passed (h : Prepared M requests r) (ran : r.runPass M.symbols requests = .ok r') :
    r'.Settled M ∧ Passed M.symbols requests r r' := by
  obtain ⟨s, ran', settled, passed⟩ := h.settled.runPass h.distinct h.fresh h.admitted
  cases ran'.symm.trans ran
  exact ⟨settled, passed⟩

/-- What has a derivation is there in the end. -/
theorem get?_of_derives (passed : Passed M.symbols requests r r')
    (derived : Derives M.symbols requests r attr v) : r'.get? attr = some v := by
  induction derived with
  | before held => exact passed.keeps.get? held
  | seeded asked => exact passed.seeded asked
  | computed asked _ computes written ih =>
    exact passed.computed asked ih computes _ (write_mem_of_mem_writes written)

/-- No two requests are for one attribute. -/
theorem request_unique (h : Prepared M requests r) {q q' : Request} (mem : q ∈ requests)
    (mem' : q' ∈ requests) (target : attr ∈ q.targets) (target' : attr ∈ q'.targets) : q = q' := by
  by_contra other
  have symmetric : Std.Symm (Function.onFun List.Disjoint Request.targets) :=
    ⟨fun _ _ apart => List.Disjoint.symm apart⟩
  exact (List.nodup_flatMap.mp h.distinct).2.forall mem mem' other target target'

theorem mem_targets_of_mem_exports {rule : Rule} (mem : attr ∈ rule.exports) :
    attr ∈ rule.targets := by
  obtain ⟨name, deps, exports, body⟩ := rule
  exact List.mem_append_left _ mem

/-- What a rule exports has a value only if its dependencies have. -/
theorem deps_valued (h : Prepared M requests r) (ran : r.runPass M.symbols requests = .ok r')
    {rule : Rule} (asked : .register rule ∈ requests) (mem : attr ∈ rule.exports)
    (held : r'.get? attr = some v) : ∀ d ∈ rule.deps, ∃ w, r'.get? d = some w := by
  obtain ⟨settled, passed⟩ := h.passed ran
  have target := mem_targets_of_mem_exports mem
  cases h.derives ran held with
  | before before =>
    have none := h.fresh attr (List.mem_flatMap.mpr ⟨_, asked, target⟩)
    rw [get?_eq_some, none] at before
    cases before
  | seeded seeded =>
    cases h.request_unique asked seeded target (List.mem_singleton_self attr)
  | computed asked' inputs computes written =>
    have known := fun d dep => get?_of_derives passed (inputs d dep)
    obtain ⟨effects', computes', exports, _⟩ := (h.decided _ asked').computes _ fun d dep =>
      settled.healthy.holds (known d dep)
    obtain rfl := computes.unique computes'
    have mem' := mem_targets_of_mem_exports (exports ▸ List.mem_map_of_mem (f := Prod.fst) written)
    cases h.request_unique asked asked' target mem'
    exact fun d dep => ⟨_, known d dep⟩

end Prepared

end BlFront.Reactor
