import BlFront.Proofs.Reactor.Passes

/-!
# Seeds

No request takes a slot away, whatever the reactor.  Seeds that are all accepted are therefore
distinct.  On a reactor that rests, seeds add their values and nothing else.
-/

namespace BlFront

open List

namespace Reactor

variable {r r' : Reactor} {attr : Attribute}

/-! ### Slots stay -/

theorem isResolved_fill (h : r.isResolved attr = true) (other : Attribute) (slot : Slot) :
    (r.fill other slot).isResolved attr = true := by
  rw [isResolved, slot?_fill]
  split
  · rfl
  · exact h

theorem isResolved_congr (same : r'.store = r.store) : r'.isResolved attr = r.isResolved attr := by
  rw [isResolved, isResolved, slot?_congr same]

theorem foldl_wake_store (ids : List RuleId) (r : Reactor) : (ids.foldl wake r).store = r.store := by
  induction ids generalizing r with
  | nil => rfl
  | cons id ids ih => exact (ih (r.wake id)).trans (wake_woken r id).store

theorem isResolved_failAll (fuel : Nat) (work : List Failure) (h : r.isResolved attr = true) :
    (failAll fuel r work).isResolved attr = true := by
  induction fuel generalizing r work with
  | zero => cases work <;> exact h
  | succ fuel ih =>
    cases work with
    | nil => exact h
    | cons failure work =>
      obtain ⟨other, error⟩ := failure
      rw [failAll]
      split
      · exact ih work h
      · have purged := foldl_poison_purged other error (r.waitersOf other)
          (r.fill other (.error error)) work
        refine ih _ ?_
        rw [isResolved_congr purged.store]
        exact isResolved_fill h other _

theorem isResolved_foldl_fail (affected : List Attribute) (error : ErrorId)
    (h : r.isResolved attr = true) :
    (affected.foldl (fun r attr => r.fail attr error) r).isResolved attr = true := by
  induction affected generalizing r with
  | nil => exact h
  | cons other affected ih => exact ih (isResolved_failAll _ _ h)

theorem isResolved_reject (error : SemanticError) (affected : List Attribute)
    (h : r.isResolved attr = true) : (r.reject error affected).isResolved attr = true := by
  rw [reject]
  split
  · exact h
  · exact isResolved_foldl_fail affected _ h

theorem isResolved_register (rule : Rule) (h : r.isResolved attr = true) :
    (r.register rule).isResolved attr = true := by
  unfold register
  dsimp only
  split
  · exact h
  · split
    · exact h
    · exact isResolved_foldl_fail _ _ h

theorem seed_eq_ok {v : Value} (h : r.seed attr v = .ok r') :
    r.isResolved attr = false ∧ r'.store = (r.fill attr (.value v)).store := by
  unfold seed at h
  split at h
  · cases h
  · split at h
    · cases h
    · next unresolved =>
        have unresolved : r.isResolved attr = false := Bool.eq_false_iff.mpr unresolved
        simp only [resolve, isResolved_eq_false.mp unresolved, Except.ok.injEq] at h
        subst h
        exact ⟨unresolved, foldl_wake_store _ _⟩

theorem isResolved_performRequest {q : Request} (performed : r.performRequest q = .ok r')
    (h : r.isResolved attr = true) : r'.isResolved attr = true := by
  cases q with
  | seed other v =>
    rw [isResolved_congr (seed_eq_ok performed).2]
    exact isResolved_fill h other _
  | reject error affected =>
    cases performed
    exact isResolved_reject error affected h
  | register rule =>
    cases performed
    exact isResolved_register rule h
  | abort error => cases performed

end Reactor

/-- The attribute that a request gives a value at once. -/
def Request.seeded? : Request → Option Attribute
  | .seed attr _ => some attr
  | _ => none

namespace Reactor

variable {r r' : Reactor}

theorem seeds_distinct {requests : List Request} (performed : r.performRequests requests = .ok r') :
    (requests.filterMap Request.seeded?).Nodup ∧
      ∀ attr ∈ requests.filterMap Request.seeded?, r.isResolved attr = false := by
  induction requests generalizing r with
  | nil => simp
  | cons q requests ih =>
    rw [performRequests, foldlM_cons] at performed
    cases first : r.performRequest q with
    | error e =>
      rw [first] at performed
      cases performed
    | ok next =>
      rw [first] at performed
      obtain ⟨nodup, open_⟩ := ih performed
      have before : ∀ attr ∈ requests.filterMap Request.seeded?, r.isResolved attr = false := by
        intro attr ha
        by_contra resolved
        have after := isResolved_performRequest first (Bool.not_eq_false _ ▸ resolved)
        rw [open_ attr ha] at after
        cases after
      cases hq : q.seeded? with
      | none =>
        rw [filterMap_cons_none hq]
        exact ⟨nodup, before⟩
      | some attr =>
        obtain ⟨v, rfl⟩ : ∃ v, q = .seed attr v := by
          cases q <;> cases hq
          exact ⟨_, rfl⟩
        obtain ⟨unresolved, store⟩ := seed_eq_ok first
        rw [filterMap_cons_some hq, nodup_cons, forall_mem_cons]
        refine ⟨⟨fun again => ?_, nodup⟩, unresolved, before⟩
        have filled := open_ attr again
        rw [isResolved_congr store, isResolved, slot?_fill] at filled
        simp at filled

/-! ### Seeds on a reactor that rests -/

theorem Resting.seed (h : r.Resting) {attr : Attribute} (fresh : r.slot? attr = none) (v : Value) :
    r.seed attr v = .ok (r.fill attr (.value v)) := by
  simp [Reactor.seed, h.idle, isResolved, fresh, resolve, waitersOf, h.waiters]

theorem Resting.fill (h : r.Resting) (attr : Attribute) (slot : Slot) : (r.fill attr slot).Resting :=
  ⟨h.rules, by simp [Reactor.fill, h.waiters], h.queue, h.idle⟩

theorem Settled.seed {M : Outlook} (h : r.Settled M) {attr : Attribute} (fresh : r.slot? attr = none)
    {v : Value} (holds : M.holds attr v) :
    r.seed attr v = .ok (r.fill attr (.value v)) ∧ (r.fill attr (.value v)).Settled M := by
  have seeded := h.resting.seed fresh v
  have ready : r.Healthy M ((Request.seed attr v).targets ++ []) :=
    h.reserve (nodup_singleton _) (by simpa [Request.targets] using fresh)
  obtain ⟨r', performed, healthy, _⟩ := ready.performRequest h.resting.idle holds
  obtain rfl := Except.ok.inj (seeded.symm.trans performed)
  exact ⟨seeded, healthy, h.resting.fill attr _⟩

/-- Values that are known are added without a run. -/
theorem Settled.seeds {M : Outlook} (h : r.Settled M) {seeds : List (Attribute × Value)}
    (nodup : (seeds.map Prod.fst).Nodup) (fresh : ∀ s ∈ seeds, r.slot? s.1 = none)
    (holds : ∀ s ∈ seeds, M.holds s.1 s.2) :
    ∃ r', r.performRequests (seeds.map fun s => .seed s.1 s.2) = .ok r' ∧ r'.Settled M ∧
      r.Extends r' ∧ r'.errors = r.errors ∧ (∀ s ∈ seeds, r'.get? s.1 = some s.2) ∧
      ∀ {attr slot}, r'.slot? attr = some slot →
        r.slot? attr = some slot ∨ attr ∈ seeds.map Prod.fst := by
  induction seeds generalizing r with
  | nil => exact ⟨r, rfl, h, .refl r, rfl, by simp, .inl⟩
  | cons s seeds ih =>
    obtain ⟨attr, v⟩ := s
    rw [map_cons, nodup_cons] at nodup
    have unresolved := fresh (attr, v) (by simp)
    obtain ⟨seeded, settled⟩ := h.seed unresolved (holds (attr, v) (by simp))
    obtain ⟨r', performed, settled', keeps, errors, values, only⟩ := ih settled nodup.2
      (fun s hs => by
        have other : s.1 ≠ attr := fun same => nodup.1 (mem_map.mpr ⟨s, hs, same⟩)
        rw [slot?_fill, if_neg other]
        exact fresh s (by simp [hs]))
      fun s hs => holds s (by simp [hs])
    have filled : r.Extends (r.fill attr (.value v)) := by
      refine ⟨fun {other slot} hs => ?_, prefix_refl _⟩
      rw [slot?_fill, if_neg]
      · exact hs
      · rintro rfl
        rw [unresolved] at hs
        cases hs
    refine ⟨r', ?_, settled', filled.trans keeps, errors, ?_, fun {other slot} hs => ?_⟩
    · rw [performRequests, map_cons, foldlM_cons, performRequest, seeded]
      exact performed
    · rintro s (_ | ⟨_, hs⟩)
      · exact keeps.get? (get?_eq_some.mpr (by rw [slot?_fill, if_pos rfl]))
      · exact values s hs
    · rcases only hs with before | later
      · rw [slot?_fill] at before
        split at before
        · next same => exact .inr (same ▸ mem_cons_self ..)
        · exact .inl before
      · exact .inr (.tail _ later)

end Reactor

end BlFront
