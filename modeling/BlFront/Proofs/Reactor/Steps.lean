import BlFront.Proofs.Reactor.Moves

/-!
# Healthy reactors

Every request to a healthy reactor leaves it healthy and advances it, as long as the outlook allows
the request.  Its outcome says what has got a slot and which rules are lost.  That is within the
outlook: a lost rule writes what no other rule writes, and a failure that another one caused has an
earlier error.
-/

namespace BlFront

open List

theorem exports_subset_targets (rule : Rule) : rule.exports ⊆ rule.targets := by
  intro x hx
  cases rule
  simp [Rule.targets, hx]

namespace Move

/-- The attributes that a move gives a slot itself. -/
def decides : Move → List Attribute
  | .seed attr _ | .write attr _ => [attr]
  | .reject _ affected => affected
  | _ => []

/-- The attributes that a move can bring to have a slot. -/
def targets (m : Move) : List Attribute := m.decides ++ m.added?.toList.flatMap Rule.targets

/-- A move that stays within an outlook. -/
def Allowed (M : Outlook) : Move → Prop
  | .seed attr v | .write attr v => M.holds attr v
  | .reject _ affected => ∀ x ∈ affected, M.fails x
  | .register rule => M.Admits rule.tidied
  | _ => True

theorem targets_register (rule : Rule) : (register rule).targets = rule.targets := by
  rw [targets, added?, Option.toList_some, flatMap_singleton, rule.targets_tidied]
  rfl

variable {m : Move} {M : Outlook} {attr : Attribute} {v : Value}

theorem stores.mem_decides (h : m.stores attr v) : attr ∈ m.decides := by
  rcases h with rfl | rfl <;> exact mem_singleton.mpr rfl

theorem Allowed.holds (allowed : m.Allowed M) (h : m.stores attr v) : M.holds attr v := by
  rcases h with rfl | rfl <;> exact allowed

end Move

namespace Reactor

/-- The attributes that pending rules, and those that these bring into being, will write. -/
def claimed (r : Reactor) : List Attribute := r.pendingRules.flatMap (·.rule.targets)

/-- A reactor within an outlook, with attributes that are reserved for someone else to write. -/
structure Healthy (M : Outlook) (reserved : List Attribute) (r : Reactor) : Prop where
  consistent : r.Consistent
  unharmed : ∀ {id p}, r.rule? id = some p → ∀ d ∈ p.rule.deps, r.errorOf? d = none
  holds : ∀ {attr v}, r.get? attr = some v → M.holds attr v
  fails : ∀ {attr e}, r.errorOf? attr = some e → M.fails attr
  admits : ∀ {id p}, r.rule? id = some p → M.Admits p.rule
  nodup : (reserved ++ r.claimed).Nodup
  fresh : ∀ attr ∈ reserved ++ r.claimed, r.slot? attr = none

variable {M : Outlook} {reserved : List Attribute} {r r' : Reactor} {m : Move}

theorem claimed_eq (r : Reactor) : r.claimed = r.held.flatMap Rule.targets := by
  rw [held, flatMap_map]
  rfl

/-! ### Rules that stay or are lost -/

variable {rule : Rule}

theorem Outcome.stays_or_lost (outcome : Outcome m r r') (still : m.leaving r = [])
    (concerned : Concerns m r rule) : r'.Waits rule ∨ r'.Lost rule := by
  obtain ⟨lost, sum, poisoned⟩ := outcome.turnover
  rw [← mem_held_append, sum.mem_iff, still, nil_append, mem_append] at concerned
  rcases concerned with mem | stays
  · exact .inr (poisoned rule mem).lost
  · exact .inl (mem_held.mp stays)

theorem Outcome.accounted (outcome : Outcome m r r') (still : m.leaving r = [])
    (concerned : Concerns m r rule) (symbols : SymbolTable) :
    Accounted symbols r'.Waits r' rule := by
  rcases outcome.stays_or_lost still concerned with waits | ⟨⟨d, dep, failed⟩, exports⟩
  · exact .waits waits
  · obtain ⟨e, failed⟩ := Option.isSome_iff_exists.mp failed
    exact .lost dep failed exports

theorem Outcome.advances (outcome : Outcome m r r') (still : m.leaving r = [])
    (running : r'.running = r.running) (symbols : SymbolTable) : Advances symbols r r' :=
  ⟨outcome.grows.toExtends, running, fun _ waits => outcome.accounted still (.inl waits) symbols⟩

/-- What is claimed or decided in a move is what was claimed before and what the move is for. -/
theorem Outcome.claims (outcome : Outcome m r r') (still : m.leaving r = [])
    (reserved : List Attribute) :
    ∃ lost : List Rule, (∀ rule, Concerns m r rule → r'.Waits rule ∨ rule ∈ lost) ∧
      (m.targets ++ reserved ++ r.claimed).Perm
        (m.decides ++ (lost.flatMap Rule.targets ++ (reserved ++ r'.claimed))) := by
  obtain ⟨lost, sum, _⟩ := outcome.turnover
  rw [still, nil_append] at sum
  refine ⟨lost, fun rule concerned => ?_, ?_⟩
  · rw [← mem_held_append, sum.mem_iff, mem_append] at concerned
    exact concerned.symm.imp_left mem_held.mp
  · have targets := sum.flatMap_right Rule.targets
    rw [flatMap_append, flatMap_append, ← claimed_eq, ← claimed_eq] at targets
    rw [Move.targets, append_assoc, append_assoc]
    refine List.Perm.append_left m.decides ?_
    calc
      List.Perm _ (reserved ++ (m.added?.toList.flatMap Rule.targets ++ r.claimed)) :=
          perm_append_comm_assoc _ _ _
      List.Perm _ (reserved ++ (lost.flatMap Rule.targets ++ r'.claimed)) :=
          (perm_append_comm.trans targets).append_left reserved
      List.Perm _ (lost.flatMap Rule.targets ++ (reserved ++ r'.claimed)) :=
          perm_append_comm_assoc _ _ _

namespace Healthy

theorem perm (h : r.Healthy M reserved) {others : List Attribute} (same : reserved.Perm others) :
    r.Healthy M others where
  consistent := h.consistent
  unharmed := h.unharmed
  holds := h.holds
  fails := h.fails
  admits := h.admits
  nodup := (same.append_right _).nodup_iff.mp h.nodup
  fresh attr hm := h.fresh attr ((same.append_right _).mem_iff.mpr hm)

theorem congr (h : r.Healthy M reserved) (running : Bool) (journal : List Note)
    (history : List Occurrence) :
    Healthy M reserved { r with running := running, journal := journal, history := history } :=
  ⟨h.consistent.congr running journal history, h.unharmed, h.holds, h.fails, h.admits, h.nodup,
    h.fresh⟩

theorem orderly (h : r.Healthy M reserved) : r.Orderly := ⟨h.consistent, h.unharmed⟩

/-! ### Moves -/

/-- Rules that a move concerns are within the outlook. -/
theorem admits_concerned (h : r.Healthy M reserved) (allowed : m.Allowed M)
    (concerned : Concerns m r rule) : M.Admits rule := by
  rcases concerned with ⟨id, p, hp, rfl⟩ | added
  · exact h.admits hp
  · cases m with
    | register rule =>
      cases added
      exact allowed
    | _ => cases added

variable {attr : Attribute}

/-- What fails in a move may fail.  The error of a cause is older, and so the causes come to an
end. -/
theorem fails_move (h : r.Healthy M reserved) (outcome : Outcome m r r') (allowed : m.Allowed M)
    {e : ErrorId} (failed : r'.errorOf? attr = some e) : M.fails attr := by
  induction e using Nat.strongRecOn generalizing attr with
  | ind e ih =>
    rcases outcome.failures failed with before | direct | ⟨rule, concerned, derived⟩
    · exact h.fails before
    · obtain ⟨error, affected, rfl, mem, -⟩ := direct
      exact allowed attr mem
    · obtain ⟨exported, d, dep, c, record, caused, found, cause⟩ := derived
      have older := outcome.orderly.consistent.cause_lt found cause
      obtain ⟨_, _, spreads, _⟩ := h.admits_concerned allowed concerned
      exact spreads d dep (ih c older caused) attr exported

theorem move (h : r.Healthy M (m.targets ++ reserved)) (outcome : Outcome m r r')
    (still : m.leaving r = []) (allowed : m.Allowed M) : r'.Healthy M reserved := by
  obtain ⟨lost, told, claims⟩ := outcome.claims still reserved
  have nodup := claims.nodup_iff.mp h.nodup
  have inner := (nodup_append.mp nodup).2.1
  have sub : (reserved ++ r'.claimed).Sublist
      (lost.flatMap Rule.targets ++ (reserved ++ r'.claimed)) := sublist_append_right _ _
  refine ⟨outcome.orderly.consistent, outcome.orderly.unharmed, fun hv => ?_,
    h.fails_move outcome allowed, fun {id p} hp => ?_, inner.sublist sub, fun attr mem => ?_⟩
  · exact (outcome.values hv).elim h.holds allowed.holds
  · exact h.admits_concerned allowed (outcome.waits p.rule ⟨id, p, hp, rfl⟩)
  · have unset : r.slot? attr = none :=
      h.fresh attr (claims.mem_iff.mpr (mem_append_right _ (sub.subset mem)))
    have undecided : attr ∉ m.decides := fun decided =>
      (nodup_append.mp nodup).2.2 attr decided attr (sub.subset mem) rfl
    cases slot : r'.slot? attr with
    | none => rfl
    | some slot' =>
      cases slot' with
      | value v =>
        rcases outcome.values (get?_eq_some.mpr slot) with before | stores
        · rw [get?_eq_some, unset] at before
          cases before
        · exact absurd stores.mem_decides undecided
      | error e =>
        rcases outcome.failures (errorOf?_eq_some.mpr slot) with
          before | direct | ⟨rule, concerned, exported, d, dep, c, _, failed, -⟩
        · rw [errorOf?_eq_some, unset] at before
          cases before
        · obtain ⟨error, affected, rfl, decided, -⟩ := direct
          exact absurd decided undecided
        · have gone := outcome.orderly.not_waits dep (Option.isSome_iff_exists.mpr ⟨c, failed⟩)
          have dropped := (told rule concerned).resolve_left gone
          have target := mem_flatMap.mpr ⟨rule, dropped, exports_subset_targets rule exported⟩
          exact absurd rfl ((nodup_append.mp inner).2.2 attr target attr mem)

/-! ### Requests -/

variable {v : Value}

theorem resolve (h : r.Healthy M (attr :: reserved))
    (allowed : M.holds attr v) :
    ∃ r', r.resolve attr v = .ok r' ∧ r'.Healthy M reserved ∧ Advances M.symbols r r' ∧
      r'.get? attr = some v ∧ r'.load ≤ r.load := by
  have unresolved : r.slot? attr = none := h.fresh attr (by simp)
  let r' := (r.waitersOf attr).foldl wake (r.fill attr (.value v))
  have resolved : r.resolve attr v = .ok r' := by simp only [Reactor.resolve, unresolved, r']
  have outcome : Outcome (.write attr v) r r' := h.orderly.resolve (.inr rfl) resolved
  have woken := foldl_wake_woken (h.consistent.waitersOf_nodup attr) (r.fill attr (.value v))
  refine ⟨r', resolved, h.move outcome rfl allowed,
    outcome.advances rfl (resolve_running resolved) _, ?_, outcome.load⟩
  rw [get?_eq_some, slot?_congr woken.store, slot?_fill, if_pos rfl]

theorem seed (h : r.Healthy M (attr :: reserved))
    (allowed : M.holds attr v) (idle : r.running = false) :
    ∃ r', r.seed attr v = .ok r' ∧ r'.Healthy M reserved ∧ Advances M.symbols r r' ∧
      r'.get? attr = some v := by
  obtain ⟨r', hr, hh, ha, hv, _⟩ := h.resolve allowed
  have unresolved : r.isResolved attr = false := isResolved_eq_false.mpr (h.fresh attr (by simp))
  exact ⟨r', by simp [Reactor.seed, idle, unresolved, hr], hh, ha, hv⟩

variable {affected : List Attribute}

/-- An error is not dropped if what it affects has no slot yet. -/
theorem accepts (h : r.Healthy M (affected ++ reserved)) :
    r.accepts affected = true := by
  cases affected with
  | nil => rfl
  | cons x xs =>
    have unresolved : r.slot? x = none := h.fresh x (by simp)
    simp [Reactor.accepts, errorOf?, unresolved]

/-- A reported error is a root error, and fails what it affects. -/
theorem reject (h : r.Healthy M (affected ++ reserved))
    (allowed : ∀ x ∈ affected, M.fails x) (error : SemanticError) :
    (r.reject error affected).Healthy M reserved ∧
      Advances M.symbols r (r.reject error affected) ∧
      error ∈ (r.reject error affected).rootErrors ∧
      (∀ x ∈ affected, ((r.reject error affected).errorOf? x).isSome) ∧
      (r.reject error affected).load ≤ r.load := by
  have outcome := (h.orderly.reject error affected).2
  have targets : (Move.reject error affected).targets = affected := append_nil _
  refine ⟨(targets.symm ▸ h : r.Healthy M (_ ++ reserved)).move outcome rfl allowed,
    outcome.advances rfl (reject_running r error affected) _, ?_, fun x hx => ?_, outcome.load⟩
  · rw [outcome.roots, Move.roots, h.accepts, if_pos rfl]
    exact mem_append_right _ (mem_singleton.mpr rfl)
  · rcases isResolved_iff_get?_or_errorOf?.mp (h.orderly.reject_resolves error hx) with
      ⟨v, hv⟩ | ⟨e, he⟩
    · rcases outcome.values hv with before | stores
      · rw [get?_eq_some, h.fresh x (by simp [hx])] at before
        cases before
      · rcases stores with stores | stores <;> cases stores
    · exact Option.isSome_iff_exists.mpr ⟨e, he⟩

/-- A rule is added, or its exports fail because a dependency has failed before. -/
theorem register (h : r.Healthy M (rule.targets ++ reserved))
    (admits : M.Admits rule.tidied) :
    (r.register rule).Healthy M reserved ∧ Advances M.symbols r (r.register rule) ∧
      Accounted M.symbols (r.register rule).Waits (r.register rule) rule.tidied ∧
      (r.register rule).load ≤ r.load + rule.size := by
  have outcome := (h.orderly.register rule).2
  rw [← Move.targets_register] at h
  exact ⟨h.move outcome rfl admits, outcome.advances rfl (register_running r rule) _,
    outcome.accounted rfl (.inr rfl) _, outcome.load⟩

end Healthy

end Reactor

end BlFront
