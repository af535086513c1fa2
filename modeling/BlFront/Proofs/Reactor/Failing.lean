import BlFront.Proofs.Reactor.Checked

/-!
# How failures spread

Whatever rules a reactor holds, failing an attribute fails all that depends on it and changes
nothing else: slots and errors stay and none of the new errors is a root error, a rule that is
dropped leaves no export without a slot, and every attribute that fails on the way does so with an
error that points to the failure of a dependency.
-/

namespace BlFront

open List

/-! ### Stores -/

theorem OrderedMap.get?_eq_none_iff {κ α : Type} [BEq κ] [LawfulBEq κ] {m : OrderedMap κ α}
    {key : κ} : m.get? key = none ↔ key ∉ m.keys := by
  induction m with
  | nil => simp [keys]
  | cons entry m ih =>
    simp only [keys] at ih
    by_cases same : key = entry.1 <;> simp [get?, keys, same, ih]

theorem OrderedMap.mem_iff_get? {κ α : Type} [BEq κ] [LawfulBEq κ] {m : OrderedMap κ α}
    (distinct : m.keys.Nodup) {key : κ} {a : α} : (key, a) ∈ m ↔ m.get? key = some a := by
  induction m with
  | nil => simp
  | cons entry m ih =>
    obtain ⟨k, b⟩ := entry
    obtain ⟨fresh, distinct⟩ := nodup_cons.mp distinct
    by_cases same : key = k
    · subst same
      have absent : (key, a) ∉ m := fun mem => fresh (mem_map.mpr ⟨_, mem, rfl⟩)
      simp [get?, absent, eq_comm]
    · simp [get?, same, ih distinct]

namespace Store

variable {s : Store} {attr : Attribute} {slot : Slot}

theorem keys_entries (s : Store) : s.entries.keys = s.latestFirst.keys.reverse :=
  map_reverse

theorem get?_eq_none_iff : s.get? attr = none ↔ attr ∉ s.entries.keys := by
  rw [get?_eq, OrderedMap.get?_eq_none_iff, keys_entries, mem_reverse]

theorem mem_entries_iff (distinct : s.entries.keys.Nodup) :
    (attr, slot) ∈ s.entries ↔ s.get? attr = some slot := by
  rw [keys_entries, nodup_reverse] at distinct
  rw [get?_eq, ← OrderedMap.mem_iff_get? distinct, entries, mem_reverse]

end Store

namespace Reactor

variable {r r' r'' : Reactor}

/-! ### What stays -/

/-- Slots and errors stay, and new ones come after them. -/
structure Grows (r r' : Reactor) : Prop extends Extends r r' where
  stored : r.store.entries <+: r'.store.entries
  /-- No attribute is stored twice. -/
  distinct : r.store.entries.keys.Nodup → r'.store.entries.keys.Nodup

variable {attr : Attribute}

namespace Grows

theorem refl (r : Reactor) : r.Grows r := ⟨.refl r, prefix_refl _, id⟩

theorem trans (h : r.Grows r') (h' : r'.Grows r'') : r.Grows r'' :=
  ⟨h.toExtends.trans h'.toExtends, h.stored.trans h'.stored, fun hd => h'.distinct (h.distinct hd)⟩

theorem of_eq (store : r'.store = r.store) (errors : r'.errors = r.errors) : r.Grows r' :=
  ⟨⟨fun hs => by rwa [slot?_congr store], errors ▸ prefix_refl _⟩,
    store ▸ prefix_refl _, store ▸ id⟩

theorem of_fill (unresolved : r.slot? attr = none) {slot : Slot}
    (store : r'.store = (r.fill attr slot).store) (errors : r.errors <+: r'.errors) :
    r.Grows r' := by
  refine ⟨⟨fun {other old} hs => ?_, errors⟩, ?_, fun distinct => ?_⟩
  · rw [slot?_congr store, slot?_fill, if_neg]
    · exact hs
    · rintro rfl
      rw [unresolved] at hs
      cases hs
  · rw [store, fill, Store.entries_push]
    exact prefix_append _ _
  · have fresh : attr ∉ r.store.entries.keys := Store.get?_eq_none_iff.mp unresolved
    rw [store, fill, Store.entries_push, OrderedMap.keys, map_append]
    refine distinct.append (nodup_singleton _) ?_
    intro other hm ho
    rw [mem_singleton.mp ho] at hm
    exact fresh hm

theorem isSome_errorOf? (h : r.Grows r') (failed : (r.errorOf? attr).isSome) :
    (r'.errorOf? attr).isSome := by
  obtain ⟨e, he⟩ := Option.isSome_iff_exists.mp failed
  rw [h.errorOf? he]
  rfl

theorem getElem?_errors (h : r.Grows r') {i : Nat} {record : ErrorRecord}
    (hi : r.errors[i]? = some record) : r'.errors[i]? = some record := by
  obtain ⟨new, hnew⟩ := h.errors
  have hlt : i < r.errors.length := List.getElem?_eq_some_iff.mp hi |>.1
  rw [← hnew, List.getElem?_append_left hlt, hi]

end Grows

variable {new : List ErrorRecord}

theorem rootErrors_append (errors : r'.errors = r.errors ++ new) :
    r'.rootErrors = r.rootErrors ++ (new.filter (·.cause.isNone)).map (·.error) := by
  rw [rootErrors, errors, filter_append, map_append]
  rfl

theorem rootErrors_of_derived (errors : r'.errors = r.errors ++ new)
    (derived : ∀ d ∈ new, d.cause.isSome) : r'.rootErrors = r.rootErrors := by
  have none : new.filter (·.cause.isNone) = [] := by
    rw [filter_eq_nil_iff]
    intro d hd
    simpa [Option.isSome_iff_ne_none] using derived d hd
  rw [rootErrors_append errors, none, map_nil, append_nil]

/-! ### Orderly reactors -/

theorem Consistent.waitersOf_lt (h : r.Consistent) (attr : Attribute) :
    ∀ id ∈ r.waitersOf attr, id < r.rules.length := by
  intro id hid
  obtain ⟨w, hw, rfl⟩ := mem_map.mp hid
  exact h.waiters_lt w (mem_filter.mp hw).1

/-- The bookkeeping is consistent, and no pending rule has lost a dependency. -/
structure Orderly (r : Reactor) : Prop where
  consistent : r.Consistent
  unharmed : ∀ {id p}, r.rule? id = some p → ∀ d ∈ p.rule.deps, r.errorOf? d = none

variable {rule : Rule}

namespace Orderly

theorem empty : Reactor.empty.Orderly :=
  ⟨.empty, fun h => by simp [rule?, Reactor.empty] at h⟩

theorem congr (h : r.Orderly) (running : Bool) (journal : List Note) (history : List Occurrence) :
    Orderly { r with running := running, journal := journal, history := history } :=
  ⟨h.consistent.congr running journal history, h.unharmed⟩

theorem not_waits (h : r.Orderly) {d : Attribute} (dep : d ∈ rule.deps)
    (failed : (r.errorOf? d).isSome) : ¬ r.Waits rule := by
  rintro ⟨id, p, hp, rfl⟩
  rw [h.unharmed hp d dep] at failed
  cases failed

theorem pushError (h : r.Orderly) (error : SemanticError) (cause : Option ErrorId)
    (older : ∀ c, cause = some c → c < r.errors.length) : (r.pushError error cause).2.Orderly :=
  ⟨h.consistent.errors_push ⟨error, cause⟩ older, h.unharmed⟩

end Orderly

theorem pushError_grows (r : Reactor) (error : SemanticError) (cause : Option ErrorId) :
    r.Grows (r.pushError error cause).2 :=
  ⟨⟨id, prefix_append _ _⟩, prefix_refl _, id⟩

/-! ### Failures -/

/-- A dependency of a rule has failed, and all its exports have slots. -/
structure Lost (r : Reactor) (rule : Rule) : Prop where
  dep : ∃ d ∈ rule.deps, (r.errorOf? d).isSome
  exports : ∀ x ∈ rule.exports, r.isResolved x = true

/-- An attribute failed because a dependency of a rule that exports it did. -/
structure Derived (r : Reactor) (rule : Rule) (attr : Attribute) (e : ErrorId) : Prop where
  exported : attr ∈ rule.exports
  cause : ∃ d ∈ rule.deps, ∃ c record, r.errorOf? d = some c ∧ r.errors[e]? = some record ∧
    record.cause = some c

theorem Lost.grow (h : r.Grows r') (lost : r.Lost rule) : r'.Lost rule := by
  obtain ⟨d, hd, failed⟩ := lost.dep
  exact ⟨⟨d, hd, h.isSome_errorOf? failed⟩, fun x hx => h.isResolved (lost.exports x hx)⟩

variable {e : ErrorId}

theorem Derived.grow (h : r.Grows r')
    (derived : r.Derived rule attr e) : r'.Derived rule attr e := by
  obtain ⟨exported, d, hd, c, record, hc, hrecord, hcause⟩ := derived
  exact ⟨exported, d, hd, c, record, h.errorOf? hc, h.getElem?_errors hrecord, hcause⟩

/-- What comes of attributes that are to fail. -/
structure Cascade (work : List Failure) (r r' : Reactor) : Prop where
  grows : r.Grows r'
  roots : r'.rootErrors = r.rootErrors
  values : ∀ {attr v}, r'.get? attr = some v → r.get? attr = some v
  pending : r'.pendingRules.Sublist r.pendingRules
  length : r'.rules.length = r.rules.length
  kept : ∀ {id p}, r'.rule? id = some p → r.rule? id = some p
  fate : ∀ {id p}, r.rule? id = some p → r'.rule? id = some p ∨ r'.Lost p.rule
  debts : ∀ f ∈ work, r'.isResolved f.1 = true
  origin : ∀ {attr e}, r'.errorOf? attr = some e → r.errorOf? attr = some e ∨ (attr, e) ∈ work ∨
    ∃ rule, r.Waits rule ∧ r'.Derived rule attr e

theorem waits_of_sublist (h : r'.pendingRules.Sublist r.pendingRules)
    (waits : r'.Waits rule) : r.Waits rule := by
  obtain ⟨id, p, hp, rfl⟩ := waits
  obtain ⟨id', hp'⟩ := mem_pendingRules.mp (h.subset (mem_pendingRules.mpr ⟨id, hp⟩))
  exact ⟨id', p, hp', rfl⟩

variable {work : List Failure} {f : Failure}

namespace Cascade

theorem nil (r : Reactor) : Cascade [] r r where
  grows := .refl r
  roots := rfl
  values := id
  pending := List.Sublist.refl _
  length := rfl
  kept hp := hp
  fate hp := .inl hp
  debts := by simp
  origin he := .inl he

theorem append {work' : List Failure} (first : Cascade work r r')
    (second : Cascade work' r' r'') : Cascade (work ++ work') r r'' where
  grows := first.grows.trans second.grows
  roots := second.roots.trans first.roots
  values hv := first.values (second.values hv)
  pending := second.pending.trans first.pending
  length := second.length.trans first.length
  kept hp := first.kept (second.kept hp)
  fate hp := by
    rcases first.fate hp with hp | lost
    · exact second.fate hp
    · exact .inr (lost.grow second.grows)
  debts f hf := by
    rcases mem_append.mp hf with hf | hf
    · exact second.grows.isResolved (first.debts f hf)
    · exact second.debts f hf
  origin he := by
    rcases second.origin he with he | hf | ⟨rule, hw, derived⟩
    · rcases first.origin he with he | hf | ⟨rule, hw, derived⟩
      · exact .inl he
      · exact .inr (.inl (mem_append_left _ hf))
      · exact .inr (.inr ⟨rule, hw, derived.grow second.grows⟩)
    · exact .inr (.inl (mem_append_right _ hf))
    · exact .inr (.inr ⟨rule, waits_of_sublist first.pending hw, derived⟩)

/-- An attribute that is stored already need not fail. -/
theorem skip (h : Cascade work r r')
    (resolved : r.isResolved f.1 = true) : Cascade (f :: work) r r' where
  grows := h.grows
  roots := h.roots
  values := h.values
  pending := h.pending
  length := h.length
  kept := h.kept
  fate := h.fate
  debts g hg := by
    rcases mem_cons.mp hg with rfl | hg
    · exact h.grows.isResolved resolved
    · exact h.debts g hg
  origin he := by
    rcases h.origin he with he | hf | derived
    · exact .inl he
    · exact .inr (.inl (.tail _ hf))
    · exact .inr (.inr derived)

end Cascade

/-! ### One failure -/

theorem foldl_poison_new (attr : Attribute) (cause : ErrorId) (ids : List RuleId) (r : Reactor)
    (work : List Failure) : ∀ f ∈ (ids.foldl (poison attr cause) (r, work)).2,
      f ∈ work ∨ r.errors.length ≤ f.2 := by
  induction ids generalizing r work with
  | nil => exact fun f hf => .inl hf
  | cons id ids ih =>
    intro f hf
    have purged := poison_purged attr cause r work id
    obtain ⟨derived, herr, _⟩ := purged.errors
    rcases ih _ _ f hf with hf | hge
    · cases hp : r.rule? id with
      | none => exact .inl (by simpa [poison, hp] using hf)
      | some p =>
        by_cases he : p.rule.exports = []
        · exact .inl (by simpa [poison, hp, he] using hf)
        · simp only [hp, List.isEmpty_iff, he, if_false, derive, pushError, record,
            mem_append] at hf
          rcases hf with hf | hf
          · exact .inl hf
          · obtain ⟨x, _, rfl⟩ := List.mem_map.mp hf
            exact .inr (Nat.le_refl _)
    · refine .inr (Nat.le_trans ?_ hge)
      change r.errors.length ≤ (poison attr cause (r, work) id).1.errors.length
      rw [herr, length_append]
      exact Nat.le_add_right _ _

section Purging

variable {attr : Attribute} {e : ErrorId} {work work' : List Failure}

theorem errorOf?_purged (purged : Purged e (r.waitersOf attr) (r.fill attr (.error e)) work r' work')
    (other : Attribute) : r'.errorOf? other = if other = attr then some e else r.errorOf? other := by
  unfold errorOf?
  rw [slot?_congr purged.store, slot?_fill]
  by_cases same : other = attr <;> simp [same]

/-- A rule that is still pending does not depend on what failed. -/
theorem Orderly.rule?_purged (h : r.Orderly) (unresolved : r.slot? attr = none)
    (purged : Purged e (r.waitersOf attr) (r.fill attr (.error e)) work r' work')
    {id : RuleId} {p : Pending} (hp : r'.rule? id = some p) :
    r.rule? id = some p ∧ attr ∉ p.rule.deps := by
  rw [purged.rule?, rule?_fill] at hp
  split at hp
  · cases hp
  · next hm => exact ⟨hp, fun hd => hm ((h.consistent.mem_waitersOf unresolved hp).mpr hd)⟩

theorem Orderly.purge (h : r.Orderly) (unresolved : r.slot? attr = none)
    (known : e < r.errors.length)
    (purged : Purged e (r.waitersOf attr) (r.fill attr (.error e)) work r' work') : r'.Orderly where
  consistent := h.consistent.purge unresolved known purged
  unharmed hp d hd := by
    obtain ⟨hp, hattr⟩ := h.rule?_purged unresolved purged hp
    have other : d ≠ attr := fun same => hattr (same ▸ hd)
    rw [errorOf?_purged purged, if_neg other]
    exact h.unharmed hp d hd

theorem Purged.grows (unresolved : r.slot? attr = none)
    (purged : Purged e (r.waitersOf attr) (r.fill attr (.error e)) work r' work') : r.Grows r' := by
  obtain ⟨derived, herr, _⟩ := purged.errors
  exact .of_fill unresolved purged.store ⟨derived, herr.symm⟩

/-- What failed because of this failure did so with an error that points to it. -/
theorem Purged.derived (unresolved : r.slot? attr = none) (h : r.Orderly)
    (purged : Purged e (r.waitersOf attr) (r.fill attr (.error e)) work r' work')
    (hf : f ∈ work') (new : r.errors.length ≤ f.2) :
    f ∈ work ∨ ∃ rule, r.Waits rule ∧ r'.Derived rule f.1 f.2 := by
  rcases purged.origin f hf with hf | ⟨hlt, id, hid, p, hp, hx⟩
  · exact .inl hf
  · obtain ⟨derived, herr, hcause⟩ := purged.errors
    change r'.errors = r.errors ++ derived at herr
    rw [rule?_fill] at hp
    have dep := (h.consistent.mem_waitersOf unresolved hp).mp hid
    have failed : r'.errorOf? attr = some e := by rw [errorOf?_purged purged, if_pos rfl]
    obtain ⟨record, hrecord⟩ : ∃ record, r'.errors[f.2]? = some record :=
      ⟨_, List.getElem?_eq_getElem hlt⟩
    have mem : record ∈ derived := by
      rw [herr, List.getElem?_append_right new] at hrecord
      exact mem_of_getElem? hrecord
    exact .inr ⟨p.rule, ⟨id, p, hp, rfl⟩, hx, attr, dep, e, record, failed, hrecord, hcause _ mem⟩

/-- One attribute fails, and then what its failure brings about. -/
theorem Orderly.cascade_cons {last : Reactor} (h : r.Orderly) (unresolved : r.slot? attr = none)
    (purged : Purged e (r.waitersOf attr) (r.fill attr (.error e)) work r' work')
    (new : ∀ f ∈ work', f ∈ work ∨ r.errors.length ≤ f.2) (rest : Cascade work' r' last) :
    Cascade ((attr, e) :: work) r last := by
  have grows := purged.grows unresolved
  have failed : r'.errorOf? attr = some e := by rw [errorOf?_purged purged, if_pos rfl]
  obtain ⟨derived, herr, hcause⟩ := purged.errors
  have roots := rootErrors_of_derived herr fun d hd => by rw [hcause d hd, Option.isSome_some]
  refine ⟨grows.trans rest.grows, rest.roots.trans roots, ?_, rest.pending.trans purged.pending,
    rest.length.trans purged.length,
    fun hp => (h.rule?_purged unresolved purged (rest.kept hp)).1, ?_, ?_, ?_⟩
  · intro other v hv
    have hv := get?_eq_some.mp (rest.values hv)
    rw [slot?_congr purged.store, slot?_fill] at hv
    split at hv
    · cases hv
    · exact get?_eq_some.mpr hv
  · intro id p hp
    by_cases hm : id ∈ r.waitersOf attr
    · have dep := (h.consistent.mem_waitersOf unresolved hp).mp hm
      refine .inr ⟨⟨attr, dep, rest.grows.isSome_errorOf? (by rw [failed]; rfl)⟩, fun x hx => ?_⟩
      obtain ⟨f, hf, rfl⟩ := mem_map.mp (purged.added id hm p hp x hx)
      exact rest.debts f hf
    · exact rest.fate (by rw [purged.rule?, if_neg hm, rule?_fill, hp])
  · intro f hf
    rcases mem_cons.mp hf with rfl | hf
    · exact rest.grows.isResolved (isResolved_iff.mpr ⟨_, errorOf?_eq_some.mp failed⟩)
    · exact rest.debts f (purged.kept f hf)
  · intro other e' he
    have inherited : (other, e') ∈ work' → (other, e') ∈ work ∨
        ∃ rule, r.Waits rule ∧ last.Derived rule other e' := by
      intro hf
      rcases new _ hf with hf | hge
      · exact .inl hf
      · rcases purged.derived unresolved h hf hge with hf | ⟨rule, hw, hd⟩
        · exact .inl hf
        · exact .inr ⟨rule, hw, hd.grow rest.grows⟩
    rcases rest.origin he with he | hf | ⟨rule, hw, hd⟩
    · rw [errorOf?_purged purged] at he
      split at he
      · next same =>
          cases he
          exact .inr (.inl (same ▸ mem_cons_self ..))
      · exact .inl he
    · rcases inherited hf with hf | hd
      · exact .inr (.inl (.tail _ hf))
      · exact .inr (.inr hd)
    · exact .inr (.inr ⟨rule, waits_of_sublist purged.pending hw, hd⟩)

end Purging

/-! ### All failures -/

/-- The work list ends before the fuel, since a rule is dropped only once. -/
theorem Orderly.failAll {fuel : Nat} (h : r.Orderly)
    (known : ∀ f ∈ work, f.2 < r.errors.length) (enough : work.length + r.exportCount ≤ fuel) :
    failAll? fuel r work = some (failAll fuel r work) ∧ (failAll fuel r work).Orderly ∧
      Cascade work r (failAll fuel r work) := by
  induction fuel generalizing r work with
  | zero =>
    have : work = [] := length_eq_zero_iff.mp (by omega)
    subst this
    exact ⟨rfl, h, .nil r⟩
  | succ fuel ih =>
    cases work with
    | nil => exact ⟨rfl, h, .nil r⟩
    | cons f work =>
      obtain ⟨attr, e⟩ := f
      rw [length_cons] at enough
      by_cases resolved : r.isResolved attr = true
      · obtain ⟨checked, orderly, cascade⟩ :=
          ih h (fun f hf => known f (.tail _ hf)) (by omega)
        rw [failAll?, Reactor.failAll, if_pos resolved, if_pos resolved]
        exact ⟨checked, orderly, cascade.skip resolved⟩
      · have unresolved : r.slot? attr = none :=
          isResolved_eq_false.mp (Bool.eq_false_iff.mpr resolved)
        have recorded : e < r.errors.length := known (attr, e) (by simp)
        have purged := foldl_poison_purged attr e (r.waitersOf attr)
          (r.fill attr (.error e)) work
        have new := foldl_poison_new attr e (r.waitersOf attr) (r.fill attr (.error e)) work
        have grown := (purged.grows unresolved).errors.length_le
        have fewer := purged.count
        rw [show (r.fill attr (.error e)).exportCount = r.exportCount from rfl] at fewer
        obtain ⟨checked, orderly, cascade⟩ := ih (h.purge unresolved recorded purged)
          (fun f hf => by
            rcases purged.origin f hf with hf | ⟨hlt, _⟩
            · exact Nat.lt_of_lt_of_le (known f (.tail _ hf)) grown
            · exact hlt) (by omega)
        have poisoned := foldlM_poison? (r := r.fill attr (.error e)) attr
          (h.consistent.waitersOf_lt attr) recorded work
        rw [failAll?, Reactor.failAll, if_neg resolved, if_neg resolved, poisoned]
        exact ⟨checked, orderly, h.cascade_cons unresolved purged new cascade⟩

theorem Orderly.fail (h : r.Orderly) (attr : Attribute) (known : e < r.errors.length) :
    r.fail? attr e = some (r.fail attr e) ∧ (r.fail attr e).Orderly ∧
      Cascade [(attr, e)] r (r.fail attr e) :=
  h.failAll (by simpa using known) (Nat.le_refl _)

theorem Orderly.foldl_fail (h : r.Orderly) (attrs : List Attribute)
    (known : e < r.errors.length) :
    attrs.foldlM (fun r attr => r.fail? attr e) r =
        some (attrs.foldl (fun r attr => r.fail attr e) r) ∧
      (attrs.foldl (fun r attr => r.fail attr e) r).Orderly ∧
      Cascade (attrs.map (·, e)) r (attrs.foldl (fun r attr => r.fail attr e) r) := by
  induction attrs generalizing r with
  | nil => exact ⟨rfl, h, .nil r⟩
  | cons attr attrs ih =>
    obtain ⟨checked, orderly, first⟩ := h.fail attr known
    obtain ⟨checked', orderly', rest⟩ :=
      ih orderly (Nat.lt_of_lt_of_le known first.grows.errors.length_le)
    rw [foldlM_cons, checked]
    exact ⟨checked', orderly', first.append rest⟩

end Reactor

end BlFront
