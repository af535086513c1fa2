import BlFront.Reactor.Run
import Mathlib

/-!
# The bookkeeping of a reactor

A reactor counts for every pending rule the dependencies without a slot, lists who waits for
what, and queues the rules that wait for nothing.  `Consistent` says that all of this agrees
with the store.  Every operation on slots and rules is described here by what it does to the
parts of the state, so that no later proof opens it.
-/

namespace BlFront

open List

variable {attr : Attribute} {p : Pending} {r' : Reactor}

/-- The rule that waits for one attribute less. -/
def Pending.counted (p : Pending) : Pending := { p with waiting := p.waiting - 1 }

namespace Reactor

/-! ### Slots -/

variable {r : Reactor} {v : Value}

theorem get?_eq_some :
    r.get? attr = some v ↔ r.slot? attr = some (.value v) := by
  unfold get?
  split <;> simp_all

variable {e : ErrorId}

theorem errorOf?_eq_some :
    r.errorOf? attr = some e ↔ r.slot? attr = some (.error e) := by
  unfold errorOf?
  split <;> simp_all

theorem isResolved_eq_false : r.isResolved attr = false ↔ r.slot? attr = none := by
  simp [isResolved]

theorem isResolved_iff :
    r.isResolved attr = true ↔ ∃ slot, r.slot? attr = some slot := by
  simp [isResolved, Option.isSome_iff_exists]

theorem isResolved_iff_get?_or_errorOf? :
    r.isResolved attr = true ↔ (∃ v, r.get? attr = some v) ∨ ∃ e, r.errorOf? attr = some e := by
  simp only [isResolved_iff, get?_eq_some, errorOf?_eq_some]
  constructor
  · rintro ⟨v | e, h⟩
    · exact .inl ⟨v, h⟩
    · exact .inr ⟨e, h⟩
  · rintro (⟨v, h⟩ | ⟨e, h⟩)
    · exact ⟨_, h⟩
    · exact ⟨_, h⟩

theorem slot?_fill (r : Reactor) (attr other : Attribute) (slot : Slot) :
    (r.fill attr slot).slot? other = if other = attr then some slot else r.slot? other :=
  r.store.get?_push attr other slot

theorem rule?_fill (r : Reactor) (attr : Attribute) (slot : Slot) (id : RuleId) :
    (r.fill attr slot).rule? id = r.rule? id := rfl

theorem mem_waiters_fill {slot : Slot} {w : Attribute × RuleId} :
    w ∈ (r.fill attr slot).waiters ↔ w ∈ r.waiters ∧ w.1 ≠ attr := by
  simp [fill]

theorem slot?_congr (h : r'.store = r.store) : r'.slot? = r.slot? := by
  funext attr
  simp only [slot?, h]

/-- Whether an attribute is still without a slot. -/
def isOpen (r : Reactor) (attr : Attribute) : Bool := !r.isResolved attr

theorem isOpen_iff : r.isOpen attr = true ↔ r.slot? attr = none := by
  simp [isOpen, isResolved]

theorem isOpen_fill (r : Reactor) (attr other : Attribute) (slot : Slot) :
    (r.fill attr slot).isOpen other = (r.isOpen other && other != attr) := by
  simp only [isOpen, isResolved, slot?_fill]
  by_cases h : other = attr <;> simp [h]

theorem isOpen_congr (h : r'.store = r.store) : r'.isOpen = r.isOpen := by
  funext attr
  simp only [isOpen, isResolved, slot?_congr h]

/-! ### Pending rules -/

theorem rule?_lt {id : RuleId} (h : r.rule? id = some p) : id < r.rules.length := by
  by_contra hge
  simp [rule?, List.getElem?_eq_none (Nat.not_lt.mp hge)] at h

theorem rule?_eq_some {id : RuleId} :
    r.rule? id = some p ↔ r.rules[id]? = some (some p) := by
  simp only [rule?]
  cases r.rules[id]? <;> simp

theorem mem_pendingRules : p ∈ r.pendingRules ↔ ∃ id, r.rule? id = some p := by
  simp only [pendingRules, mem_filterMap, id_eq, exists_eq_right, rule?_eq_some]
  exact mem_iff_getElem?

private theorem filterMap_id_set_none {α : Type} {l : List (Option α)} {i : Nat} {a : α}
    (h : l[i]? = some (some a)) : (l.filterMap id).Perm (a :: (l.set i none).filterMap id) := by
  induction l generalizing i with
  | nil => simp at h
  | cons x l ih =>
    cases i with
    | zero =>
      simp only [List.getElem?_cons_zero, Option.some.injEq] at h
      subst h
      simp
    | succ i =>
      simp only [List.getElem?_cons_succ] at h
      cases x with
      | none => simpa using ih h
      | some b =>
        simp only [filterMap_cons, id_eq, set_cons_succ]
        exact ((ih h).cons b).trans (List.Perm.swap a b _)

private theorem filterMap_id_set_some {α β : Type} (f : α → β) {l : List (Option α)} {i : Nat}
    {a b : α} (h : l[i]? = some (some a)) (hf : f b = f a) :
    ((l.set i (some b)).filterMap id).map f = (l.filterMap id).map f := by
  induction l generalizing i with
  | nil => simp at h
  | cons x l ih =>
    cases i with
    | zero =>
      simp only [List.getElem?_cons_zero, Option.some.injEq] at h
      subst h
      simp [hf]
    | succ i =>
      simp only [List.getElem?_cons_succ] at h
      cases x with
      | none => simpa using ih h
      | some c => simpa using ih h

/-- The reactor without one of its rules. -/
def drop (r : Reactor) (id : RuleId) : Reactor := { r with rules := r.rules.set id none }

theorem rule?_drop (r : Reactor) (id other : RuleId) :
    (r.drop id).rule? other = if other = id then none else r.rule? other := by
  simp only [drop, rule?, List.getElem?_set]
  by_cases h : id = other
  · subst h
    simp only [if_true]
    split <;> rfl
  · simp [h, Ne.symm h]

theorem pendingRules_drop {id : RuleId} (h : r.rule? id = some p) :
    r.pendingRules.Perm (p :: (r.drop id).pendingRules) :=
  filterMap_id_set_none (rule?_eq_some.mp h)

/-- The reactor while the first rule of its queue runs. -/
def pop (r : Reactor) (id : RuleId) (queue : List RuleId) : Reactor :=
  { r with queue := queue, rules := r.rules.set id none }

theorem rule?_pop (r : Reactor) (id : RuleId) (queue : List RuleId) (other : RuleId) :
    (r.pop id queue).rule? other = if other = id then none else r.rule? other :=
  rule?_drop r id other

theorem rule?_of_pop {id other : RuleId} (queue : List RuleId) {q : Pending}
    (h : (r.pop id queue).rule? other = some q) : r.rule? other = some q := by
  rw [rule?_pop] at h
  split at h
  · cases h
  · exact h

theorem pendingRules_pop {id : RuleId} (h : r.rule? id = some p) (queue : List RuleId) :
    r.pendingRules.Perm (p :: (r.pop id queue).pendingRules) :=
  pendingRules_drop h

theorem rule?_await (r : Reactor) (rule : Rule) (id : RuleId) :
    (r.await rule).rule? id = if id = r.rules.length then
      some ⟨rule, (rule.deps.filter r.isOpen).length⟩ else r.rule? id := by
  change ((r.rules ++ [some (Pending.mk rule (rule.deps.filter r.isOpen).length)])[id]?).join = _
  simp only [rule?, List.getElem?_append, List.getElem?_singleton]
  rcases Nat.lt_trichotomy id r.rules.length with h | h | h
  · simp [h, Nat.ne_of_lt h]
  · simp [h]
  · have hle : r.rules.length ≤ id := Nat.le_of_lt h
    simp [Nat.not_lt.mpr hle, Nat.ne_of_gt h, Nat.sub_eq_zero_iff_le, Nat.not_le.mpr h]

theorem pendingRules_await (r : Reactor) (rule : Rule) :
    (r.await rule).pendingRules =
      r.pendingRules ++ [⟨rule, (rule.deps.filter r.isOpen).length⟩] := by
  change (r.rules ++ [some (Pending.mk rule (rule.deps.filter r.isOpen).length)]).filterMap id = _
  simp [pendingRules]

/-! ### Waking -/

theorem rule?_wake (r : Reactor) (id other : RuleId) :
    (r.wake id).rule? other =
      if other = id then (r.rule? id).map Pending.counted else r.rule? other := by
  cases hp : r.rule? id with
  | none =>
    simp only [wake, hp, Option.map_none]
    split
    · next h => rw [h, hp]
    · rfl
  | some p =>
    have hlt := rule?_lt hp
    simp only [wake, hp, Option.map_some]
    by_cases h : other = id
    · subst h
      simp [rule?, hlt, Pending.counted]
    · simp [rule?, List.getElem?_set_ne (Ne.symm h), h]

/-- What waking some rules does: each is counted down, and those that wait for nothing any more
go to the end of the queue. -/
structure Woken (ids : List RuleId) (r r' : Reactor) : Prop where
  store : r'.store = r.store
  errors : r'.errors = r.errors
  waiters : r'.waiters = r.waiters
  running : r'.running = r.running
  length : r'.rules.length = r.rules.length
  rule? : ∀ id, r'.rule? id = if id ∈ ids then (r.rule? id).map Pending.counted else r.rule? id
  queue : r'.queue =
    r.queue ++ ids.filter fun id => (r.rule? id).any fun p => p.counted.waiting == 0
  pending : r'.pendingRules.map (·.rule) = r.pendingRules.map (·.rule)

theorem wake_woken (r : Reactor) (id : RuleId) : Woken [id] r (r.wake id) := by
  have hrule := rule?_wake r id
  cases hp : r.rule? id with
  | none =>
    have same : r.wake id = r := by simp [wake, hp]
    rw [same] at hrule ⊢
    refine ⟨rfl, rfl, rfl, rfl, rfl, fun other => ?_, by simp [hp], rfl⟩
    by_cases h : other = id <;> simp [h, hp]
  | some p =>
    refine ⟨by simp [wake, hp], by simp [wake, hp], by simp [wake, hp], by simp [wake, hp],
      by simp [wake, hp], ?_, ?_, ?_⟩
    · intro other
      rw [hrule]
      by_cases h : other = id <;> simp [h]
    · by_cases hw : p.waiting - 1 = 0 <;> simp [wake, hp, Pending.counted, hw]
    · simp only [wake, hp, pendingRules]
      exact filterMap_id_set_some (·.rule) (b := p.counted) (rule?_eq_some.mp hp) rfl

variable {ids : List RuleId}

theorem foldl_wake_woken (nodup : ids.Nodup) (r : Reactor) :
    Woken ids r (ids.foldl wake r) := by
  induction ids generalizing r with
  | nil => exact ⟨rfl, rfl, rfl, rfl, rfl, by simp, by simp, rfl⟩
  | cons id ids ih =>
    obtain ⟨hid, hids⟩ := nodup_cons.mp nodup
    have first := wake_woken r id
    have rest := ih hids (r.wake id)
    have unchanged : ∀ other ∈ ids, (r.wake id).rule? other = r.rule? other := by
      intro other hm
      have hne : other ≠ id := fun h => hid (h ▸ hm)
      simp [first.rule?, hne]
    refine ⟨rest.store.trans first.store, rest.errors.trans first.errors,
      rest.waiters.trans first.waiters, rest.running.trans first.running,
      rest.length.trans first.length, ?_, ?_, rest.pending.trans first.pending⟩
    · intro other
      rw [foldl_cons, rest.rule?, first.rule?]
      by_cases h : other = id
      · simp [h, hid]
      · simp [h]
    · have same := filter_congr (l := ids)
        (p := fun other => ((r.wake id).rule? other).any fun p => p.counted.waiting == 0)
        (q := fun other => (r.rule? other).any fun p => p.counted.waiting == 0)
        (fun other hm => by rw [unchanged other hm])
      rw [foldl_cons, rest.queue, first.queue, same, append_assoc,
        ← filter_append, singleton_append]

/-! ### Poisoning -/

theorem exportCount_eq (r : Reactor) :
    r.exportCount = (r.pendingRules.map fun p => p.rule.exports.length).sum := by
  rw [sum_eq_foldl_nat, foldl_map]
  rfl

theorem exportCount_drop {id : RuleId} (h : r.rule? id = some p) :
    r.exportCount = p.rule.exports.length + (r.drop id).exportCount := by
  have perm := (pendingRules_drop h).map fun p => p.rule.exports.length
  rw [exportCount_eq, exportCount_eq, perm.sum_nat, map_cons, sum_cons]

theorem pendingRules_drop_sublist (r : Reactor) (id : RuleId) :
    (r.drop id).pendingRules.Sublist r.pendingRules := by
  simp only [drop, pendingRules]
  induction r.rules generalizing id with
  | nil => simp
  | cons x l ih =>
    cases id with
    | zero =>
      cases x with
      | none => simp
      | some p => simp
    | succ id =>
      cases x with
      | none => simpa using ih id
      | some p => simpa using ih id

/-- What poisoning some rules does: they are gone, and their exports are to fail with errors
that point to the cause. -/
structure Purged (cause : ErrorId) (ids : List RuleId) (r : Reactor) (work : List Failure)
    (r' : Reactor) (work' : List Failure) : Prop where
  store : r'.store = r.store
  waiters : r'.waiters = r.waiters
  queue : r'.queue = r.queue
  running : r'.running = r.running
  length : r'.rules.length = r.rules.length
  rule? : ∀ id, r'.rule? id = if id ∈ ids then none else r.rule? id
  errors : ∃ derived, r'.errors = r.errors ++ derived ∧ ∀ d ∈ derived, d.cause = some cause
  pending : r'.pendingRules.Sublist r.pendingRules
  count : work'.length + r'.exportCount = work.length + r.exportCount
  kept : ∀ f ∈ work, f ∈ work'
  added : ∀ id ∈ ids, ∀ p, r.rule? id = some p → ∀ x ∈ p.rule.exports, x ∈ work'.map Prod.fst
  origin : ∀ f ∈ work', f ∈ work ∨
    f.2 < r'.errors.length ∧ ∃ id ∈ ids, ∃ p, r.rule? id = some p ∧ f.1 ∈ p.rule.exports

theorem Purged.refl (cause : ErrorId) (r : Reactor) (work : List Failure) :
    Purged cause [] r work r work where
  store := rfl
  waiters := rfl
  queue := rfl
  running := rfl
  length := rfl
  rule? id := by simp
  errors := ⟨[], by simp, by simp⟩
  pending := List.Sublist.refl _
  count := rfl
  kept _ h := h
  added := by simp
  origin _ h := .inl h

variable {work work' : List Failure}

theorem Purged.trans {cause : ErrorId} {ids' : List RuleId} {r'' : Reactor}
    {work'' : List Failure} (first : Purged cause ids r work r' work')
    (second : Purged cause ids' r' work' r'' work'') :
    Purged cause (ids ++ ids') r work r'' work'' where
  store := second.store.trans first.store
  waiters := second.waiters.trans first.waiters
  queue := second.queue.trans first.queue
  running := second.running.trans first.running
  length := second.length.trans first.length
  rule? id := by
    rw [second.rule?, first.rule?]
    by_cases h : id ∈ ids' <;> by_cases h' : id ∈ ids <;> simp [h, h']
  errors := by
    obtain ⟨d, h, hd⟩ := first.errors
    obtain ⟨d', h', hd'⟩ := second.errors
    refine ⟨d ++ d', by rw [h', h, append_assoc], ?_⟩
    intro x hx
    rcases mem_append.mp hx with hx | hx
    · exact hd x hx
    · exact hd' x hx
  pending := second.pending.trans first.pending
  count := second.count.trans first.count
  kept f h := second.kept f (first.kept f h)
  added id hid p hp x hx := by
    by_cases hin : id ∈ ids
    · obtain ⟨f, hf, hfx⟩ := mem_map.mp (first.added id hin p hp x hx)
      exact mem_map.mpr ⟨f, second.kept f hf, hfx⟩
    · have hp' : r'.rule? id = some p := by rw [first.rule?, if_neg hin, hp]
      have hid' : id ∈ ids' := (mem_append.mp hid).resolve_left hin
      exact second.added id hid' p hp' x hx
  origin f hf := by
    obtain ⟨d, herr, _⟩ := second.errors
    rcases second.origin f hf with hf | ⟨hlt, id, hid, p, hp, hx⟩
    · rcases first.origin f hf with hf | ⟨hlt, id, hid, p, hp, hx⟩
      · exact .inl hf
      · have grown : r'.errors.length ≤ r''.errors.length := by simp [herr]
        exact .inr ⟨Nat.lt_of_lt_of_le hlt grown, id, mem_append_left _ hid, p, hp, hx⟩
    · refine .inr ⟨hlt, id, mem_append_right _ hid, p, ?_, hx⟩
      rw [first.rule?] at hp
      split at hp
      · cases hp
      · exact hp

theorem poison_purged (attr : Attribute) (cause : ErrorId) (r : Reactor) (work : List Failure)
    (id : RuleId) :
    Purged cause [id] r work (poison attr cause (r, work) id).1
      (poison attr cause (r, work) id).2 := by
  cases hp : r.rule? id with
  | none =>
    have same : poison attr cause (r, work) id = (r, work) := by simp [poison, hp]
    rw [same]
    refine { Purged.refl cause r work with rule? := ?_, added := ?_, origin := fun _ h => .inl h }
    · intro other
      by_cases h : other = id
      · simp [h, hp]
      · simp [h]
    · intro other hm p h
      simp only [mem_singleton] at hm
      rw [hm, hp] at h
      cases h
  | some p =>
    -- a rule without exports leaves no error behind
    obtain ⟨derived, history, hr, hcause, hsome⟩ : ∃ derived history,
        poison attr cause (r, work) id = (({ r.drop id with
            errors := r.errors ++ derived, history := history } : Reactor),
          work ++ p.rule.exports.map (·, r.errors.length)) ∧
        (∀ d ∈ derived, d.cause = some cause) ∧ (p.rule.exports ≠ [] → derived ≠ []) := by
      by_cases he : p.rule.exports = []
      · exact ⟨[], .poisoned p.rule.name attr :: r.history, by simp [poison, hp, he, record, drop],
          by simp, by simp [he]⟩
      · exact ⟨[_], .poisoned p.rule.name attr :: r.history,
          by simp [poison, hp, he, record, drop, derive, pushError]; rfl, by simp, by simp⟩
    rw [hr]
    refine ⟨rfl, rfl, rfl, rfl, by simp [drop], fun other => ?_, ⟨derived, rfl, hcause⟩,
      pendingRules_drop_sublist r id, ?_, fun f h => mem_append_left _ h, ?_, ?_⟩
    · simp only [mem_singleton]
      exact rule?_drop r id other
    · have := exportCount_drop hp
      simp only [length_append, length_map]
      simp only [exportCount_eq, pendingRules] at this ⊢
      omega
    · intro other hm q hq x hx
      simp only [mem_singleton] at hm
      rw [hm, hp, Option.some.injEq] at hq
      subst hq
      simp [hx]
    · intro f hf
      rcases mem_append.mp hf with hf | hf
      · exact .inl hf
      · obtain ⟨x, hx, rfl⟩ := mem_map.mp hf
        have pos := length_pos_iff.mpr (hsome (ne_nil_of_mem hx))
        refine .inr ⟨?_, id, by simp, p, hp, hx⟩
        rw [length_append]
        exact Nat.lt_add_of_pos_right pos

theorem foldl_poison_purged (attr : Attribute) (cause : ErrorId) (ids : List RuleId) (r : Reactor)
    (work : List Failure) :
    Purged cause ids r work (ids.foldl (poison attr cause) (r, work)).1
      (ids.foldl (poison attr cause) (r, work)).2 := by
  induction ids generalizing r work with
  | nil => exact Purged.refl cause r work
  | cons id ids ih => exact (poison_purged attr cause r work id).trans (ih _ _)

/-! ### Consistency -/

/-- A rule that depends on an attribute waits for one attribute less when that gets a slot. -/
theorem countP_isOpen_fill {deps : List Attribute} (nodup : deps.Nodup)
    (unresolved : r.slot? attr = none) (slot : Slot) :
    deps.countP (r.fill attr slot).isOpen + (if attr ∈ deps then 1 else 0) =
      deps.countP r.isOpen := by
  induction deps with
  | nil => simp
  | cons d deps ih =>
    obtain ⟨hd, hdeps⟩ := nodup_cons.mp nodup
    have rest := ih hdeps
    simp only [countP_cons, isOpen_fill, mem_cons]
    by_cases h : d = attr
    · subst h
      have hopen : r.isOpen d = true := isOpen_iff.mpr unresolved
      simp only [hd, if_false] at rest
      simp [hopen, rest]
    · simp only [Ne.symm h, false_or, bne_iff_ne, ne_eq, h, not_false_iff, Bool.and_eq_true,
        and_true]
      omega

/-- The bookkeeping agrees with the store: pending rules count and list what they wait for, the
queue holds those that wait for nothing, and errors point to errors before them. -/
structure Consistent (r : Reactor) : Prop where
  deps_nodup : ∀ {id p}, r.rule? id = some p → p.rule.deps.Nodup
  waiting_eq : ∀ {id p}, r.rule? id = some p → p.waiting = p.rule.deps.countP r.isOpen
  mem_waiters : ∀ {id p}, r.rule? id = some p →
    ∀ attr, (attr, id) ∈ r.waiters ↔ attr ∈ p.rule.deps ∧ r.slot? attr = none
  waiters_nodup : r.waiters.Nodup
  waiters_lt : ∀ w ∈ r.waiters, w.2 < r.rules.length
  mem_queue : ∀ id, id ∈ r.queue ↔ ∃ p, r.rule? id = some p ∧ p.waiting = 0
  queue_nodup : r.queue.Nodup
  slot_lt : ∀ {attr e}, r.slot? attr = some (.error e) → e < r.errors.length
  cause_lt : ∀ {i : Nat} {record : ErrorRecord} {c : ErrorId},
    r.errors[i]? = some record → record.cause = some c → c < i

namespace Consistent

variable {r : Reactor}

theorem empty : Reactor.empty.Consistent where
  deps_nodup h := by simp [rule?, Reactor.empty] at h
  waiting_eq h := by simp [rule?, Reactor.empty] at h
  mem_waiters h := by simp [rule?, Reactor.empty] at h
  waiters_nodup := nodup_nil
  waiters_lt := by simp [Reactor.empty]
  mem_queue := by simp [rule?, Reactor.empty]
  queue_nodup := nodup_nil
  slot_lt h := by simp [slot?, Reactor.empty] at h
  cause_lt h := by simp [Reactor.empty] at h

/-- What happened and what was noted do not matter. -/
theorem congr (h : r.Consistent) (running : Bool) (journal : List Note) (history : List Occurrence) :
    Consistent { r with running := running, journal := journal, history := history } :=
  ⟨h.deps_nodup, h.waiting_eq, h.mem_waiters, h.waiters_nodup, h.waiters_lt, h.mem_queue,
    h.queue_nodup, h.slot_lt, h.cause_lt⟩

theorem waitersOf_nodup (h : r.Consistent) (attr : Attribute) : (r.waitersOf attr).Nodup := by
  refine List.Nodup.map_on ?_ (h.waiters_nodup.filter _)
  intro x hx y hy hxy
  simp only [mem_filter, beq_iff_eq] at hx hy
  exact Prod.ext (hx.2.trans hy.2.symm) hxy

theorem mem_waitersOf (h : r.Consistent) (unresolved : r.slot? attr = none) {id : RuleId}
    (hp : r.rule? id = some p) : id ∈ r.waitersOf attr ↔ attr ∈ p.rule.deps := by
  have listed := h.mem_waiters hp attr
  simp only [unresolved, and_true] at listed
  rw [← listed]
  simp [waitersOf]

theorem errors_push (h : r.Consistent) (record : ErrorRecord)
    (older : ∀ c, record.cause = some c → c < r.errors.length) :
    Consistent { r with errors := r.errors ++ [record] } where
  deps_nodup := h.deps_nodup
  waiting_eq := h.waiting_eq
  mem_waiters := h.mem_waiters
  waiters_nodup := h.waiters_nodup
  waiters_lt := h.waiters_lt
  mem_queue := h.mem_queue
  queue_nodup := h.queue_nodup
  slot_lt hs := by
    rw [length_append]
    exact Nat.lt_add_right _ (h.slot_lt hs)
  cause_lt {i rec c} hi hc := by
    rcases Nat.lt_or_ge i r.errors.length with hlt | hge
    · rw [List.getElem?_append_left hlt] at hi
      exact h.cause_lt hi hc
    · rw [List.getElem?_append_right hge, List.getElem?_singleton] at hi
      split at hi
      · cases hi
        exact Nat.lt_of_lt_of_le (older c hc) hge
      · cases hi

theorem waiting_pos (h : r.Consistent) (unresolved : r.slot? attr = none) {id : RuleId}
    (hp : r.rule? id = some p) (hd : attr ∈ p.rule.deps) : 0 < p.waiting := by
  rw [h.waiting_eq hp]
  exact countP_pos_iff.mpr ⟨attr, hd, isOpen_iff.mpr unresolved⟩

/-- A value reaches the rules that wait for it. -/
theorem accept (h : r.Consistent) (unresolved : r.slot? attr = none)
    (woken : Woken (r.waitersOf attr) (r.fill attr (.value v)) r') : r'.Consistent := by
  have hopen := isOpen_congr woken.store
  have hslot := slot?_congr woken.store
  -- every rule of the new state is one of the old, and counted down if it depends on `attr`
  have origin : ∀ {id p}, r'.rule? id = some p → ∃ q, r.rule? id = some q ∧ p.rule = q.rule ∧
      p.waiting = q.waiting - (if attr ∈ q.rule.deps then 1 else 0) := by
    intro id p hp
    rw [woken.rule?, rule?_fill] at hp
    split at hp
    · next hm =>
        obtain ⟨q, hq, rfl⟩ := Option.map_eq_some_iff.mp hp
        have hd := (h.mem_waitersOf unresolved hq).mp hm
        exact ⟨q, hq, rfl, by simp [hd, Pending.counted]⟩
    · next hm =>
        have hd : attr ∉ p.rule.deps := fun hd => hm ((h.mem_waitersOf unresolved hp).mpr hd)
        exact ⟨p, hp, rfl, by simp [hd]⟩
  refine ⟨?_, ?_, ?_, ?_, ?_, ?_, ?_, ?_, ?_⟩
  · intro id p hp
    obtain ⟨q, hq, hrule, _⟩ := origin hp
    rw [hrule]
    exact h.deps_nodup hq
  · intro id p hp
    obtain ⟨q, hq, hrule, hwait⟩ := origin hp
    have count := countP_isOpen_fill (h.deps_nodup hq) unresolved (.value v)
    rw [hwait, hrule, h.waiting_eq hq, hopen]
    omega
  · intro id p hp other
    obtain ⟨q, hq, hrule, _⟩ := origin hp
    rw [woken.waiters, mem_waiters_fill, h.mem_waiters hq, hrule, hslot, slot?_fill]
    by_cases ho : other = attr <;> simp [ho]
  · rw [woken.waiters]
    exact h.waiters_nodup.filter _
  · intro w hw
    rw [woken.waiters] at hw
    rw [woken.length]
    exact h.waiters_lt w (mem_filter.mp hw).1
  · intro id
    rw [woken.queue, mem_append, mem_filter, woken.rule?, rule?_fill]
    rw [show (r.fill attr (.value v)).queue = r.queue from rfl, h.mem_queue]
    by_cases hm : id ∈ r.waitersOf attr
    · cases hp : r.rule? id with
      | none => simp [hm]
      | some p =>
        simp only [hm, Option.some.injEq, if_true, true_and, Option.any_some, beq_iff_eq,
          Option.map_some, exists_eq_left', Pending.counted]
        omega
    · simp [hm]
  · rw [woken.queue]
    refine h.queue_nodup.append ((h.waitersOf_nodup attr).filter _) ?_
    intro id hid hm
    obtain ⟨p, hp, hzero⟩ := (h.mem_queue id).mp hid
    have hd := (h.mem_waitersOf unresolved hp).mp (mem_filter.mp hm).1
    have := h.waiting_pos unresolved hp hd
    omega
  · intro other e he
    rw [hslot, slot?_fill] at he
    rw [woken.errors]
    split at he
    · cases he
    · exact h.slot_lt he
  · intro i record c hi
    rw [woken.errors] at hi
    exact h.cause_lt hi

/-- An error drops the rules that wait for it; their exports are to fail next. -/
theorem purge (h : r.Consistent) (unresolved : r.slot? attr = none)
    (known : e < r.errors.length)
    (purged : Purged e (r.waitersOf attr) (r.fill attr (.error e)) work r' work') :
    r'.Consistent := by
  have hopen := isOpen_congr purged.store
  have hslot := slot?_congr purged.store
  have survivor : ∀ {id p}, r'.rule? id = some p → r.rule? id = some p ∧ attr ∉ p.rule.deps := by
    intro id p hp
    rw [purged.rule?, rule?_fill] at hp
    split at hp
    · cases hp
    · next hm => exact ⟨hp, fun hd => hm ((h.mem_waitersOf unresolved hp).mpr hd)⟩
  obtain ⟨derived, herr, hcause⟩ := purged.errors
  change r'.errors = r.errors ++ derived at herr
  have grown : r.errors.length ≤ r'.errors.length := by simp [herr]
  refine ⟨fun hp => h.deps_nodup (survivor hp).1, ?_, ?_, ?_, ?_, ?_, ?_, ?_, ?_⟩
  · intro id p hp
    obtain ⟨hq, hd⟩ := survivor hp
    have count := countP_isOpen_fill (h.deps_nodup hq) unresolved (.error e)
    rw [h.waiting_eq hq, hopen, ← count, if_neg hd, Nat.add_zero]
  · intro id p hp other
    obtain ⟨hq, hd⟩ := survivor hp
    rw [purged.waiters, mem_waiters_fill, h.mem_waiters hq, hslot, slot?_fill]
    by_cases ho : other = attr <;> simp [ho]
  · rw [purged.waiters]
    exact h.waiters_nodup.filter _
  · intro w hw
    rw [purged.waiters] at hw
    rw [purged.length]
    exact h.waiters_lt w (mem_filter.mp hw).1
  · intro id
    rw [purged.queue, show (r.fill attr (.error e)).queue = r.queue from rfl, h.mem_queue]
    constructor
    · rintro ⟨p, hp, hzero⟩
      refine ⟨p, ?_, hzero⟩
      rw [purged.rule?, rule?_fill]
      split
      · next hm =>
          have := h.waiting_pos unresolved hp ((h.mem_waitersOf unresolved hp).mp hm)
          omega
      · exact hp
    · rintro ⟨p, hp, hzero⟩
      exact ⟨p, (survivor hp).1, hzero⟩
  · rw [purged.queue]
    exact h.queue_nodup
  · intro other e' he
    rw [hslot, slot?_fill] at he
    split at he
    · cases he
      exact Nat.lt_of_lt_of_le known grown
    · exact Nat.lt_of_lt_of_le (h.slot_lt he) grown
  · intro i record c hi hc
    rw [herr] at hi
    rcases Nat.lt_or_ge i r.errors.length with hlt | hge
    · rw [List.getElem?_append_left hlt] at hi
      exact h.cause_lt hi hc
    · rw [List.getElem?_append_right hge] at hi
      have := hcause record (mem_of_getElem? hi)
      rw [hc, Option.some.injEq] at this
      exact this ▸ Nat.lt_of_lt_of_le known hge

/-- The first rule of the queue leaves it to run. -/
theorem pop (h : r.Consistent) {id : RuleId} {queue : List RuleId} (front : r.queue = id :: queue) :
    (r.pop id queue).Consistent := by
  have survivor : ∀ {other p}, (r.pop id queue).rule? other = some p →
      r.rule? other = some p ∧ other ≠ id := by
    intro other p hp
    rw [rule?_pop] at hp
    split at hp
    · cases hp
    · next hne => exact ⟨hp, hne⟩
  have nodup := h.queue_nodup
  rw [front] at nodup
  obtain ⟨hid, hqueue⟩ := nodup_cons.mp nodup
  refine ⟨fun hp => h.deps_nodup (survivor hp).1, fun hp => h.waiting_eq (survivor hp).1,
    fun hp => h.mem_waiters (survivor hp).1, h.waiters_nodup, ?_, ?_, hqueue, h.slot_lt,
    h.cause_lt⟩
  · intro w hw
    rw [show (r.pop id queue).rules = r.rules.set id none from rfl, length_set]
    exact h.waiters_lt w hw
  · intro other
    have hm := h.mem_queue other
    rw [front, mem_cons] at hm
    constructor
    · intro ho
      obtain ⟨p, hp, hzero⟩ := hm.mp (.inr ho)
      have hne : other ≠ id := fun he => hid (he ▸ ho)
      exact ⟨p, by rw [rule?_pop, if_neg hne, hp], hzero⟩
    · rintro ⟨p, hp, hzero⟩
      obtain ⟨hp, hne⟩ := survivor hp
      exact (hm.mpr ⟨p, hp, hzero⟩).resolve_left hne

/-- A new rule waits for those of its dependencies that have no slot. -/
theorem await (h : r.Consistent) {rule : Rule} (nodup : rule.deps.Nodup) :
    (r.await rule).Consistent := by
  have hopen : r.isOpen = (r.await rule).isOpen := rfl
  have hwaiters : (r.await rule).waiters =
      r.waiters ++ (rule.deps.filter r.isOpen).map (·, r.rules.length) := rfl
  have hqueue : (r.await rule).queue =
      if (rule.deps.filter r.isOpen).isEmpty then r.queue ++ [r.rules.length] else r.queue := rfl
  -- a rule is one of the old ones, none of which has the new identity, or the new one
  have origin : ∀ {id p}, (r.await rule).rule? id = some p →
      r.rule? id = some p ∧ id < r.rules.length ∨
        id = r.rules.length ∧ p = ⟨rule, (rule.deps.filter r.isOpen).length⟩ := by
    intro id p hp
    rw [rule?_await] at hp
    split at hp
    · next hid => exact .inr ⟨hid, (Option.some.inj hp).symm⟩
    · exact .inl ⟨hp, rule?_lt hp⟩
  have noOld : ∀ attr, (attr, r.rules.length) ∉ r.waiters := fun attr hm =>
    Nat.lt_irrefl _ (h.waiters_lt _ hm)
  have noneQueued : r.rules.length ∉ r.queue := by
    intro hm
    obtain ⟨p, hp, _⟩ := (h.mem_queue _).mp hm
    exact Nat.lt_irrefl _ (rule?_lt hp)
  refine ⟨?_, ?_, ?_, ?_, ?_, ?_, ?_, h.slot_lt, h.cause_lt⟩
  · intro id p hp
    rcases origin hp with ⟨hp, _⟩ | ⟨_, rfl⟩
    · exact h.deps_nodup hp
    · exact nodup
  · intro id p hp
    rcases origin hp with ⟨hp, _⟩ | ⟨_, rfl⟩
    · exact h.waiting_eq hp
    · rw [← hopen, countP_eq_length_filter]
  · intro id p hp attr
    rw [hwaiters, mem_append]
    rcases origin hp with ⟨hp, hlt⟩ | ⟨rfl, rfl⟩
    · have hne : (attr, id) ∉ (rule.deps.filter r.isOpen).map (·, r.rules.length) := by
        intro hm
        obtain ⟨_, _, he⟩ := mem_map.mp hm
        exact Nat.ne_of_gt hlt (Prod.mk.inj he).2
      simp only [hne, or_false]
      exact h.mem_waiters hp attr
    · simp only [noOld, false_or, mem_map, Prod.mk.injEq, and_true, exists_eq_right,
        mem_filter, isOpen_iff]
      rfl
  · rw [hwaiters]
    refine h.waiters_nodup.append ((nodup.filter _).map ?_) ?_
    · intro a b hab
      exact (Prod.mk.inj hab).1
    · intro w hw hm
      obtain ⟨a, _, rfl⟩ := mem_map.mp hm
      exact noOld a hw
  · intro w hw
    rw [hwaiters] at hw
    rw [show (r.await rule).rules.length = r.rules.length + 1 by simp [Reactor.await]]
    rcases mem_append.mp hw with hw | hw
    · exact Nat.lt_succ_of_lt (h.waiters_lt w hw)
    · obtain ⟨a, _, rfl⟩ := mem_map.mp hw
      exact Nat.lt_succ_self _
  · intro id
    rw [hqueue, rule?_await]
    by_cases hid : id = r.rules.length
    · subst hid
      by_cases he : rule.deps.filter r.isOpen = [] <;> simp [he, noneQueued]
    · rw [if_neg hid, ← h.mem_queue]
      split <;> simp [hid]
  · rw [hqueue]
    split
    · refine h.queue_nodup.append (nodup_singleton _) ?_
      intro id hm hid
      rw [mem_singleton.mp hid] at hm
      exact noneQueued hm
    · exact h.queue_nodup

/-- A rule that is not in the queue waits for something. -/
theorem awaits (h : r.Consistent) (empty : r.queue = []) {id : RuleId} {p : Pending}
    (found : r.rule? id = some p) : ∃ d ∈ p.rule.deps, r.slot? d = none := by
  have positive : p.waiting ≠ 0 := by
    intro hzero
    have hm := (h.mem_queue id).mpr ⟨p, found, hzero⟩
    rw [empty] at hm
    cases hm
  rw [h.waiting_eq found] at positive
  obtain ⟨d, hd, hopen⟩ := countP_pos_iff.mp (Nat.pos_of_ne_zero positive)
  exact ⟨d, hd, isOpen_iff.mp hopen⟩

end Consistent

end Reactor

end BlFront
