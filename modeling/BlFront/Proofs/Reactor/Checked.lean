import BlFront.Proofs.Reactor.Outlook

/-!
# Operations that check what they rely on

A reactor counts down what its rules wait for, and finds rules and errors by number.  The
operations below are those of a reactor, except that they have no result where a count would go
below zero, where a number is out of range, and where failures are left when the fuel is used up.
-/

namespace BlFront

open List

variable {r : Reactor}

private theorem nodup_eraseDups {α : Type} [BEq α] [LawfulBEq α] (l : List α) :
    l.eraseDups.Nodup := by
  match l with
  | [] => simp
  | a :: as =>
    rw [eraseDups_cons, nodup_cons]
    exact ⟨by simp [mem_eraseDups], nodup_eraseDups _⟩
  termination_by l.length
  decreasing_by exact Nat.lt_succ_of_le (length_filter_le _ _)

theorem Rule.nodup_deps_tidied (rule : Rule) : rule.tidied.deps.Nodup :=
  nodup_eraseDups rule.deps

namespace Reactor

/-! ### Loads -/

/-- The number of rules that are pending or that these can bring into being. -/
def load (r : Reactor) : Nat := (r.pendingRules.map (·.rule.size)).sum

theorem size_pos (rule : Rule) : 0 < rule.size := by
  cases rule
  rw [Rule.size]
  omega

theorem load_pop {id : RuleId} {p : Pending} (h : r.rule? id = some p) (queue : List RuleId) :
    r.load = p.rule.size + (r.pop id queue).load := by
  have perm := (pendingRules_pop h queue).map (·.rule.size)
  rw [load, load, perm.sum_nat, map_cons, sum_cons]

theorem load_le_fuel (r : Reactor) : r.load ≤ r.fuel := by
  have total : r.pendingRules.foldl (fun n p => n + p.rule.size) 0 = r.load := by
    rw [load, sum_eq_foldl_nat, foldl_map]
  rw [fuel, total]
  exact Nat.le_add_left _ _

/-! ### Requests -/

/-- What is done about a rule one of whose dependencies has failed. -/
def refuse (r : Reactor) (rule : Rule) (attr : Attribute) (cause : ErrorId) : Reactor :=
  let r := r.record (.refused rule.name attr)
  if rule.exports.isEmpty then r
  else
    let (derived, r) := r.derive attr cause
    rule.exports.foldl (fun r attr => r.fail attr derived) r

theorem register_of_none {rule : Rule} (h : r.firstFailed? rule.tidied.deps = none) :
    r.register rule = r.await rule.tidied := by
  simp only [Rule.tidied] at h
  simp only [register, h, Rule.tidied]

theorem register_of_some {rule : Rule} {attr : Attribute} {cause : ErrorId}
    (h : r.firstFailed? rule.tidied.deps = some (attr, cause)) :
    r.register rule = r.refuse rule attr cause := by
  simp only [Rule.tidied] at h
  simp only [register, h, refuse]

theorem firstFailed?_eq_some {attrs : List Attribute} {attr : Attribute} {e : ErrorId}
    (h : r.firstFailed? attrs = some (attr, e)) : attr ∈ attrs ∧ r.errorOf? attr = some e := by
  obtain ⟨a, ha, hf⟩ := exists_of_findSome?_eq_some h
  obtain ⟨e', he, heq⟩ := Option.map_eq_some_iff.mp hf
  cases heq
  exact ⟨ha, he⟩

theorem firstFailed?_eq_none {attrs : List Attribute} (h : r.firstFailed? attrs = none) :
    ∀ a ∈ attrs, r.errorOf? a = none := by
  intro a ha
  simpa using List.findSome?_eq_none_iff.mp h a ha

/-! ### Values -/

def wake? (r : Reactor) (id : RuleId) : Option Reactor :=
  if id < r.rules.length ∧ (r.rule? id).all (0 < ·.waiting) then some (r.wake id) else none

def resolve? (r : Reactor) (attr : Attribute) (value : Value) :
    Option (Except ReactorError Reactor) :=
  if r.isResolved attr then some (r.resolve attr value)
  else ((r.waitersOf attr).foldlM wake? (r.fill attr (.value value))).map .ok

theorem foldlM_wake? {ids : List RuleId} (nodup : ids.Nodup)
    (known : ∀ id ∈ ids, id < r.rules.length)
    (positive : ∀ id ∈ ids, ∀ p, r.rule? id = some p → 0 < p.waiting) :
    ids.foldlM wake? r = some (ids.foldl wake r) := by
  induction ids generalizing r with
  | nil => rfl
  | cons id ids ih =>
    obtain ⟨hid, hids⟩ := nodup_cons.mp nodup
    have first : r.wake? id = some (r.wake id) := by
      refine if_pos ⟨known id (by simp), ?_⟩
      cases hp : r.rule? id with
      | none => rfl
      | some p => simpa using positive id (by simp) p hp
    have woken := wake_woken r id
    rw [foldlM_cons, first, foldl_cons]
    refine ih hids (fun other ho => ?_) fun other ho p hp => ?_
    · rw [woken.length]
      exact known other (by simp [ho])
    · have hne : other ≠ id := fun same => hid (same ▸ ho)
      rw [woken.rule?, if_neg (by simpa using hne)] at hp
      exact positive other (by simp [ho]) p hp

/-! ### Failures -/

def poison? (attr : Attribute) (cause : ErrorId) (state : Reactor × List Failure) (id : RuleId) :
    Option (Reactor × List Failure) :=
  if id < state.1.rules.length ∧ cause < state.1.errors.length then
    some (poison attr cause state id)
  else none

def failAll? : Nat → Reactor → List Failure → Option Reactor
  | _, r, [] => some r
  | 0, _, _ :: _ => none
  | fuel + 1, r, (attr, error) :: work =>
    if r.isResolved attr then failAll? fuel r work
    else
      ((r.waitersOf attr).foldlM (poison? attr error) (r.fill attr (.error error), work)).bind
        fun state => failAll? fuel state.1 state.2

def fail? (r : Reactor) (attr : Attribute) (error : ErrorId) : Option Reactor :=
  failAll? (1 + r.exportCount) r [(attr, error)]

/-- Whether an error is recorded: it affects nothing in particular, or an attribute that has not
failed. -/
def accepts (r : Reactor) (affected : List Attribute) : Bool :=
  affected.isEmpty || affected.any fun attr => (r.errorOf? attr).isNone

def reject? (r : Reactor) (error : SemanticError) (affected : List Attribute) : Option Reactor :=
  if r.accepts affected then
    affected.foldlM (fun r' attr => r'.fail? attr r.errors.length) (r.pushError error none).2
  else some (r.record (.dropped error))

def register? (r : Reactor) (rule : Rule) : Option Reactor :=
  match r.firstFailed? rule.tidied.deps with
  | none => some (r.await rule.tidied)
  | some (attr, cause) =>
    if rule.exports.isEmpty then some (r.refuse rule attr cause)
    else if cause < r.errors.length then
      rule.exports.foldlM (fun r' x => r'.fail? x r.errors.length)
        ((r.record (.refused rule.name attr)).derive attr cause).2
    else none

theorem foldlM_poison? (attr : Attribute) {cause : ErrorId} {ids : List RuleId}
    (known : ∀ id ∈ ids, id < r.rules.length) (recorded : cause < r.errors.length)
    (work : List Failure) :
    ids.foldlM (poison? attr cause) (r, work) = some (ids.foldl (poison attr cause) (r, work)) := by
  induction ids generalizing r work with
  | nil => rfl
  | cons id ids ih =>
    have first : poison? attr cause (r, work) id = some (poison attr cause (r, work) id) :=
      if_pos ⟨known id (by simp), recorded⟩
    have purged := poison_purged attr cause r work id
    obtain ⟨derived, herr, _⟩ := purged.errors
    have still : ∀ other ∈ ids, other < (poison attr cause (r, work) id).1.rules.length := by
      intro other ho
      rw [purged.length]
      exact known other (by simp [ho])
    have known' : cause < (poison attr cause (r, work) id).1.errors.length := by
      rw [herr, length_append]
      exact Nat.lt_add_right _ recorded
    rw [foldlM_cons, first, foldl_cons]
    exact ih still known' _

theorem reject_of_accepts {affected : List Attribute} (h : r.accepts affected = true)
    (error : SemanticError) : r.reject error affected =
      affected.foldl (fun r' attr => r'.fail attr r.errors.length) (r.pushError error none).2 := by
  have kept : (!affected.isEmpty && affected.all fun attr => (r.errorOf? attr).isSome) = false := by
    rw [← Bool.not_eq_true', Bool.not_and, Bool.not_not, not_all_eq_any_not]
    simpa [accepts] using h
  rw [reject, kept]
  rfl

theorem reject_of_not_accepts {affected : List Attribute} (h : r.accepts affected = false)
    (error : SemanticError) : r.reject error affected = r.record (.dropped error) := by
  have dropped : (!affected.isEmpty && affected.all fun attr => (r.errorOf? attr).isSome) = true := by
    rw [← Bool.not_eq_false', Bool.not_and, Bool.not_not, not_all_eq_any_not]
    simpa [accepts] using h
  rw [reject, if_pos dropped]

end Reactor

end BlFront
