import BlFront.Proofs.Reactor.Intact

/-!
# One mistake, one error

A rule that loses a dependency never runs, and its exports fail with it, whether it was registered
before the failure or after it.  The errors of attributes that fail in this way point to their
causes; following them leads to an error that was recorded on an attribute from which the rules
lead to the one that failed.  Such an error counts once, however much depends on it.
-/

namespace BlFront.Reactor

open List

variable {e i : ErrorId} {t : Reactor} {rule : Rule} {error : SemanticError}

variable {r r' : Reactor} {past : List (Reactor × Move)}

/-! ### Causes -/

theorem rootFrom?_mono {n k : Nat} (le : n ≤ k) {id : ErrorId} (h : r.rootFrom? n id = some error) :
    r.rootFrom? k id = some error := by
  induction n generalizing k id with
  | zero => cases h
  | succ n ih =>
    obtain ⟨k, rfl⟩ : ∃ j, k = j + 1 := ⟨k - 1, by omega⟩
    rw [rootFrom?] at h ⊢
    cases hrecord : r.errors[id]? with
    | none => simp [hrecord] at h
    | some record =>
      simp only [hrecord] at h ⊢
      cases hcause : record.cause with
      | none => simpa [hcause] using h
      | some c =>
        simp only [hcause] at h ⊢
        exact ih (by omega) h

theorem rootCause?_root (h : r.errors[i]? = some ⟨error, none⟩) : r.rootCause? i = some error := by
  simp [rootCause?, rootFrom?, h]

theorem rootCause?_derived {c : ErrorId} {record : ErrorRecord} (h : r.errors[i]? = some record)
    (hc : record.cause = some c) (older : c < i) (root : r.rootCause? c = some error) :
    r.rootCause? i = some error := by
  simp only [rootCause?, rootFrom?, h, hc]
  exact rootFrom?_mono older root

/-- A cause is older than what it causes, so following causes ends. -/
theorem Consistent.isSome_rootCause? (h : r.Consistent) (known : i < r.errors.length) :
    (r.rootCause? i).isSome := by
  induction i using Nat.strongRecOn with
  | ind i ih =>
    obtain ⟨record, hrecord⟩ : ∃ record, r.errors[i]? = some record :=
      ⟨_, List.getElem?_eq_getElem known⟩
    cases hcause : record.cause with
    | none =>
      obtain ⟨error, cause⟩ := record
      cases hcause
      rw [rootCause?_root hrecord]
      rfl
    | some c =>
      have older := h.cause_lt hrecord hcause
      obtain ⟨error, root⟩ := Option.isSome_iff_exists.mp (ih c older (Nat.lt_trans older known))
      rw [rootCause?_derived hrecord hcause older root]
      rfl

/-! ### Root errors -/

/-- The root errors that moves add, in order. -/
def recorded (past : List (Reactor × Move)) : List SemanticError :=
  past.reverse.flatMap fun entry => entry.2.roots entry.1

theorem Path.rootErrors (path : r.Path past r') (h : r.Orderly) :
    r'.rootErrors = r.rootErrors ++ recorded past := by
  induction path with
  | here => simp [recorded]
  | step before makes ih =>
    rw [(makes.outcome (before.orderly h)).roots, ih]
    simp [recorded]

/-! ### Where failures come from -/

theorem Move.added?_eq_some {m : Move} (h : m.added? = some rule) :
    ∃ given, m = .register given ∧ rule = given.tidied := by
  cases m with
  | register given => exact ⟨given, rfl, (Option.some.inj h).symm⟩
  | _ => cases h

/-- A rule that is pending was so before, or was registered on the way. -/
theorem Path.waits (path : r.Path past r') (h : r.Orderly) (waits : r'.Waits rule) :
    r.Waits rule ∨ ∃ s given, (s, .register given) ∈ past ∧ rule = given.tidied := by
  induction path with
  | here => exact .inl waits
  | step before makes ih =>
    rcases (makes.outcome (before.orderly h)).waits rule waits with waits | added
    · rcases ih waits with waits | ⟨s, given, mem, same⟩
      · exact .inl waits
      · exact .inr ⟨s, given, mem_cons_of_mem _ mem, same⟩
    · obtain ⟨given, rfl, same⟩ := Move.added?_eq_some added
      exact .inr ⟨_, given, mem_cons_self .., same⟩

theorem Path.registered (path : Reactor.empty.Path past r) (waits : r.Waits rule) :
    ∃ s given, (s, .register given) ∈ past ∧ rule = given.tidied := by
  refine (path.waits .empty waits).resolve_left ?_
  rintro ⟨id, p, found, _⟩
  simp [rule?, Reactor.empty] at found

/-- A rule that was registered depends on one attribute and exports the other. -/
def Feeds (past : List (Reactor × Move)) (d x : Attribute) : Prop :=
  ∃ s rule, (s, Move.register rule) ∈ past ∧ d ∈ rule.deps ∧ x ∈ rule.exports

/-- Why an attribute failed: an error was recorded on it, or a dependency failed. -/
inductive Blamed (past : List (Reactor × Move)) (r : Reactor) (attr : Attribute) (e : ErrorId) : Prop
  | direct {t : Reactor} {error : SemanticError} {affected : List Attribute}
      (rejected : (t, .reject error affected) ∈ past) (mem : attr ∈ affected)
      (id : e = t.errors.length) (root : r.errors[e]? = some ⟨error, none⟩)
  | derived {d : Attribute} {c : ErrorId} {record : ErrorRecord} (feeds : Feeds past d attr)
      (failed : r.errorOf? d = some c) (found : r.errors[e]? = some record)
      (cause : record.cause = some c)

theorem Feeds.later {d x : Attribute} (h : Feeds past d x) (entry : Reactor × Move) :
    Feeds (entry :: past) d x := by
  obtain ⟨s, rule, mem, hd, hx⟩ := h
  exact ⟨s, rule, mem_cons_of_mem _ mem, hd, hx⟩

theorem Blamed.later {attr : Attribute} (h : Blamed past r attr e) (entry : Reactor × Move)
    (grows : r.Grows r') : Blamed (entry :: past) r' attr e := by
  cases h with
  | direct rejected mem id root =>
    exact .direct (.tail _ rejected) mem id (grows.getElem?_errors root)
  | derived feeds failed found cause =>
    exact .derived (feeds.later entry) (grows.errorOf? failed) (grows.getElem?_errors found) cause

theorem Path.blamed (path : Reactor.empty.Path past r) {attr : Attribute}
    (failed : r.errorOf? attr = some e) : Blamed past r attr e := by
  induction path with
  | here => simp [errorOf?, slot?, Reactor.empty] at failed
  | @step past s s' m before makes ih =>
    have outcome := makes.outcome (before.orderly .empty)
    rcases outcome.failures failed with old | direct | ⟨rule, concerned, exported, d, hd, c, record,
      hc, found, cause⟩
    · exact (ih old).later (s, m) outcome.grows
    · obtain ⟨error, affected, rfl, mem, id, root⟩ := direct
      exact .direct (.head _) mem id root
    · refine .derived ?_ hc found cause
      have registered : ∃ t given, (t, Move.register given) ∈ (s, m) :: past ∧ rule = given.tidied := by
        rcases concerned with waits | added
        · obtain ⟨t, given, mem, hrule⟩ := before.registered waits
          exact ⟨t, given, mem_cons_of_mem _ mem, hrule⟩
        · obtain ⟨given, rfl, hrule⟩ := Move.added?_eq_some added
          exact ⟨s, given, mem_cons_self .., hrule⟩
      obtain ⟨t, given, mem, rfl⟩ := registered
      exact ⟨t, given, mem, Rule.mem_deps_tidied.mp hd, exported⟩

theorem mem_rootErrors {i : Nat} (h : r.errors[i]? = some ⟨error, none⟩) : error ∈ r.rootErrors :=
  mem_map.mpr ⟨_, mem_filter.mpr ⟨mem_of_getElem? h, rfl⟩, rfl⟩

/-- Following causes leads back along rules to an attribute that an error was recorded on. -/
theorem Path.rooted (path : Reactor.empty.Path past r) {a : Attribute}
    (failed : r.errorOf? a = some e) :
    ∃ t error affected b, (t, .reject error affected) ∈ past ∧ b ∈ affected ∧
      r.errorOf? b = some t.errors.length ∧ r.errors[t.errors.length]? = some ⟨error, none⟩ ∧
      r.rootCause? e = some error ∧ Relation.ReflTransGen (Feeds past) b a := by
  induction e using Nat.strongRecOn generalizing a with
  | ind e ih =>
    cases path.blamed failed with
    | @direct t error affected rejected mem id root =>
      subst id
      exact ⟨t, error, affected, a, rejected, mem, failed, root, rootCause?_root root, .refl⟩
    | @derived d c record feeds hc found cause =>
      have older := (path.orderly .empty).consistent.cause_lt found cause
      obtain ⟨t, error, affected, b, rejected, mem, hb, root, chain, reach⟩ := ih c older hc
      exact ⟨t, error, affected, b, rejected, mem, hb, root,
        rootCause?_derived found cause older chain, reach.tail feeds⟩

/-! ### What becomes of rules -/

/-- A rule runs only on values, and these stay. -/
theorem Path.started (path : r.Path past r') (h : r.Orderly) (start : (t, .start rule) ∈ past) :
    ∀ d ∈ rule.deps, ∃ v, r'.get? d = some v := by
  induction path with
  | here => cases start
  | step before makes ih =>
    intro d hd
    have outcome := makes.outcome (before.orderly h)
    rcases mem_cons.mp start with same | start
    · cases same
      obtain ⟨v, hv⟩ := outcome.ready rule rfl d hd
      exact ⟨v, outcome.grows.get? hv⟩
    · obtain ⟨v, hv⟩ := ih start d hd
      exact ⟨v, outcome.grows.get? hv⟩

theorem Path.not_started (path : r.Path past r') (h : r.Orderly) {d : Attribute}
    (dep : d ∈ rule.deps) (failed : (r'.errorOf? d).isSome) (t : Reactor) :
    (t, .start rule) ∉ past := by
  intro start
  obtain ⟨v, hv⟩ := path.started h start d dep
  simp [errorOf?, get?_eq_some.mp hv] at failed

/-- The exports of a rule have failed, except for those that had a value before. -/
def Spoilt (t r : Reactor) (rule : Rule) : Prop :=
  ∀ x ∈ rule.exports, (r.errorOf? x).isSome ∨ ∃ v, t.get? x = some v ∧ r.get? x = some v

theorem Spoilt.grow (h : Spoilt t r rule) (grows : r.Grows r') : Spoilt t r' rule := by
  intro x hx
  rcases h x hx with failed | ⟨v, old, hv⟩
  · exact .inl (grows.isSome_errorOf? failed)
  · exact .inr ⟨v, old, grows.get? hv⟩

theorem Poisoned.spoilt (h : Poisoned r r' rule) : Spoilt r r' rule := by
  intro x hx
  rcases isResolved_iff_get?_or_errorOf?.mp (h.lost.exports x hx) with ⟨v, hv⟩ | ⟨e, he⟩
  · exact .inr ⟨v, h.values hv, hv⟩
  · exact .inl (by rw [he]; rfl)

/-- A reactor in which a rule was not lost yet: the one that it was registered with, or a later one
in which it was pending. -/
def Awaited (later : List (Reactor × Move)) (s : Reactor) (rule : Rule) (t : Reactor) : Prop :=
  t = s ∨ (∃ m, (t, m) ∈ later) ∧ t.Waits rule

/-- What became of a rule in the moves since it was registered. -/
inductive Fate (later : List (Reactor × Move)) (s : Reactor) (rule : Rule) (r : Reactor) : Prop
  | waits (waits : r.Waits rule)
  | ran {t : Reactor} (start : (t, .start rule) ∈ later)
  | discarded {t : Reactor} (settle : (t, .settle) ∈ later) (waits : t.Waits rule)
  | lost {t : Reactor} (awaited : Awaited later s rule t) (spoilt : Spoilt t r rule)

theorem Fate.later {later : List (Reactor × Move)} {s : Reactor} {m : Move}
    (h : Fate later s rule t) (outcome : Outcome m t r) : Fate ((t, m) :: later) s rule r := by
  cases h with
  | waits waits =>
    rcases outcome.fate rule (.inl waits) with waits | rfl | rfl | poisoned
    · exact .waits waits
    · exact .ran (.head _)
    · exact .discarded (.head _) waits
    · exact .lost (.inr ⟨⟨m, mem_cons_self ..⟩, waits⟩) poisoned.spoilt
  | ran start => exact .ran (.tail _ start)
  | discarded settle waits => exact .discarded (.tail _ settle) waits
  | lost awaited spoilt =>
    refine .lost ?_ (spoilt.grow outcome.grows)
    rcases awaited with same | ⟨⟨n, mem⟩, pending⟩
    · exact .inl same
    · exact .inr ⟨⟨n, mem_cons_of_mem _ mem⟩, pending⟩

theorem Path.fate (path : r.Path past r') (h : r.Orderly) {later earlier : List (Reactor × Move)}
    {s : Reactor} {given : Rule} (split : past = later ++ (s, .register given) :: earlier) :
    Fate later s given.tidied r' := by
  induction path generalizing later with
  | here => simp at split
  | step before makes ih =>
    have outcome := makes.outcome (before.orderly h)
    cases later with
    | nil =>
      cases split
      rcases outcome.fate given.tidied (.inr rfl) with waits | same | same | poisoned
      · exact .waits waits
      · cases same
      · cases same
      · exact .lost (.inl rfl) poisoned.spoilt
    | cons entry later =>
      obtain ⟨rfl, rest⟩ := List.cons.inj split
      exact (ih rest).later outcome

/-- Poisoning is complete: a rule with a dependency that failed, unless a run discarded it, never
runs and leaves none of its exports without a slot.  It adds no root error: those are the errors
that were accepted, in order, and the cause of every failure is one of them. -/
theorem poisoning_is_complete (path : Reactor.empty.Path past r) :
    (∀ later s rule earlier, past = later ++ (s, .register rule) :: earlier →
      (∀ t, (t, .settle) ∈ later → ¬ t.Waits rule.tidied) →
      ∀ d ∈ rule.deps, (r.errorOf? d).isSome →
        (∀ more r', r.Path more r' →
          ¬ r'.Waits rule.tidied ∧ ∀ t, (t, .start rule.tidied) ∉ more ++ past) ∧
        ∃ t, Awaited later s rule.tidied t ∧ Spoilt t r rule) ∧
      (∀ (i : Nat) (record : ErrorRecord) (c : ErrorId),
        r.errors[i]? = some record → record.cause = some c → c < i) ∧
      (∀ i < r.errors.length, (r.rootCause? i).isSome) ∧
      (∀ a e, r.errorOf? a = some e →
        ∃ t error affected b, (t, .reject error affected) ∈ past ∧ b ∈ affected ∧
          r.errorOf? b = some t.errors.length ∧ r.errors[t.errors.length]? = some ⟨error, none⟩ ∧
          r.rootCause? e = some error ∧ error ∈ r.rootErrors ∧
          Relation.ReflTransGen (Feeds past) b a) ∧
      r.rootErrors = recorded past ∧
      ∀ symbols, ∃ more, r.Path more (r.run symbols).2 ∧ Attributed (fun _ => False) more ∧
        (r.run symbols).2.rootErrors = r.rootErrors ++ recorded more := by
  have orderly := path.orderly .empty
  refine ⟨?_, fun i record c => orderly.consistent.cause_lt,
    fun i => orderly.consistent.isSome_rootCause?, fun a e failed => ?_, path.rootErrors .empty,
    fun symbols => ?_⟩
  · intro later s rule earlier split kept d hd failed
    have dep : d ∈ rule.tidied.deps := Rule.mem_deps_tidied.mpr hd
    refine ⟨fun more r' onward => ?_, ?_⟩
    · have failed' := (onward.grows orderly).isSome_errorOf? failed
      have whole := path.trans onward
      exact ⟨(whole.orderly .empty).not_waits dep failed', whole.not_started .empty dep failed'⟩
    · cases path.fate .empty split with
      | waits waits => exact absurd waits (orderly.not_waits dep failed)
      | ran start =>
        have mem := mem_append_left ((s, .register rule) :: earlier) start
        exact absurd (split ▸ mem) (path.not_started .empty dep failed _)
      | discarded settle waits => exact absurd waits (kept _ settle)
      | lost awaited spoilt => exact ⟨_, awaited, spoilt⟩
  · obtain ⟨t, error, affected, b, rejected, mem, hb, root, chain, reach⟩ := path.rooted failed
    exact ⟨t, error, affected, b, rejected, mem, hb, root, chain, mem_rootErrors root, reach⟩
  · obtain ⟨more, onward, asked⟩ := run_goes orderly symbols
    exact ⟨more, onward, asked, onward.rootErrors orderly⟩

def earlyCopy : Rule := .copy "early" (typeOfNode 0) (typeOfNode 1)

def lateCopy : Rule := .copy "late" (typeOfNode 1) (typeOfNode 2)

def missingType : SemanticError := ⟨.dummy, "no type"⟩

/-- A rule that is pending when its source fails, and one that comes when its source has failed. -/
def twiceSpoilt : Reactor :=
  ((Reactor.empty.register earlyCopy).reject missingType [typeOfNode 0]).register lateCopy

theorem twiceSpoilt_path : Reactor.empty.Path
    [((Reactor.empty.register earlyCopy).reject missingType [typeOfNode 0], .register lateCopy),
      (Reactor.empty.register earlyCopy, .reject missingType [typeOfNode 0]),
      (Reactor.empty, .register earlyCopy)] twiceSpoilt :=
  .step (.step (.step .here (.register _ _)) (.reject _ _ _)) (.register _ _)

theorem poisoning_is_complete_twiceSpoilt :
    ¬ twiceSpoilt.Waits earlyCopy.tidied ∧ twiceSpoilt.rootErrors = [missingType] ∧
      ∃ e, twiceSpoilt.errorOf? (typeOfNode 2) = some e ∧
        twiceSpoilt.rootCause? e = some missingType := by
  obtain ⟨complete, _, _, rooted, roots, _⟩ := poisoning_is_complete twiceSpoilt_path
  have lost := complete [_, _] .empty earlyCopy [] rfl (by simp) (typeOfNode 0)
    (.head _) rfl
  have once : twiceSpoilt.rootErrors = [missingType] := roots.trans rfl
  obtain ⟨_, error, _, _, _, _, _, _, chain, mem, _⟩ := rooted (typeOfNode 2) 2 rfl
  rw [once, mem_singleton] at mem
  exact ⟨(lost.1 [] _ .here).1, once, 2, rfl, mem ▸ chain⟩

end BlFront.Reactor
