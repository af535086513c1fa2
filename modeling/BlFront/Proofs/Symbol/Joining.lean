import BlFront.Analysis.Flow
import BlFront.Proofs.Symbol.Order

/-!
# Orders of joining

Types may be joined two at a time in any order and grouping.  All ways agree if any two of the types
are related, and if none of them but `Any` covers the rest.  Otherwise they do not: two unrelated types
that come first are joined to `Any`, also where a third would cover both.
-/

namespace BlFront

open List

namespace Ty

variable {L : Lineage} {types types' : List Ty} {a b m r r' : Ty}

/-- Types that are related to one another are joined to one of them. -/
theorem Joined.mem (h : Joined types r)
    (chain : ∀ x ∈ types, ∀ y ∈ types, x.related y = true) : r ∈ types := by
  induction h with
  | one a => exact mem_singleton_self a
  | both left right ihl ihr =>
    have inl := ihl fun x hx y hy => chain x (mem_append_left _ hx) y (mem_append_left _ hy)
    have inr := ihr fun x hx y hy => chain x (mem_append_right _ hx) y (mem_append_right _ hy)
    have near := chain _ (mem_append_left _ inl) _ (mem_append_right _ inr)
    rw [Ty.related, Bool.or_eq_true] at near
    unfold Ty.join
    split
    · exact mem_append_right _ inr
    · rw [if_pos (near.resolve_left (by assumption))]
      exact mem_append_left _ inl

/-- The types of returns, one behind the other, are joined the same way as those of elements. -/
theorem sequence_type (types : List Ty) (nonempty : types ≠ []) :
    (ReturnFlow.sequence (types.map fun type => ⟨some type, false⟩)).type = some (Types.joinAll types) := by
  have joined : ∀ (more : List Ty) (a : Ty), (ReturnFlow.sequenceFrom (some a)
      (more.map fun type => ⟨some type, false⟩)).type = some (more.foldl Ty.join a) := by
    intro more
    induction more with
    | nil => exact fun _ => rfl
    | cons b more ih => exact fun a => ih (a.join b)
  cases types with
  | nil => exact absurd rfl nonempty
  | cons a types => exact joined types a

/-! ### Ways that agree -/

theorem Joined.same_of_chain (follows : ∀ x ∈ types, x.Follows L) (perm : types'.Perm types)
    (chain : ∀ x ∈ types, ∀ y ∈ types, x.related y = true) (h : Joined types r)
    (h' : Joined types' r') : r.same r' = true := by
  have follows' : ∀ x ∈ types', x.Follows L := fun x mem => follows x (perm.mem_iff.mp mem)
  have mem := h.mem chain
  have mem' : r' ∈ types := perm.mem_iff.mp <| h'.mem fun x hx y hy =>
    chain x (perm.mem_iff.mp hx) y (perm.mem_iff.mp hy)
  exact same_of_assignable (follows r mem) (follows r' mem')
    (h'.covers follows' r (perm.mem_iff.mpr mem)) (h.covers follows r' mem')

theorem Joined.eq_any (follows : ∀ x ∈ types, x.Follows L)
    (top : ∀ m ∈ types, Covers types m → m = .any) (h : Joined types r) : r = .any :=
  h.mem_or.elim id fun mem => top r mem (h.covers follows)

/-! ### Ways that differ -/

theorem foldl_join_any (types : List Ty) : types.foldl Ty.join .any = .any := by
  induction types with
  | nil => rfl
  | cons a types ih =>
    have stays : Ty.any.join a = .any := by
      unfold Ty.join
      split
      · exact any_assignable.mp (by assumption)
      · exact if_pos a.assignable_any
    rwa [foldl_cons, stays]

/-- A type that covers all others stays, if it comes first. -/
theorem foldl_join_top (fm : m.Follows L) (fa : a.Follows L) (follows : ∀ x ∈ types, x.Follows L)
    (covers : Covers types m) (same : a.same m = true) : (types.foldl Ty.join a).same m = true := by
  induction types generalizing a with
  | nil => exact same
  | cons b types ih =>
    obtain ⟨fb, later⟩ := forall_mem_cons.mp follows
    obtain ⟨hb, rest⟩ := forall_mem_cons.mp covers
    have back := assignable_of_same _ (same_symm _ same)
    refine ih (fa.join fb) later rest ?_
    unfold Ty.join
    split
    · rename_i up
      exact same_of_assignable fb fm hb (assignable_trans_of_follows fm fa back up)
    · rw [if_pos (assignable_trans_of_follows fb fm hb back)]
      exact same

theorem exists_cons_perm {x : Ty} (mem : x ∈ types) : ∃ rest, (x :: rest).Perm types := by
  obtain ⟨front, back, rfl⟩ := append_of_mem mem
  exact ⟨front ++ back, perm_middle.symm⟩

/-- All orders of joining some types of a coherent family agree exactly if any two of the types are
related or none but `Any` covers the rest.  Then all groupings agree as well. -/
theorem joins_agree_iff {family : Set Ty} (coherent : CoherentFamily family)
    (inside : ∀ x ∈ types, x ∈ family) (nonempty : types ≠ []) :
    let alike := (∀ x ∈ types, ∀ y ∈ types, x.related y = true) ∨
      ∀ m ∈ types, Covers types m → m = .any
    ((∀ types', types'.Perm types → (Types.joinAll types).same (Types.joinAll types') = true) ↔ alike) ∧
      (alike → ∀ types' r r', types'.Perm types → Joined types r → Joined types' r' →
        r.same r' = true) ∧
      ∀ types', types'.Perm types → Joined types' (Types.joinAll types') ∧
        (ReturnFlow.sequence (types'.map fun type => ⟨some type, false⟩)).type =
          some (Types.joinAll types') := by
  intro alike
  have follows : ∀ x ∈ types, x.Follows coherent.lineage := fun x mem => coherent.follows (inside x mem)
  have grouped : alike → ∀ types' r r', types'.Perm types → Joined types r → Joined types' r' →
      r.same r' = true := by
    rintro (chain | top) types' r r' perm h h'
    · exact h.same_of_chain follows perm chain h'
    · have top' : ∀ m ∈ types', Covers types' m → m = .any := fun m mem covers =>
        top m (perm.mem_iff.mp mem) fun x hx => covers x (perm.mem_iff.mpr hx)
      rw [h.eq_any follows top, h'.eq_any (fun x mem => follows x (perm.mem_iff.mp mem)) top']
      rfl
  have filled : ∀ types', types'.Perm types → types' ≠ [] := by
    rintro _ perm rfl
    exact nonempty perm.symm.eq_nil
  refine ⟨⟨fun agree => ?_, fun alike types' perm => ?_⟩, grouped, fun types' perm => ?_⟩
  · by_contra unlike
    obtain ⟨apart, top⟩ := not_or.mp unlike
    push Not at apart top
    obtain ⟨x, hx, y, hy, unrelated⟩ := apart
    obtain ⟨m, hm, covers, proper⟩ := top
    rw [Ne, Ty.related, Bool.or_eq_true, not_or] at unrelated
    -- the one order starts with the type that covers all, the other with the two unrelated ones
    obtain ⟨others, first⟩ := exists_cons_perm hm
    have greatest : (Types.joinAll (m :: others)).same m = true :=
      foldl_join_top (follows m hm) (follows m hm)
        (fun z mem => follows z (first.mem_iff.mp (.tail _ mem)))
        (fun z mem => covers z (first.mem_iff.mp (.tail _ mem))) m.same_refl
    obtain ⟨others', second⟩ := exists_cons_perm hx
    have hy' : y ∈ others' := by
      refine (mem_cons.mp (second.mem_iff.mpr hy)).resolve_left fun same => unrelated.1 ?_
      exact same ▸ x.assignable_refl
    obtain ⟨rest, third⟩ := exists_cons_perm hy'
    have lost : Types.joinAll (x :: y :: rest) = .any := by
      rw [Types.joinAll, foldl_cons, Ty.join, if_neg unrelated.1, if_neg unrelated.2, foldl_join_any]
    have whole : (Types.joinAll types).same .any = true := lost ▸ agree _ ((third.cons x).trans second)
    have same := same_trans _ (same_symm _ whole) (same_trans _ (agree _ first) greatest)
    exact proper ((atom_same rfl).mp same)
  · exact grouped alike types' _ _ perm (joined_joinAll nonempty) (joined_joinAll (filled types' perm))
  · exact ⟨joined_joinAll (filled types' perm), sequence_type types' (filled types' perm)⟩

/-- A class, and two that extend it. -/
def base : Ty := .object ⟨⟨20⟩, "A", [], []⟩ []
def left : Ty := .object ⟨⟨21⟩, "B", [], []⟩ [⟨⟨20⟩, "A", [], []⟩]
def right : Ty := .object ⟨⟨22⟩, "C", [], []⟩ [⟨⟨20⟩, "A", [], []⟩]

theorem siblings_coherent : CoherentFamily {base, left, right} := by
  let Lined (a : Ty) : Prop := ∀ own supers, (Ty.object own supers).Occurs a →
    supers.map (·.symbol) = if own.symbol = ⟨20⟩ then [] else [⟨20⟩]
  have first : Lined base := by
    intro own supers inside
    cases inside with
    | here => rfl
    | field mem _ | method mem _ => cases mem
  have lined : ∀ a ∈ ({base, left, right} : Set Ty), Lined a := by
    rintro a (rfl | rfl | rfl) own supers inside
    · exact first own supers inside
    all_goals
      cases inside with
      | here => rfl
      | field mem _ | method mem _ => cases mem
      | superclass inside => exact first own supers inside
  intro a ha b hb own supers own' supers' inside inside' same
  rw [lined a ha own supers inside, lined b hb own' supers' inside', same]

theorem joins_agree_iff_chain : CoherentFamily {base, left, right} ∧
    ∀ types', types'.Perm [left, base, left] →
      (Types.joinAll [left, base, left]).same (Types.joinAll types') = true := by
  have inside : ∀ x ∈ [left, base, left], x ∈ ({base, left, right} : Set Ty) := by simp
  have chain : ∀ x ∈ [left, base, left], ∀ y ∈ [left, base, left], x.related y = true := by decide
  exact ⟨siblings_coherent, (joins_agree_iff siblings_coherent inside (by simp)).1.mpr (.inl chain)⟩

theorem siblings_joined_in_two_ways : CoherentFamily {base, left, right} ∧
    Types.joinAll [left, right, base] = .any ∧ Types.joinAll [left, base, right] = base :=
  ⟨siblings_coherent, rfl, rfl⟩

end Ty

end BlFront
