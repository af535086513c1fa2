import BlFront.Attribute
import BlFront.Proofs.Syntax.Tours
import Mathlib.Data.List.Nodup
import Mathlib.Data.List.Pairwise
import Mathlib.Data.List.Flatten

/-!
# Identities of nodes

In a well numbered unit no two nodes have the same identity.  Attributes that belong to different
parts are then different, and no symbol is given a type by two parts.
-/

namespace BlFront

open List

theorem sublist_filterMap {α β γ : Type} {f : α → Option β} {g : α → Option γ} {h : γ → β}
    (agree : ∀ a c, g a = some c → f a = some (h c)) (l : List α) :
    ((l.filterMap g).map h).Sublist (l.filterMap f) := by
  induction l with
  | nil => exact .slnil
  | cons a l ih =>
    cases hg : g a with
    | none =>
      rw [filterMap_cons_none hg]
      exact ih.trans ((sublist_cons_self a l).filterMap f)
    | some c =>
      rw [filterMap_cons_some hg, filterMap_cons_some (agree a c hg)]
      exact ih.cons_cons _

/-- The identities of all nodes of a unit. -/
def CompilationUnit.ids (unit : CompilationUnit) : List NodeId :=
  unit.tag.id :: unit.entered.filterMap Part.id?

def CompilationUnit.WellNumbered (unit : CompilationUnit) : Prop := unit.ids.Nodup

/-- The attributes with some names on the node of a part. -/
def Part.attrs (part : Part) (names : List AttrName) : List Attribute :=
  part.id?.toList.flatMap fun n => names.map fun name => name.of n

theorem Part.mem_attrs {part : Part} {names : List AttrName} {attr : Attribute} :
    attr ∈ part.attrs names ↔
      ∃ n, part.id? = some n ∧ attr.owner = .node n ∧ attr.name ∈ names := by
  obtain ⟨owner, name⟩ := attr
  simp only [attrs, AttrName.of, mem_flatMap, Option.mem_toList, mem_map,
    Attribute.mk.injEq]
  constructor
  · rintro ⟨n, hn, _, hname, rfl, rfl⟩
    exact ⟨n, hn, rfl, hname⟩
  · rintro ⟨n, hn, rfl, hname⟩
    exact ⟨n, hn, name, hname, rfl, rfl⟩

/-- Parts with different identities have different attributes. -/
theorem nodup_flatMap_attrs {parts : List Part} (distinct : (parts.filterMap Part.id?).Nodup)
    {names : Part → List AttrName} (each : ∀ p, (names p).Nodup) :
    (parts.flatMap fun p => p.attrs (names p)).Nodup := by
  induction parts with
  | nil => exact nodup_nil
  | cons p parts ih =>
    have rest : (parts.filterMap Part.id?).Nodup :=
      distinct.sublist ((sublist_cons_self p parts).filterMap _)
    rw [flatMap_cons, nodup_append]
    refine ⟨?_, ih rest, ?_⟩
    · cases hn : p.id? with
      | none => simp [Part.attrs, hn]
      | some n =>
        have inj : Function.Injective fun name : AttrName => name.of (.node n) :=
          fun a b h => congrArg Attribute.name h
        simpa [Part.attrs, hn] using (each p).map inj
    · rintro a ha b hb rfl
      obtain ⟨q, hq, hb⟩ := mem_flatMap.mp hb
      obtain ⟨n, hn, hown, _⟩ := Part.mem_attrs.mp ha
      obtain ⟨m, hm, hown', _⟩ := Part.mem_attrs.mp hb
      have same : n = m := Owner.node.inj (hown.symm.trans hown')
      rw [filterMap_cons_some hn, nodup_cons] at distinct
      exact distinct.1 (mem_filterMap.mpr ⟨q, hq, same ▸ hm⟩)

/-- The node whose symbol gets its type from a part. -/
def Part.declared? : Part → Option NodeId
  | .function decl => some decl.tag.id
  | .param decl => some decl.tag.id
  | .structDecl decl => some decl.tag.id
  | .classDecl decl => some decl.tag.id
  | .field decl => some decl.tag.id
  | .varDecl decl => match decl.type with
      | some _ => none
      | none => some decl.tag.id
  | .typed decl _ => some decl.tag.id
  | _ => none

/-- The variable that an annotation stands for. -/
private def Branch.annotated : Branch → List NodeId
  | .typed decl _ => [decl.tag.id]
  | _ => []

private abbrev Branch.parts (b : Branch) : List Part := b.tour.filterMap Visit.entered?

/-- An annotated variable counts where its annotation is entered, which is right behind it. -/
theorem Branch.declared_sublist (b : Branch) :
    (b.parts.filterMap Part.declared?).Sublist (b.annotated ++ b.parts.filterMap Part.id?) := by
  induction b using Branch.induction with
  | step b ih =>
    have parts : b.parts = b.part :: b.inside.flatMap Branch.parts := by
      rw [Branch.parts, b.tour_eq, entered_around, filterMap_flatMap]
    rw [parts]
    by_cases told : ∃ decl written, .typed decl written ∈ b.inside
    · obtain ⟨decl, written, mem⟩ := told
      obtain ⟨rfl, told⟩ := typed_mem_inside mem
      have typed := ih _ mem
      have init := ih (.expr decl.initializer (some ⟨written.id, 0⟩)) (by simp [inside, Stmt.inside, told])
      simpa [inside, Stmt.inside, told, part, Stmt.part, Part.declared?, Part.id?, annotated] using
        typed.append init
    · have within : ((b.inside.flatMap Branch.parts).filterMap Part.declared?).Sublist
          ((b.inside.flatMap Branch.parts).filterMap Part.id?) := by
        rw [filterMap_flatMap, filterMap_flatMap]
        refine List.Sublist.flatMap_right _ fun c mem => ?_
        have same := ih c mem
        cases c with
        | typed decl written => exact absurd ⟨decl, written, mem⟩ told
        | _ => exact same
      have first : ([b.part].filterMap Part.declared?).Sublist
          (b.annotated ++ [b.part].filterMap Part.id?) := by
        cases b with
        | stmt s =>
          cases s with
          | varDecl decl => cases type : decl.type <;> simp [part, Stmt.part, Part.declared?, Part.id?, type]
          | _ => simp [part, Stmt.part, Part.declared?, Part.id?]
        | _ => simp [part, annotated, Part.declared?, Part.id?]
      rw [← singleton_append, filterMap_append, filterMap_append, ← append_assoc]
      exact first.append within

namespace CompilationUnit.WellNumbered

variable {unit : CompilationUnit}

theorem parts (h : unit.WellNumbered) : (unit.entered.filterMap Part.id?).Nodup :=
  (nodup_cons.mp h).2

theorem unit_apart (h : unit.WellNumbered) {part : Part} (hp : part ∈ unit.entered) :
    part.id? ≠ some unit.tag.id :=
  fun he => (nodup_cons.mp h).1 (mem_filterMap.mpr ⟨part, hp, he⟩)

/-- A part and what is around it are told by its identity. -/
theorem unique_site (h : unit.WellNumbered) {x y : Part × List Part} (hx : x ∈ unit.sites)
    (hy : y ∈ unit.sites) {n : NodeId} (hn : x.1.id? = some n) (hm : y.1.id? = some n) : x = y := by
  have distinct := h.parts
  rw [← unit.map_fst_sites, filterMap_map, List.Nodup, pairwise_filterMap] at distinct
  have symmetric : Std.Symm fun a a' : Part × List Part => ∀ b, (Part.id? ∘ Prod.fst) a = some b →
      ∀ b', (Part.id? ∘ Prod.fst) a' = some b' → b ≠ b' :=
    ⟨fun a a' apart b hb b' hb' same => apart b' hb' b hb same.symm⟩
  by_contra other
  exact distinct.forall hx hy other n hn n hm rfl

theorem unique (h : unit.WellNumbered) {p q : Part} (hp : p ∈ unit.entered) (hq : q ∈ unit.entered)
    {n : NodeId} (hn : p.id? = some n) (hm : q.id? = some n) : p = q := by
  obtain ⟨around, hp⟩ := exists_site hp
  obtain ⟨around', hq⟩ := exists_site hq
  exact congrArg Prod.fst (h.unique_site hp hq hn hm)

theorem left (h : unit.WellNumbered) : (unit.left.filterMap Part.id?).Nodup :=
  (unit.left_perm_entered.filterMap _).nodup_iff.mpr h.parts

theorem declared (h : unit.WellNumbered) : (unit.left.filterMap Part.declared?).Nodup := by
  rw [(unit.left_perm_entered.filterMap _).nodup_iff]
  refine h.parts.sublist ?_
  rw [unit.entered_eq, unit.tour_eq, filterMap_flatMap, filterMap_flatMap,
    filterMap_flatMap]
  exact List.Sublist.flatMap_right _ fun s _ => Branch.declared_sublist (.stmt s)

end CompilationUnit.WellNumbered

end BlFront
