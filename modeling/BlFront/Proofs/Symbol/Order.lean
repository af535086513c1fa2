import Mathlib
import BlFront.Analysis.Types

/-!
# The order of types

Types are ordered by what may stand for what, up to sameness.  For classes this needs that a class
comes with the same superclasses wherever it is mentioned: then assignability is a partial order, and
the type that some types are joined to covers each of them.
-/

namespace BlFront

open List

/-! ### Sameness -/

namespace Ty

mutual

theorem same_refl (a : Ty) : a.same a = true := by
  match a with
  | .array element => exact element.same_refl
  | .function params result => simp [Ty.same, result.same_refl, sameParams_refl params]
  | .struct _ _ _ => simp [Ty.same]
  | .object _ _ => simp [Ty.same]
  | .any | .boolean | .int | .float | .string | .unit => rfl

theorem sameParams_refl (params : List Member) : sameParams params params = true := by
  match params with
  | [] => rfl
  | ⟨_, type⟩ :: params => simp [sameParams, type.same_refl, sameParams_refl params]

end

/-- A type without parts. -/
def isAtom : Ty → Bool
  | .any | .boolean | .int | .float | .string | .unit => true
  | _ => false

theorem same_atom {a b : Ty} (atom : b.isAtom = true) : a.same b = true ↔ a = b := by
  cases a <;> cases b <;> simp [Ty.same, isAtom] at *

theorem atom_same {a b : Ty} (atom : a.isAtom = true) : a.same b = true ↔ b = a := by
  cases a <;> cases b <;> simp [Ty.same, isAtom] at *

theorem array_same {x b : Ty} :
    (Ty.array x).same b = true ↔ ∃ y, b = .array y ∧ x.same y = true := by
  cases b <;> simp [Ty.same]

theorem function_same {ps : List Member} {x b : Ty} :
    (Ty.function ps x).same b = true ↔
      ∃ qs y, b = .function qs y ∧ x.same y = true ∧ sameParams ps qs = true := by
  cases b <;> simp [Ty.same]

theorem struct_same {s : SymbolId} {name : String} {fields : List Member} {b : Ty} :
    (Ty.struct s name fields).same b = true ↔ ∃ name' fields', b = .struct s name' fields' := by
  cases b <;> simp [Ty.same, eq_comm (a := s)]

theorem object_same {own : ClassRow} {supers : List ClassRow} {b : Ty} :
    (Ty.object own supers).same b = true ↔
      ∃ own' supers', b = .object own' supers' ∧ own.symbol = own'.symbol := by
  cases b <;> simp [Ty.same]

mutual

theorem same_symm (a : Ty) {b : Ty} (h : a.same b = true) : b.same a = true := by
  match a with
  | .array x =>
    obtain ⟨y, rfl, hxy⟩ := array_same.mp h
    exact array_same.mpr ⟨x, rfl, x.same_symm hxy⟩
  | .function ps x =>
    obtain ⟨qs, y, rfl, hxy, hpq⟩ := function_same.mp h
    exact function_same.mpr ⟨ps, x, rfl, x.same_symm hxy, sameParams_symm ps hpq⟩
  | .struct _ _ _ =>
    obtain ⟨_, _, rfl⟩ := struct_same.mp h
    exact struct_same.mpr ⟨_, _, rfl⟩
  | .object _ _ =>
    obtain ⟨_, _, rfl, same⟩ := object_same.mp h
    exact object_same.mpr ⟨_, _, rfl, same.symm⟩
  | .any | .boolean | .int | .float | .string | .unit =>
    rw [atom_same rfl] at h
    rw [h]
    rfl

theorem sameParams_symm (ps : List Member) {qs : List Member} (h : sameParams ps qs = true) :
    sameParams qs ps = true := by
  match ps, qs with
  | [], [] => rfl
  | ⟨_, x⟩ :: ps, ⟨_, y⟩ :: qs =>
    simp only [sameParams, Bool.and_eq_true] at h ⊢
    exact ⟨x.same_symm h.1, sameParams_symm ps h.2⟩

end

mutual

theorem same_trans (a : Ty) {b c : Ty} (h : a.same b = true) (h' : b.same c = true) :
    a.same c = true := by
  match a with
  | .array x =>
    obtain ⟨y, rfl, hxy⟩ := array_same.mp h
    obtain ⟨z, rfl, hyz⟩ := array_same.mp h'
    exact array_same.mpr ⟨z, rfl, x.same_trans hxy hyz⟩
  | .function ps x =>
    obtain ⟨qs, y, rfl, hxy, hpq⟩ := function_same.mp h
    obtain ⟨rs, z, rfl, hyz, hqr⟩ := function_same.mp h'
    exact function_same.mpr ⟨rs, z, rfl, x.same_trans hxy hyz, sameParams_trans ps hpq hqr⟩
  | .struct _ _ _ =>
    obtain ⟨_, _, rfl⟩ := struct_same.mp h
    exact struct_same.mpr (struct_same.mp h')
  | .object _ _ =>
    obtain ⟨_, _, rfl, same⟩ := object_same.mp h
    obtain ⟨_, _, rfl, same'⟩ := object_same.mp h'
    exact object_same.mpr ⟨_, _, rfl, same.trans same'⟩
  | .any | .boolean | .int | .float | .string | .unit =>
    rw [atom_same rfl] at h
    rwa [h] at h'

theorem sameParams_trans (ps : List Member) {qs rs : List Member}
    (h : sameParams ps qs = true) (h' : sameParams qs rs = true) : sameParams ps rs = true := by
  match ps, qs, rs with
  | [], [], _ => exact h'
  | ⟨_, x⟩ :: ps, ⟨_, y⟩ :: qs, ⟨_, z⟩ :: rs =>
    simp only [sameParams, Bool.and_eq_true] at h h' ⊢
    exact ⟨x.same_trans h.1 h'.1, sameParams_trans ps h.2 h'.2⟩

end

theorem same_equivalence : Equivalence fun a b : Ty => a.same b = true :=
  ⟨same_refl, fun h => same_symm _ h, fun h h' => same_trans _ h h'⟩

/-! ### Assignability -/

theorem array_assignable {x b : Ty} :
    (Ty.array x).assignable b = true ↔ b = .any ∨ ∃ y, b = .array y ∧ x.assignable y = true := by
  cases b <;> simp [Ty.assignable, Ty.same]

theorem object_assignable {own : ClassRow} {supers : List ClassRow} {b : Ty} :
    (Ty.object own supers).assignable b = true ↔ b = .any ∨ ∃ own' supers',
      b = .object own' supers' ∧ own'.symbol ∈ own.symbol :: supers.map (·.symbol) := by
  cases b <;> simp [Ty.assignable, Ty.same, eq_comm (a := own.symbol)]

/-- A type that is assignable to `Any` and to the same type only. -/
def isRigid : Ty → Bool
  | .array _ | .object _ _ => false
  | _ => true

theorem rigid_assignable {a b : Ty} (rigid : a.isRigid = true) :
    a.assignable b = true ↔ b = .any ∨ a.same b = true := by
  cases a <;> cases b <;> simp [Ty.assignable, Ty.same, isRigid] at *

theorem isRigid_of_same {a b : Ty} (h : a.same b = true) : a.isRigid = b.isRigid := by
  cases a <;> cases b <;> simp [Ty.same, isRigid] at *

theorem any_assignable {b : Ty} : Ty.any.assignable b = true ↔ b = .any := by
  cases b <;> simp [Ty.assignable, Ty.same]

theorem assignable_any (a : Ty) : a.assignable .any = true := by
  cases a <;> rfl

theorem assignable_of_same (a : Ty) {b : Ty} (h : a.same b = true) : a.assignable b = true := by
  match a with
  | .array x =>
    obtain ⟨y, rfl, hxy⟩ := array_same.mp h
    exact array_assignable.mpr (.inr ⟨y, rfl, x.assignable_of_same hxy⟩)
  | .object own supers =>
    obtain ⟨own', supers', rfl, same⟩ := object_same.mp h
    exact object_assignable.mpr (.inr ⟨own', supers', rfl, same ▸ mem_cons_self ..⟩)
  | .function _ _ | .struct _ _ _ | .any | .boolean | .int | .float | .string | .unit =>
    exact (rigid_assignable rfl).mpr (.inr h)

theorem assignable_refl (a : Ty) : a.assignable a = true := a.assignable_of_same a.same_refl

end Ty

/-! ### Lineages -/

/-- Which superclasses, the nearest first, a class may come with: always the same ones, and a
superclass comes with those behind it. -/
structure Lineage where
  Line : SymbolId → List SymbolId → Prop
  unique {id : SymbolId} {line line' : List SymbolId} : Line id line → Line id line' → line = line'
  rest {id other : SymbolId} {before after : List SymbolId} :
    Line id (before ++ other :: after) → Line other after

namespace Lineage

variable {L : Lineage} {id other : SymbolId} {line line' : List SymbolId}

/-- No class is among its own superclasses. -/
theorem not_mem (h : L.Line id line) : id ∉ line := by
  intro mem
  obtain ⟨before, after, same⟩ := append_of_mem mem
  rw [same] at h
  have lengths := congrArg List.length (L.unique h (L.rest h))
  rw [length_append, length_cons] at lengths
  omega

/-- The superclasses of a superclass are superclasses. -/
theorem subset (h : L.Line id line) (mem : other ∈ id :: line) (h' : L.Line other line') :
    line' ⊆ line := by
  rcases mem_cons.mp mem with rfl | mem
  · rw [L.unique h' h]
    exact List.Subset.refl _
  · obtain ⟨before, after, rfl⟩ := append_of_mem mem
    rw [L.unique h' (L.rest h)]
    exact subset_append_of_subset_right _ (subset_cons_self _ _)

end Lineage

/-- The class that a type is, or that an array at last holds, comes with its superclasses. -/
def Ty.Follows (L : Lineage) : Ty → Prop
  | .array element => element.Follows L
  | .object own supers => L.Line own.symbol (supers.map (·.symbol))
  | _ => True

namespace Ty

variable {L : Lineage}

theorem assignable_trans_of_follows {a b c : Ty} (ha : a.Follows L) (hb : b.Follows L)
    (h : a.assignable b = true) (h' : b.assignable c = true) : a.assignable c = true := by
  by_cases any : b = .any
  · rw [any, any_assignable] at h'
    exact h' ▸ a.assignable_any
  match a with
  | .array x =>
    obtain ⟨y, rfl, hxy⟩ := (array_assignable.mp h).resolve_left any
    rcases array_assignable.mp h' with rfl | ⟨z, rfl, hyz⟩
    · rfl
    · have hx : x.Follows L := ha
      have hy : y.Follows L := hb
      exact array_assignable.mpr (.inr ⟨z, rfl, assignable_trans_of_follows hx hy hxy hyz⟩)
  | .object own supers =>
    obtain ⟨own', supers', rfl, mem⟩ := (object_assignable.mp h).resolve_left any
    rcases object_assignable.mp h' with rfl | ⟨own'', supers'', rfl, mem'⟩
    · rfl
    · refine object_assignable.mpr (.inr ⟨own'', supers'', rfl, ?_⟩)
      rcases mem_cons.mp mem' with same | mem'
      · exact same ▸ mem
      · exact .tail _ (L.subset ha mem hb mem')
  | .function _ _ | .struct _ _ _ | .any | .boolean | .int | .float | .string | .unit =>
    have same := ((rigid_assignable rfl).mp h).resolve_left any
    rcases (rigid_assignable ((isRigid_of_same same).symm.trans rfl)).mp h' with rfl | same'
    · rfl
    · exact (rigid_assignable rfl).mpr (.inr (same_trans _ same same'))

/-- Two classes that may stand for one another are the same: otherwise each would be a superclass of
the other, and so of itself. -/
theorem same_of_assignable {a b : Ty} (ha : a.Follows L) (hb : b.Follows L)
    (h : a.assignable b = true) (h' : b.assignable a = true) : a.same b = true := by
  match a with
  | .array x =>
    rcases array_assignable.mp h with rfl | ⟨y, rfl, hxy⟩
    · cases any_assignable.mp h'
    · obtain ⟨_, same, hyx⟩ := (array_assignable.mp h').resolve_left (by simp)
      cases same
      have hx : x.Follows L := ha
      have hy : y.Follows L := hb
      exact array_same.mpr ⟨y, rfl, same_of_assignable hx hy hxy hyx⟩
  | .object own supers =>
    rcases object_assignable.mp h with rfl | ⟨own', supers', rfl, mem⟩
    · cases any_assignable.mp h'
    · obtain ⟨_, _, same, mem'⟩ := (object_assignable.mp h').resolve_left (by simp)
      cases same
      refine object_same.mpr ⟨own', supers', rfl, ?_⟩
      rcases mem_cons.mp mem' with same | mem'
      · exact same
      · exact absurd (L.subset ha mem hb mem') (L.not_mem ha)
  | .function _ _ | .struct _ _ _ | .any | .boolean | .int | .float | .string | .unit =>
    rcases (rigid_assignable rfl).mp h with rfl | same
    · rw [any_assignable.mp h']
      exact same_refl _
    · exact same

variable {a b : Ty}

theorem assignable_congr {a' b' : Ty} (ha : a.Follows L) (ha' : a'.Follows L) (hb : b.Follows L)
    (hb' : b'.Follows L) (same : a.same a' = true) (same' : b.same b' = true) :
    a.assignable b = a'.assignable b' := by
  rw [Bool.eq_iff_iff]
  constructor
  · intro h
    have below := assignable_trans_of_follows ha' ha (assignable_of_same _ (same_symm _ same)) h
    exact assignable_trans_of_follows ha' hb below (assignable_of_same _ same')
  · intro h
    have below := assignable_trans_of_follows ha ha' (assignable_of_same _ same) h
    exact assignable_trans_of_follows ha hb' below (assignable_of_same _ (same_symm _ same'))

/-! ### Joined types -/

theorem join_cases (a b : Ty) : a.join b = .any ∨ a.join b = a ∨ a.join b = b := by
  unfold Ty.join
  split
  · exact .inr (.inr rfl)
  · split
    · exact .inr (.inl rfl)
    · exact .inl rfl

theorem assignable_join_left (a b : Ty) : a.assignable (a.join b) = true := by
  unfold Ty.join
  split
  · assumption
  · split
    · exact a.assignable_refl
    · exact a.assignable_any

theorem assignable_join_right (a b : Ty) : b.assignable (a.join b) = true := by
  unfold Ty.join
  split
  · exact b.assignable_refl
  · split
    · assumption
    · exact b.assignable_any

theorem same_join_comm (ha : a.Follows L) (hb : b.Follows L) :
    (a.join b).same (b.join a) = true := by
  unfold Ty.join
  by_cases h : a.assignable b = true <;> by_cases h' : b.assignable a = true <;>
    simp only [h, h', Bool.false_eq_true, if_true, if_false, same_refl]
  exact same_of_assignable hb ha h' h

theorem Follows.join (ha : a.Follows L) (hb : b.Follows L) : (a.join b).Follows L := by
  rcases join_cases a b with same | same | same <;> rw [same]
  · trivial
  · exact ha
  · exact hb

/-- Some types are joined, two at a time, to a type. -/
inductive Joined : List Ty → Ty → Prop
  | one (a : Ty) : Joined [a] a
  | both {xs ys : List Ty} {a b : Ty} (left : Joined xs a) (right : Joined ys b) :
      Joined (xs ++ ys) (a.join b)

/-- All of the types may stand where one of them is expected. -/
def Covers (types : List Ty) (m : Ty) : Prop := ∀ x ∈ types, x.assignable m = true

section Joined

variable {types : List Ty} {r : Ty}

theorem Joined.mem_or (h : Joined types r) : r = .any ∨ r ∈ types := by
  induction h with
  | one a => exact .inr (mem_singleton_self a)
  | both left right ihl ihr =>
    rw [mem_append]
    rcases join_cases _ _ with same | same | same
    · exact .inl same
    · rw [same]
      exact ihl.imp_right .inl
    · rw [same]
      exact ihr.imp_right .inr

theorem Joined.follows (h : Joined types r) (follows : ∀ x ∈ types, x.Follows L) : r.Follows L := by
  rcases h.mem_or with rfl | mem
  · trivial
  · exact follows r mem

theorem Joined.covers (h : Joined types r) (follows : ∀ x ∈ types, x.Follows L) :
    Covers types r := by
  induction h with
  | one a => exact fun x mem => mem_singleton.mp mem ▸ a.assignable_refl
  | both left right ihl ihr =>
    obtain ⟨fl, fr⟩ := forall_mem_append.mp follows
    refine forall_mem_append.mpr ⟨fun x mem => ?_, fun x mem => ?_⟩
    · exact assignable_trans_of_follows (fl x mem) (left.follows fl) (ihl fl x mem)
        (assignable_join_left _ _)
    · exact assignable_trans_of_follows (fr x mem) (right.follows fr) (ihr fr x mem)
        (assignable_join_right _ _)

theorem Joined.foldl (h : Joined types a) (more : List Ty) :
    Joined (types ++ more) (more.foldl Ty.join a) := by
  induction more generalizing types a with
  | nil => rwa [append_nil]
  | cons b more ih =>
    rw [append_cons]
    exact ih (h.both (.one b))

theorem joined_joinAll (nonempty : types ≠ []) : Joined types (Types.joinAll types) := by
  cases types with
  | nil => exact absurd rfl nonempty
  | cons a types => exact (Joined.one a).foldl types

end Joined

/-- What types are joined to from the left covers each of them. -/
theorem assignable_foldl_join {types : List Ty} (follows : ∀ x ∈ a :: types, x.Follows L) :
    Covers (a :: types) (types.foldl Ty.join a) :=
  ((Joined.one a).foldl types).covers follows

theorem foldl_join_mem (types : List Ty) (a : Ty) :
    types.foldl Ty.join a = .any ∨ types.foldl Ty.join a ∈ a :: types :=
  ((Joined.one a).foldl types).mem_or

end Ty

/-- Types are joined to one of them or to `Any`. -/
theorem Types.joinAll_mem (types : List Ty) : joinAll types = .any ∨ joinAll types ∈ types := by
  cases types with
  | nil => exact .inl rfl
  | cons a types => exact Ty.foldl_join_mem types a

/-! ### Families of types -/

/-- One type occurs in another: as an element, in a signature, as a member or as a superclass. -/
inductive Ty.Occurs (inner : Ty) : Ty → Prop
  | here : Occurs inner inner
  | element {element : Ty} (inside : Occurs inner element) : Occurs inner (.array element)
  | param {params : List Member} {result : Ty} {m : Member} (mem : m ∈ params)
      (inside : Occurs inner m.type) : Occurs inner (.function params result)
  | result {params : List Member} {result : Ty} (inside : Occurs inner result) :
      Occurs inner (.function params result)
  | structField {symbol : SymbolId} {name : String} {fields : List Member} {m : Member}
      (mem : m ∈ fields) (inside : Occurs inner m.type) : Occurs inner (.struct symbol name fields)
  | field {own : ClassRow} {supers : List ClassRow} {m : Member} (mem : m ∈ own.fields)
      (inside : Occurs inner m.type) : Occurs inner (.object own supers)
  | method {own : ClassRow} {supers : List ClassRow} {m : Member} (mem : m ∈ own.methods)
      (inside : Occurs inner m.type) : Occurs inner (.object own supers)
  | superclass {own parent : ClassRow} {rest : List ClassRow}
      (inside : Occurs inner (.object parent rest)) : Occurs inner (.object own (parent :: rest))

namespace Ty

theorem Occurs.trans {a b c : Ty} (h : a.Occurs b) (h' : b.Occurs c) : a.Occurs c := by
  induction h' with
  | here => exact h
  | element _ ih => exact .element ih
  | param mem _ ih => exact .param mem ih
  | result _ ih => exact .result ih
  | structField mem _ ih => exact .structField mem ih
  | field mem _ ih => exact .field mem ih
  | method mem _ ih => exact .method mem ih
  | superclass _ ih => exact .superclass ih

theorem superclass_occurs (own parent : ClassRow) (before rest : List ClassRow) :
    (Ty.object parent rest).Occurs (.object own (before ++ parent :: rest)) := by
  induction before generalizing own with
  | nil => exact .superclass .here
  | cons next before ih => exact .superclass (ih next)

/-- A class that occurs twice in a family of types has the same superclasses both times. -/
def CoherentFamily (family : Set Ty) : Prop :=
  ∀ a ∈ family, ∀ b ∈ family, ∀ own supers own' supers',
    (Ty.object own supers).Occurs a → (Ty.object own' supers').Occurs b →
      own.symbol = own'.symbol → supers.map (·.symbol) = supers'.map (·.symbol)

namespace CoherentFamily

variable {family : Set Ty}

/-- The superclasses that classes of a coherent family have. -/
def lineage (coherent : CoherentFamily family) : Lineage where
  Line id line := ∃ a ∈ family, ∃ own supers, (Ty.object own supers).Occurs a ∧
    own.symbol = id ∧ supers.map (·.symbol) = line
  unique := by
    rintro id _ _ ⟨a, ha, own, supers, inside, rfl, rfl⟩ ⟨b, hb, own', supers', inside', same, rfl⟩
    exact coherent a ha b hb own supers own' supers' inside inside' same.symm
  rest := by
    rintro id other before after ⟨a, ha, own, supers, inside, rfl, line⟩
    obtain ⟨nearer, farther, rfl, _, tail⟩ := map_eq_append_iff.mp line
    obtain ⟨parent, rest, rfl, rfl, rfl⟩ := map_eq_cons_iff.mp tail
    exact ⟨a, ha, parent, rest, (superclass_occurs own parent nearer rest).trans inside, rfl, rfl⟩

theorem follows_of_occurs (coherent : CoherentFamily family) {a : Ty} (mem : a ∈ family) :
    ∀ inner : Ty, inner.Occurs a → inner.Follows coherent.lineage
  | .array element, inside =>
    follows_of_occurs coherent mem element ((Occurs.element .here).trans inside)
  | .object own supers, inside => ⟨a, mem, own, supers, inside, rfl, rfl⟩
  | .function _ _, _ | .struct _ _ _, _ | .any, _ | .boolean, _ | .int, _ | .float, _ | .string, _
  | .unit, _ => trivial

theorem follows (coherent : CoherentFamily family) {a : Ty} (mem : a ∈ family) :
    a.Follows coherent.lineage :=
  follows_of_occurs coherent mem a .here

end CoherentFamily

/-- Assignability orders a family of types up to sameness, `Any` is above all of them, and joins are
upper bounds. -/
structure Ordered (family : Set Ty) : Prop where
  same : Equivalence fun a b : Ty => a.same b = true
  refl : ∀ a ∈ family, a.assignable a = true
  trans : ∀ a ∈ family, ∀ b ∈ family, ∀ c ∈ family,
    a.assignable b = true → b.assignable c = true → a.assignable c = true
  antisymm : ∀ a ∈ family, ∀ b ∈ family,
    a.assignable b = true → b.assignable a = true → a.same b = true
  congr : ∀ a ∈ family, ∀ a' ∈ family, ∀ b ∈ family, ∀ b' ∈ family,
    a.same a' = true → b.same b' = true → a.assignable b = a'.assignable b'
  greatest : ∀ a ∈ family, a.assignable .any = true
  classes : ∀ own supers own' supers', (Ty.object own supers).assignable (.object own' supers') = true ↔
    own'.symbol ∈ (own :: supers).map (·.symbol)
  join_comm : ∀ a ∈ family, ∀ b ∈ family, (a.join b).same (b.join a) = true
  join_above : ∀ a ∈ family, ∀ b ∈ family,
    a.assignable (a.join b) = true ∧ b.assignable (a.join b) = true
  /-- Types that are joined from the left. -/
  joined : ∀ a types, (∀ x ∈ a :: types, x ∈ family) →
    (∀ x ∈ a :: types, x.assignable (types.foldl Ty.join a) = true) ∧
      (types.foldl Ty.join a = .any ∨ types.foldl Ty.join a ∈ a :: types)

/-- Assignability is an order on every coherent family of types. -/
theorem assignable_orders_coherent_family {family : Set Ty} (coherent : CoherentFamily family) :
    Ordered family where
  same := same_equivalence
  refl a _ := a.assignable_refl
  trans a ha b hb _ _ := assignable_trans_of_follows (coherent.follows ha) (coherent.follows hb)
  antisymm a ha b hb := same_of_assignable (coherent.follows ha) (coherent.follows hb)
  congr a ha a' ha' b hb b' hb' := assignable_congr (coherent.follows ha) (coherent.follows ha')
    (coherent.follows hb) (coherent.follows hb')
  greatest a _ := a.assignable_any
  classes own supers own' supers' := by simp [object_assignable]
  join_comm a ha b hb := same_join_comm (coherent.follows ha) (coherent.follows hb)
  join_above a _ b _ := ⟨assignable_join_left a b, assignable_join_right a b⟩
  joined a types mem :=
    ⟨assignable_foldl_join fun x hx => coherent.follows (mem x hx), foldl_join_mem types a⟩

/-- A class, one that extends and mentions it, and types that are made of both. -/
def shapes : Set Ty :=
  let shape : ClassRow := ⟨⟨20⟩, "Shape", [⟨"name", .string⟩], []⟩
  let square : ClassRow := ⟨⟨21⟩, "Square", [⟨"inner", .object shape []⟩], []⟩
  {.object shape [], .object square [shape], .array (.object square [shape]),
    .function [⟨"of", .object square [shape]⟩] (.array (.object shape []))}

theorem assignable_orders_coherent_family_shapes : CoherentFamily shapes ∧ Ordered shapes := by
  -- the superclasses of each class, looked at from the inside out
  let Lined (a : Ty) : Prop := ∀ own supers, (Ty.object own supers).Occurs a →
    supers.map (·.symbol) = if own.symbol = ⟨20⟩ then [] else [⟨20⟩]
  have shape : Lined (.object ⟨⟨20⟩, "Shape", [⟨"name", .string⟩], []⟩ []) := by
    intro own supers inside
    cases inside with
    | here => rfl
    | field mem inside => cases mem_singleton.mp mem; cases inside
    | method mem _ => cases mem
  have square : Lined (.object ⟨⟨21⟩, "Square", [⟨"inner", .object ⟨⟨20⟩, "Shape",
      [⟨"name", .string⟩], []⟩ []⟩], []⟩ [⟨⟨20⟩, "Shape", [⟨"name", .string⟩], []⟩]) := by
    intro own supers inside
    cases inside with
    | here => rfl
    | field mem inside => cases mem_singleton.mp mem; exact shape own supers inside
    | method mem _ => cases mem
    | superclass inside => exact shape own supers inside
  have lined : ∀ a ∈ shapes, Lined a := by
    rintro a (rfl | rfl | rfl | rfl) own supers inside
    · exact shape own supers inside
    · exact square own supers inside
    · cases inside with
      | element inside => exact square own supers inside
    · cases inside with
      | param mem inside => cases mem_singleton.mp mem; exact square own supers inside
      | result inside =>
        cases inside with
        | element inside => exact shape own supers inside
  have coherent : CoherentFamily shapes := by
    intro a ha b hb own supers own' supers' inside inside' same
    rw [lined a ha own supers inside, lined b hb own' supers' inside', same]
  exact ⟨coherent, assignable_orders_coherent_family coherent⟩

end Ty

end BlFront
