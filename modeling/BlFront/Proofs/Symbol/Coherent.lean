import BlFront.Proofs.Symbol.Closed
import BlFront.Proofs.Symbol.Order

/-!
# Coherent types

A type is coherent with a table if its structs and classes are declared there, and each class comes
with all of its superclasses.  On coherent types assignability is a preorder, so the joined type of
some types covers each of them.
-/

namespace BlFront

/-! ### Lines of classes -/

/-- A class and all of its superclasses, the nearest first. -/
def SymbolTable.Line (t : SymbolTable) : SymbolId → List SymbolId → Prop
  | id, [] => t.superclass? id = none
  | id, parent :: rest => t.superclass? id = some parent ∧ t.Line parent rest

namespace SymbolTable.Line

variable {t : SymbolTable} {id other : SymbolId} {line line' : List SymbolId}

theorem unique (h : t.Line id line) (h' : t.Line id line') : line = line' := by
  induction line generalizing id line' with
  | nil =>
    cases line' with
    | nil => rfl
    | cons parent rest => cases h.symm.trans h'.1
  | cons parent rest ih =>
    cases line' with
    | nil => simp [Line, h.1] at h'
    | cons parent' rest' =>
      obtain rfl : parent = parent' := Option.some.inj (h.1.symm.trans h'.1)
      rw [ih h.2 h'.2]

/-- The line of a superclass is the rest of the line. -/
theorem of_append {before after : List SymbolId} (h : t.Line id (before ++ other :: after)) :
    t.Line other after := by
  induction before generalizing id with
  | nil => exact h.2
  | cons next before ih => exact ih h.2

end SymbolTable.Line

/-- The superclasses that a table gives to classes. -/
def SymbolTable.lineage (t : SymbolTable) : Lineage := ⟨t.Line, Line.unique, Line.of_append⟩

/-! ### Types -/

mutual

/-- Besides what the table says, more may be asked of each class type with its superclasses. -/
def Ty.Coherent (t : SymbolTable) (G : ClassRow → List ClassRow → Prop := fun _ _ => True) :
    Ty → Prop
  | .array element => element.Coherent t G
  | .function params result => membersCoherent t G params ∧ result.Coherent t G
  | .struct symbol _ fields => t.hasSymbol symbol = true ∧ membersCoherent t G fields
  | .object ⟨symbol, name, fields, methods⟩ supers =>
    (t.hasKind (·.isClass) symbol = true ∧ t.Line symbol (supers.map (·.symbol))) ∧
      membersCoherent t G fields ∧ membersCoherent t G methods ∧
        G ⟨symbol, name, fields, methods⟩ supers ∧ rowsCoherent t G supers
  | _ => True

def membersCoherent (t : SymbolTable) (G : ClassRow → List ClassRow → Prop) : List Member → Prop
  | [] => True
  | ⟨_, type⟩ :: members => type.Coherent t G ∧ membersCoherent t G members

def rowsCoherent (t : SymbolTable) (G : ClassRow → List ClassRow → Prop) : List ClassRow → Prop
  | [] => True
  | ⟨symbol, name, fields, methods⟩ :: rows =>
    membersCoherent t G fields ∧ membersCoherent t G methods ∧
      G ⟨symbol, name, fields, methods⟩ rows ∧ rowsCoherent t G rows

end

variable {t : SymbolTable} {G : ClassRow → List ClassRow → Prop}

theorem membersCoherent_iff {members : List Member} :
    membersCoherent t G members ↔ ∀ m ∈ members, m.type.Coherent t G := by
  induction members with
  | nil => simp [membersCoherent]
  | cons m members ih =>
    obtain ⟨name, type⟩ := m
    simp [membersCoherent, ih]

theorem rowsCoherent_cons {row : ClassRow} {rows : List ClassRow} :
    rowsCoherent t G (row :: rows) ↔ membersCoherent t G row.fields ∧
      membersCoherent t G row.methods ∧ G row rows ∧ rowsCoherent t G rows := by
  obtain ⟨symbol, name, fields, methods⟩ := row
  rw [rowsCoherent]

theorem rowsCoherent_members {rows : List ClassRow} (h : rowsCoherent t G rows) :
    ∀ row ∈ rows, membersCoherent t G row.fields ∧ membersCoherent t G row.methods := by
  induction rows with
  | nil => simp
  | cons row rows ih =>
    obtain ⟨fields, methods, _, rest⟩ := rowsCoherent_cons.mp h
    exact List.forall_mem_cons.mpr ⟨⟨fields, methods⟩, ih rest⟩

theorem Ty.coherent_object {own : ClassRow} {supers : List ClassRow} :
    (Ty.object own supers).Coherent t G ↔
      t.hasKind (·.isClass) own.symbol = true ∧ t.Line own.symbol (supers.map (·.symbol)) ∧
        rowsCoherent t G (own :: supers) := by
  obtain ⟨symbol, name, fields, methods⟩ := own
  simp [Ty.Coherent, rowsCoherent, and_assoc]

/-! ### Members -/

theorem Member.lookup?_coherent {members : List Member} (h : membersCoherent t G members)
    {name : String} {type : Ty} (found : Member.lookup? name members = some type) :
    type.Coherent t G := by
  obtain ⟨m, hm, rfl⟩ := Option.map_eq_some_iff.mp found
  exact membersCoherent_iff.mp h m (List.mem_of_find?_eq_some hm)

theorem ClassRow.lookup?_coherent {rows : List ClassRow} {members : ClassRow → List Member}
    (h : ∀ row ∈ rows, membersCoherent t G (members row)) {name : String} {type : Ty}
    (found : ClassRow.lookup? members name rows = some type) : type.Coherent t G := by
  obtain ⟨row, hrow, hfound⟩ := List.exists_of_findSome?_eq_some found
  exact Member.lookup?_coherent (h row hrow) hfound

/-! ### Order -/

theorem Ty.Coherent.follows {a : Ty} (h : a.Coherent t G) : a.Follows t.lineage := by
  match a with
  | .array element =>
    have inner : element.Coherent t G := h
    exact inner.follows
  | .object own supers => exact (coherent_object.mp h).2.1
  | .function _ _ | .struct _ _ _ | .any | .boolean | .int | .float | .string | .unit => trivial

theorem Ty.assignable_trans {a b c : Ty} (ha : a.Coherent t G) (hb : b.Coherent t G)
    (h : a.assignable b = true) (h' : b.assignable c = true) : a.assignable c = true :=
  assignable_trans_of_follows ha.follows hb.follows h h'

theorem Ty.Coherent.join {a b : Ty} (ha : a.Coherent t G) (hb : b.Coherent t G) :
    (a.join b).Coherent t G := by
  rcases join_cases a b with same | same | same <;> rw [same]
  · trivial
  · exact ha
  · exact hb

theorem Types.joinAll_coherent {types : List Ty} (h : ∀ x ∈ types, x.Coherent t G) :
    (joinAll types).Coherent t G := by
  rcases joinAll_mem types with any | mem
  · rw [any]
    trivial
  · exact h _ mem

theorem Types.assignable_joinAll {types : List Ty} (h : ∀ x ∈ types, x.Coherent t G) :
    ∀ x ∈ types, x.assignable (joinAll types) = true := by
  cases types with
  | nil => simp
  | cons a types => exact Ty.assignable_foldl_join fun x hx => (h x hx).follows

end BlFront
