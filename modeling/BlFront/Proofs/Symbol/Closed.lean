import BlFront.Symbol.Presence
import Mathlib

/-!
# Closed tables

In a closed table every identity that it holds names something in it, and a scope is younger than
the scope around it.  Then every question about what is in the table has an answer.  Declarations
keep a table closed and change nothing about the symbols and scopes that are there, but for the
names declared in a scope.
-/

namespace BlFront.SymbolTable

open List

variable {fuel : Nat} {s : Scope} {name : String} {id : SymbolId} {wanted : SymbolKind → Bool}

/-- A table that is closed but for the owners of scopes, which are below a bound. -/
structure ClosedBelow (t : SymbolTable) (bound : Nat) : Prop where
  parent_lt : ∀ {id s p}, t.scope? id = some s → s.parent = some p → p.index < id.index
  owner_lt : ∀ {id s o}, t.scope? id = some s → s.kind = .membersOf o → o.index < bound
  declared : ∀ {id s}, t.scope? id = some s → ∀ e ∈ s.declarations, t.hasSymbol e.2 = true
  scope : ∀ {id s}, t.symbol? id = some s → t.hasScope s.scope = true
  members : ∀ {id s m}, t.symbol? id = some s → s.kind.members? = some m → t.hasScope m = true

abbrev Closed (t : SymbolTable) : Prop := t.ClosedBelow t.symbols.length

variable {t t' t'' : SymbolTable}

theorem hasScope_iff {id : ScopeId} : t.hasScope id = true ↔ id.index < t.scopes.length := by
  simp [hasScope, scope?]

theorem hasSymbol_iff : t.hasSymbol id = true ↔ id.index < t.symbols.length := by
  simp [hasSymbol, symbol?]

theorem hasScope_of_scope? {id : ScopeId} (h : t.scope? id = some s) : t.hasScope id = true := by
  simp [hasScope, h]

theorem hasSymbol_of_symbol? {s : Symbol} (h : t.symbol? id = some s) : t.hasSymbol id = true := by
  simp [hasSymbol, h]

theorem hasKind_iff :
    t.hasKind wanted id = true ↔ ∃ s, t.symbol? id = some s ∧ wanted s.kind = true := by
  simp only [hasKind, kind?]
  cases t.symbol? id <;> simp

theorem hasKind_imp {wider : SymbolKind → Bool} (h : t.hasKind wanted id = true)
    (imp : ∀ kind, wanted kind = true → wider kind = true) : t.hasKind wider id = true := by
  obtain ⟨s, hs, hk⟩ := hasKind_iff.mp h
  exact hasKind_iff.mpr ⟨s, hs, imp _ hk⟩

theorem hasSymbol_of_hasKind (h : t.hasKind wanted id = true) : t.hasSymbol id = true := by
  obtain ⟨s, hs, _⟩ := hasKind_iff.mp h
  exact hasSymbol_of_symbol? hs

variable {m : OrderedMap String SymbolId}

theorem mem_of_get?_declarations (h : m.get? name = some id) :
    ∃ e ∈ m, e.2 = id := by
  induction m with
  | nil => cases h
  | cons e m ih =>
    obtain ⟨k, v⟩ := e
    simp only [OrderedMap.get?] at h
    split at h
    · exact ⟨(k, v), by simp, Option.some.inj h⟩
    · obtain ⟨e, he, heq⟩ := ih h
      exact ⟨e, by simp [he], heq⟩

/-! ### Scopes around a scope -/

variable {scope : ScopeId}

namespace Closed

theorem mem_chainFrom {id : ScopeId} (h : s ∈ t.chainFrom fuel id) :
    ∃ id', t.scope? id' = some s := by
  induction fuel generalizing id with
  | zero => cases h
  | succ fuel ih =>
    rw [chainFrom] at h
    cases hs : t.scope? id with
    | none =>
      rw [hs] at h
      cases h
    | some s' =>
      rw [hs] at h
      rcases mem_cons.mp h with rfl | h
      · exact ⟨id, hs⟩
      · cases hp : s'.parent with
        | none =>
          rw [hp] at h
          cases h
        | some p =>
          rw [hp] at h
          exact ih h

theorem mem_enclosing {id : ScopeId} (h : s ∈ t.enclosing id) : ∃ id', t.scope? id' = some s :=
  mem_chainFrom h

theorem chainFrom_eq_cons (h : t.Closed) {id up : ScopeId} (held : t.scope? id = some s)
    (parent : s.parent = some up) (enough : id.index < fuel) :
    ∃ fuel', up.index < fuel' ∧ t.chainFrom fuel id = s :: t.chainFrom fuel' up := by
  have older := h.parent_lt held parent
  cases fuel with
  | zero => omega
  | succ fuel => exact ⟨fuel, by omega, by simp [chainFrom, held, parent]⟩

/-- The chain of scopes ends with one that stands in no other. -/
theorem chainFrom_getLast? (h : t.Closed) {id : ScopeId} (present : t.hasScope id = true)
    (enough : id.index < fuel) :
    ∃ s, (t.chainFrom fuel id).getLast? = some s ∧ s.parent = none := by
  induction fuel generalizing id with
  | zero => omega
  | succ fuel ih =>
    obtain ⟨s, hs⟩ := Option.isSome_iff_exists.mp present
    cases hp : s.parent with
    | none => exact ⟨s, by simp [chainFrom, hs, hp], hp⟩
    | some p =>
      have older := h.parent_lt hs hp
      have here := hasScope_iff.mp present
      obtain ⟨last, hlast, hroot⟩ := ih (hasScope_iff.mpr (Nat.lt_trans older here)) (by omega)
      refine ⟨last, ?_, hroot⟩
      simp only [chainFrom, hs, hp, List.getLast?_cons, hlast]
      rfl

theorem isRooted (h : t.Closed) {id : ScopeId} (present : t.hasScope id = true) :
    t.isRooted id = true := by
  obtain ⟨s, hs, hroot⟩ := h.chainFrom_getLast? present (hasScope_iff.mp present)
  simp [SymbolTable.isRooted, enclosing, hs, hroot]

theorem hasOwner (h : t.Closed) {id : ScopeId} (hs : t.scope? id = some s) :
    t.hasOwner s = true := by
  unfold SymbolTable.hasOwner
  split
  · next o ho => exact hasSymbol_iff.mpr (h.owner_lt hs ho)
  · rfl

/-! ### Questions -/

theorem searchEnds (h : t.Closed) {id : ScopeId} (present : t.hasScope id = true)
    (stop : Scope → Bool) : t.searchEnds stop id = true := by
  simp [SymbolTable.searchEnds, h.isRooted present]

theorem canLookup (h : t.Closed) {id : ScopeId} (present : t.hasScope id = true) (name : String) :
    t.canLookup id name = true :=
  h.searchEnds present _

theorem canFindOwner (h : t.Closed) {id : ScopeId} (present : t.hasScope id = true)
    (wanted : SymbolKind → Bool) : t.canFindOwner wanted id = true := by
  rw [SymbolTable.canFindOwner, h.searchEnds present, Bool.true_and, all_eq_true]
  intro s hs
  obtain ⟨id', hid'⟩ := mem_enclosing ((takeWhile_sublist _).subset hs)
  exact h.hasOwner hid'

theorem canDeclareFunction (h : t.Closed) {id : ScopeId} (present : t.hasScope id = true) :
    t.canDeclareFunction id = true := by
  obtain ⟨s, hs⟩ := Option.isSome_iff_exists.mp present
  simp [SymbolTable.canDeclareFunction, hs, h.hasOwner hs]

theorem canQualify (h : t.Closed) (present : t.hasSymbol id = true) : t.canQualify id = true := by
  obtain ⟨s, hs⟩ := Option.isSome_iff_exists.mp present
  have owners : (t.enclosing s.scope).all t.hasOwner = true := by
    rw [all_eq_true]
    intro s' hs'
    obtain ⟨id', hid'⟩ := mem_enclosing hs'
    exact h.hasOwner hid'
  simp [SymbolTable.canQualify, hs, h.isRooted (h.scope hs), owners]

theorem canInherit (h : t.Closed) (present : t.hasSymbol id = true) : t.canInherit id = true := by
  obtain ⟨s, hs⟩ := Option.isSome_iff_exists.mp present
  simp only [SymbolTable.canInherit, hs, Option.any_some]
  cases t.superclassName? id with
  | none => rfl
  | some name => exact h.canLookup (h.scope hs) name

theorem lookup? (h : t.Closed) (found : t.lookup? scope name = some id) :
    t.hasSymbol id = true := by
  obtain ⟨s, hs, hget⟩ := exists_of_findSome?_eq_some found
  obtain ⟨id', hid'⟩ := mem_enclosing hs
  obtain ⟨e, he, rfl⟩ := mem_of_get?_declarations hget
  exact h.declared hid' e he

end Closed

theorem superclass?_isClass {parent : SymbolId} (h : t.superclass? id = some parent) :
    t.hasKind (·.isClass) parent = true := by
  simp only [superclass?, Option.bind_eq_bind, Option.bind_eq_some_iff, Option.guard_eq_some'] at h
  obtain ⟨name, _, symbol, _, found, _, _, isClass, same⟩ := h
  cases same
  exact isClass

theorem mem_ancestorsFrom {seen : List SymbolId} {a : SymbolId} (present : t.hasSymbol id = true)
    (h : a ∈ t.ancestorsFrom fuel seen id) : t.hasSymbol a = true := by
  induction fuel generalizing seen id with
  | zero =>
    rw [ancestorsFrom, mem_singleton] at h
    exact h ▸ present
  | succ fuel ih =>
    rw [ancestorsFrom] at h
    split at h
    · rw [mem_singleton.mp h]
      exact present
    · next parent hp =>
        split at h
        · rw [mem_singleton.mp h]
          exact present
        · rcases mem_cons.mp h with rfl | h
          · exact present
          · exact ih (hasSymbol_of_hasKind (superclass?_isClass hp)) h

theorem Closed.canTrace (h : t.Closed) (present : t.hasSymbol id = true) :
    t.canTrace id = true := by
  rw [SymbolTable.canTrace, all_eq_true]
  intro a ha
  exact h.canInherit (mem_ancestorsFrom present ha)

theorem findMember?_hasKind {owners : List SymbolId}
    (found : t.findMember? owners wanted name = some id) : t.hasKind wanted id = true := by
  obtain ⟨owner, _, hf⟩ := exists_of_findSome?_eq_some found
  simp only [Option.bind_eq_bind, Option.bind_eq_some_iff, Option.guard_eq_some'] at hf
  obtain ⟨scope, _, found, _, _, isWanted, same⟩ := hf
  cases same
  exact isWanted

/-! ### Growth -/

/-- Everything that was in a table still is, but more names may be declared in a scope. -/
structure Grows (t t' : SymbolTable) : Prop where
  symbols : t.symbols <+: t'.symbols
  scopes : ∀ {id s}, t.scope? id = some s →
    ∃ s', t'.scope? id = some s' ∧ s'.kind = s.kind ∧ s'.parent = s.parent

namespace Grows

theorem refl (t : SymbolTable) : t.Grows t := ⟨prefix_refl _, fun h => ⟨_, h, rfl, rfl⟩⟩

theorem trans (h : t.Grows t') (h' : t'.Grows t'') : t.Grows t'' where
  symbols := h.symbols.trans h'.symbols
  scopes hs := by
    obtain ⟨s', hs', hk, hp⟩ := h.scopes hs
    obtain ⟨s'', hs'', hk', hp'⟩ := h'.scopes hs'
    exact ⟨s'', hs'', hk'.trans hk, hp'.trans hp⟩

theorem symbol? (h : t.Grows t') {s : Symbol} (hs : t.symbol? id = some s) :
    t'.symbol? id = some s := by
  obtain ⟨more, hmore⟩ := h.symbols
  have inside : id.index < t.symbols.length := (List.getElem?_eq_some_iff.mp hs).choose
  rw [SymbolTable.symbol?, ← hmore, List.getElem?_append_left inside]
  exact hs

theorem hasSymbol (h : t.Grows t') (hs : t.hasSymbol id = true) : t'.hasSymbol id = true := by
  obtain ⟨s, hs⟩ := Option.isSome_iff_exists.mp hs
  exact hasSymbol_of_symbol? (h.symbol? hs)

theorem hasScope (h : t.Grows t') {id : ScopeId} (hs : t.hasScope id = true) :
    t'.hasScope id = true := by
  obtain ⟨s, hs⟩ := Option.isSome_iff_exists.mp hs
  obtain ⟨s', hs', _⟩ := h.scopes hs
  exact hasScope_of_scope? hs'

/-- The kind of a symbol is settled when it is declared. -/
theorem hasKind_eq (h : t.Grows t') (hs : t.hasSymbol id = true) (wanted : SymbolKind → Bool) :
    t'.hasKind wanted id = t.hasKind wanted id := by
  obtain ⟨s, hs⟩ := Option.isSome_iff_exists.mp hs
  simp [hasKind, kind?, hs, h.symbol? hs]

theorem hasKind (h : t.Grows t') (hk : t.hasKind wanted id = true) : t'.hasKind wanted id = true :=
  (h.hasKind_eq (hasSymbol_of_hasKind hk) wanted).trans hk

end Grows

/-- The members of a symbol in a scope have a scope of their own inside it. -/
def Owns (t : SymbolTable) (id : SymbolId) (scope members : ScopeId) : Prop :=
  ∃ s, t.scope? members = some s ∧ s.kind = .membersOf id ∧ s.parent = some scope

theorem Owns.grow {members : ScopeId} (h : t.Owns id scope members) (grows : t.Grows t') :
    t'.Owns id scope members := by
  obtain ⟨s, held, kind, parent⟩ := h
  obtain ⟨s', held', same, same'⟩ := grows.scopes held
  exact ⟨s', held', same.trans kind, same'.trans parent⟩

/-! ### New scopes -/

theorem getElem?_concat {α : Type} (l : List α) (a : α) (i : Nat) :
    (l ++ [a])[i]? = if i = l.length then some a else l[i]? := by
  rcases Nat.lt_trichotomy i l.length with h | h | h
  · rw [List.getElem?_append_left h, if_neg (Nat.ne_of_lt h)]
  · simp [h]
  · rw [if_neg (Nat.ne_of_gt h), List.getElem?_eq_none (Nat.le_of_lt h), List.getElem?_eq_none]
    exact length_append ▸ h

theorem scope?_pushScope (parent : Option ScopeId) (kind : ScopeKind) (id : ScopeId) :
    (t.pushScope parent kind).2.scope? id =
      if id = t.nextScope then some ⟨kind, parent, []⟩ else t.scope? id := by
  obtain ⟨i⟩ := id
  simp only [pushScope, scope?, nextScope, getElem?_concat, ScopeId.mk.injEq]

theorem scope?_nextScope : t.scope? t.nextScope = none := by
  simp [scope?, nextScope]

theorem pushScope_grows (parent : Option ScopeId) (kind : ScopeKind) :
    t.Grows (t.pushScope parent kind).2 where
  symbols := prefix_refl _
  scopes {id s} hs := by
    have old : id ≠ t.nextScope := by
      intro he
      rw [he, scope?_nextScope] at hs
      cases hs
    exact ⟨s, by rw [scope?_pushScope, if_neg old, hs], rfl, rfl⟩

/-- A scope may be added inside one that is there, ahead of its owner. -/
theorem Closed.pushScope (h : t.Closed) {parent : Option ScopeId} {kind : ScopeKind} {bound : Nat}
    (present : ∀ p, parent = some p → t.hasScope p = true) (le : t.symbols.length ≤ bound)
    (owner_lt : ∀ o, kind = .membersOf o → o.index < bound) :
    (t.pushScope parent kind).2.ClosedBelow bound := by
  have grows := pushScope_grows (t := t) parent kind
  -- the new scope declares nothing, and the others are as they were
  have origin : ∀ {id s}, (t.pushScope parent kind).2.scope? id = some s →
      id = t.nextScope ∧ s = ⟨kind, parent, []⟩ ∨ t.scope? id = some s := by
    intro id s hs
    rw [scope?_pushScope] at hs
    split at hs
    · next he => exact .inl ⟨he, (Option.some.inj hs).symm⟩
    · exact .inr hs
  refine ⟨?_, ?_, ?_, fun hs => grows.hasScope (h.scope hs),
    fun hs hm => grows.hasScope (h.members hs hm)⟩
  · intro id s p hs hp
    rcases origin hs with ⟨rfl, rfl⟩ | hs
    · exact hasScope_iff.mp (present p hp)
    · exact h.parent_lt hs hp
  · intro id s o hs ho
    rcases origin hs with ⟨_, rfl⟩ | hs
    · exact owner_lt o ho
    · exact Nat.lt_of_lt_of_le (h.owner_lt hs ho) le
  · intro id s hs e he
    rcases origin hs with ⟨_, rfl⟩ | hs
    · cases he
    · exact h.declared hs e he

/-! ### New symbols -/

theorem symbol?_declare (scope : ScopeId) (name : String) (kind : SymbolKind) (span : Option Span)
    (id : SymbolId) : (t.declare scope name kind span).2.symbol? id =
      if id = t.nextSymbol then some ⟨name, scope, kind, span⟩ else t.symbol? id := by
  obtain ⟨i⟩ := id
  simp only [declare, symbol?, nextSymbol, getElem?_concat, SymbolId.mk.injEq]

theorem scope?_declare (scope : ScopeId) (name : String) (kind : SymbolKind) (span : Option Span)
    (id : ScopeId) : (t.declare scope name kind span).2.scope? id =
      if id = scope then (t.scope? id).map fun s =>
        { s with declarations := s.declarations.insert name t.nextSymbol }
      else t.scope? id := by
  simp only [declare, scope?, List.getElem?_modify]
  obtain ⟨i⟩ := id
  obtain ⟨j⟩ := scope
  by_cases h : j = i
  · simp [h]
  · simp [h, Ne.symm h]

theorem declare_grows (scope : ScopeId) (name : String) (kind : SymbolKind) (span : Option Span) :
    t.Grows (t.declare scope name kind span).2 where
  symbols := prefix_append _ _
  scopes {id s} hs := by
    rw [scope?_declare]
    split
    · refine ⟨{ s with declarations := s.declarations.insert name t.nextSymbol }, ?_, rfl, rfl⟩
      rw [hs, Option.map_some]
    · exact ⟨s, hs, rfl, rfl⟩

theorem mem_insert_declarations {e : String × SymbolId}
    (h : e ∈ m.insert name id) : e ∈ m ∨ e.2 = id := by
  induction m with
  | nil =>
    rw [OrderedMap.insert, mem_singleton] at h
    exact .inr (by rw [h])
  | cons first m ih =>
    obtain ⟨k, v⟩ := first
    simp only [OrderedMap.insert] at h
    split at h
    · rcases mem_cons.mp h with rfl | h
      · exact .inr rfl
      · exact .inl (.tail _ h)
    · rcases mem_cons.mp h with rfl | h
      · exact .inl (.head _)
      · rcases ih h with h | h
        · exact .inl (.tail _ h)
        · exact .inr h

/-- A declaration closes a table that awaits it as an owner. -/
theorem ClosedBelow.declare (h : t.ClosedBelow (t.symbols.length + 1)) (present : t.hasScope scope = true)
    {kind : SymbolKind} (members : ∀ m, kind.members? = some m → t.hasScope m = true)
    (name : String) (span : Option Span) : (t.declare scope name kind span).2.Closed := by
  have grows := declare_grows (t := t) scope name kind span
  have length : (t.declare scope name kind span).2.symbols.length = t.symbols.length + 1 := by
    simp [SymbolTable.declare]
  -- a scope is as it was, up to the name that is declared now
  have origin : ∀ {id s}, (t.declare scope name kind span).2.scope? id = some s →
      ∃ s', t.scope? id = some s' ∧ s.kind = s'.kind ∧ s.parent = s'.parent ∧
        ∀ e ∈ s.declarations, e ∈ s'.declarations ∨ e.2 = t.nextSymbol := by
    intro id s hs
    rw [scope?_declare] at hs
    split at hs
    · obtain ⟨s', hs', rfl⟩ := Option.map_eq_some_iff.mp hs
      exact ⟨s', hs', rfl, rfl, fun e he => mem_insert_declarations he⟩
    · exact ⟨s, hs, rfl, rfl, fun e he => .inl he⟩
  refine ⟨?_, ?_, ?_, ?_, ?_⟩
  · intro id s p hs hp
    obtain ⟨s', hs', _, hparent, _⟩ := origin hs
    exact h.parent_lt hs' (hparent ▸ hp)
  · intro id s o hs ho
    obtain ⟨s', hs', hkind, _, _⟩ := origin hs
    rw [length]
    exact h.owner_lt hs' (hkind ▸ ho)
  · intro id s hs e he
    obtain ⟨s', hs', _, _, hdecl⟩ := origin hs
    rcases hdecl e he with old | he
    · exact grows.hasSymbol (h.declared hs' e old)
    · rw [he, hasSymbol_iff, length]
      exact Nat.lt_succ_self _
  · intro id s hs
    rw [symbol?_declare] at hs
    split at hs
    · cases hs
      exact grows.hasScope present
    · exact grows.hasScope (h.scope hs)
  · intro id s m hs hm
    rw [symbol?_declare] at hs
    split at hs
    · cases hs
      exact grows.hasScope (members m hm)
    · exact grows.hasScope (h.members hs hm)

/-- What a declaration does to a table. -/
structure Declares (t : SymbolTable) (s : Symbol) (id : SymbolId) (t' : SymbolTable) : Prop where
  id_eq : id = t.nextSymbol
  length : t'.symbols.length = t.symbols.length + 1
  entry : t'.symbol? id = some s
  grows : t.Grows t'
  closed : t'.Closed

theorem Closed.declare (h : t.Closed) (present : t.hasScope scope = true)
    {kind : SymbolKind} (simple : kind.members? = none) (name : String) (span : Option Span) :
    t.Declares ⟨name, scope, kind, span⟩ (t.declare scope name kind span).1
      (t.declare scope name kind span).2 where
  id_eq := rfl
  length := by simp [SymbolTable.declare]
  entry := (symbol?_declare _ _ _ _ _).trans (if_pos rfl)
  grows := declare_grows _ _ _ _
  closed := ClosedBelow.declare ⟨h.parent_lt, fun hs ho => Nat.lt_succ_of_lt (h.owner_lt hs ho),
    h.declared, h.scope, h.members⟩ present (by simp [simple]) name span

/-- An owner comes with a scope for its members, inside the scope that it is declared in. -/
theorem Closed.declareOwner (h : t.Closed) (present : t.hasScope scope = true)
    {kind : ScopeId → SymbolKind} (owns : ∀ m, (kind m).members? = some m) (name : String)
    (span : Option Span) :
    t.Declares ⟨name, scope, kind t.nextScope, span⟩ (t.declareOwner scope name kind span).1
        (t.declareOwner scope name kind span).2 ∧
      (t.declareOwner scope name kind span).2.Owns t.nextSymbol scope t.nextScope := by
  have pushed := pushScope_grows (t := t) (some scope) (.membersOf t.nextSymbol)
  have opened : (t.pushScope (some scope) (.membersOf t.nextSymbol)).2.scope? t.nextScope =
      some ⟨.membersOf t.nextSymbol, some scope, []⟩ := by
    rw [scope?_pushScope, if_pos rfl]
  have declared := declare_grows (t := (t.pushScope (some scope) (.membersOf t.nextSymbol)).2)
    scope name (kind t.nextScope) span
  refine ⟨⟨rfl, ?_, (symbol?_declare _ _ _ _ _).trans (if_pos rfl), pushed.trans declared, ?_⟩,
    declared.scopes opened⟩
  · simp [SymbolTable.declareOwner, SymbolTable.declare, SymbolTable.pushScope]
  · have owner_lt : ∀ o, ScopeKind.membersOf t.nextSymbol = .membersOf o →
        o.index < t.symbols.length + 1 := by
      intro o ho
      cases ho
      exact Nat.lt_succ_self _
    have around : ∀ p, some scope = some p → t.hasScope p = true := by
      intro p hp
      cases hp
      exact present
    have awaits := h.pushScope around (Nat.le_succ _) owner_lt
    refine awaits.declare (pushed.hasScope present) ?_ name span
    intro m hm
    obtain rfl : t.nextScope = m := Option.some.inj ((owns _).symm.trans hm)
    exact hasScope_of_scope? opened

theorem Closed.declareFunction (h : t.Closed) (present : t.hasScope scope = true)
    (name : String) (span : Option Span) :
    ∃ kind : SymbolKind, kind.isCallable = true ∧
      t.Declares ⟨name, scope, kind, span⟩ (t.declareFunction scope name span).1
        (t.declareFunction scope name span).2 ∧
      (t.declareFunction scope name span).2.Owns t.nextSymbol scope t.nextScope := by
  unfold SymbolTable.declareFunction
  split
  · exact ⟨_, rfl, h.declareOwner present (fun _ => rfl) name span⟩
  · exact ⟨_, rfl, h.declareOwner present (fun _ => rfl) name span⟩

end BlFront.SymbolTable
