import BlFront.Proofs.Symbol.Closed

/-!
# Names in scopes

A table is faithful if each scope holds what the symbols in it are declared as, in order.  Every
declaration keeps it so.  A name then means the latest symbol of that name in the nearest scope that
has one, and the names in scopes need not be looked at any more.
-/

namespace BlFront

open List

/-! ### Maps -/

/-- Of entries that are inserted in a row, the last one counts. -/
theorem OrderedMap.get?_foldl_insert {α κ β : Type} [BEq κ] [LawfulBEq κ] (key : α → κ) (value : α → β)
    (l : List α) (m : OrderedMap κ β) (k : κ) :
    (l.foldl (fun m a => m.insert (key a) (value a)) m).get? k =
      ((l.filter fun a => key a == k).getLast?.map value).or (m.get? k) := by
  induction l generalizing m with
  | nil => simp
  | cons a l ih =>
    rw [foldl_cons, ih, OrderedMap.get?_insert]
    by_cases same : key a = k
    · subst same
      rw [filter_cons_of_pos (by simp), List.getLast?_cons]
      cases (l.filter fun b => key b == key a).getLast? <;> simp
    · rw [filter_cons_of_neg (by simp [same])]
      simp [Ne.symm same]

theorem findSome?_congr {α β : Type} {l : List α} {f g : α → Option β} (same : ∀ a ∈ l, f a = g a) :
    l.findSome? f = l.findSome? g := by
  induction l with
  | nil => rfl
  | cons a l ih =>
    rw [List.findSome?_cons, List.findSome?_cons, same a (by simp),
      ih fun b mem => same b (mem_cons_of_mem a mem)]

namespace SymbolTable

variable {t t' : SymbolTable}

/-! ### What is declared in a scope -/

theorem mem_entries {e : SymbolId × Symbol} : e ∈ t.entries ↔ t.symbol? e.1 = some e.2 := by
  obtain ⟨⟨i⟩, s⟩ := e
  simp only [entries, mem_map, Prod.exists, Prod.mk.injEq, SymbolId.mk.injEq, symbol?]
  constructor
  · rintro ⟨s, i, mem, rfl, rfl⟩
    exact mk_mem_zipIdx_iff_getElem?.mp mem
  · intro found
    exact ⟨s, i, mk_mem_zipIdx_iff_getElem?.mpr found, rfl, rfl⟩

/-- The names in a scope, by the symbols that are declared there. -/
def declaredIn (t : SymbolTable) (scope : ScopeId) : OrderedMap String SymbolId :=
  (t.entries.filter fun e => e.2.scope == scope).foldl (fun m e => m.insert e.2.name e.1) []

theorem get?_declaredIn (scope : ScopeId) (name : String) : (t.declaredIn scope).get? name =
    (t.entries.filter fun e => e.2.scope == scope && e.2.name == name).getLast?.map Prod.fst := by
  rw [declaredIn, OrderedMap.get?_foldl_insert, filter_filter, OrderedMap.get?_nil,
    Option.or_none]
  simp only [Bool.and_comm]

/-- Every scope holds the names that are declared in it. -/
structure Faithful (t : SymbolTable) : Prop where
  declarations : ∀ {id s}, t.scope? id = some s → s.declarations = t.declaredIn id

theorem entries_append (more : List Symbol) (same : t'.symbols = t.symbols ++ more) :
    t'.entries = t.entries ++ (more.zipIdx t.symbols.length).map fun e => (⟨e.2⟩, e.1) := by
  simp only [entries, same, zipIdx_append, map_append, Nat.zero_add]

theorem declaredIn_congr (same : t'.symbols = t.symbols) (scope : ScopeId) :
    t'.declaredIn scope = t.declaredIn scope := by
  simp only [declaredIn, entries, same]

theorem declaredIn_eq_nil {scope : ScopeId} (none : ∀ e ∈ t.entries, e.2.scope ≠ scope) :
    t.declaredIn scope = [] := by
  rw [declaredIn, filter_eq_nil_iff.mpr fun e mem => by simp [none e mem]]
  rfl

theorem Faithful.pushScope (h : t.Faithful) (closed : t.Closed) (parent : Option ScopeId)
    (kind : ScopeKind) : (t.pushScope parent kind).2.Faithful := by
  refine ⟨fun {id s} held => ?_⟩
  have symbols : (t.pushScope parent kind).2.symbols = t.symbols := rfl
  rw [declaredIn_congr symbols]
  rw [scope?_pushScope] at held
  split at held
  · next new =>
      cases held
      refine (declaredIn_eq_nil fun e mem same => ?_).symm
      have present := closed.scope (mem_entries.mp mem)
      rw [same, new, hasScope, scope?_nextScope] at present
      cases present
  · exact h.declarations held

theorem Faithful.declare (h : t.Faithful) (scope : ScopeId) (name : String) (kind : SymbolKind)
    (span : Option Span) : (t.declare scope name kind span).2.Faithful := by
  have entries : (t.declare scope name kind span).2.entries =
      t.entries ++ [(t.nextSymbol, ⟨name, scope, kind, span⟩)] := by
    rw [entries_append [⟨name, scope, kind, span⟩] rfl]
    rfl
  refine ⟨fun {id s} held => ?_⟩
  rw [scope?_declare] at held
  rw [declaredIn, entries, filter_append, foldl_append]
  split at held
  · next here =>
      obtain ⟨before, found, rfl⟩ := Option.map_eq_some_iff.mp held
      subst here
      rw [h.declarations found]
      simp [declaredIn]
  · next other =>
      rw [filter_cons_of_neg (by simp [Ne.symm other]), filter_nil, foldl_nil]
      exact h.declarations held

theorem Faithful.declareOwner (h : t.Faithful) (closed : t.Closed) (scope : ScopeId) (name : String)
    (kind : ScopeId → SymbolKind) (span : Option Span) :
    (t.declareOwner scope name kind span).2.Faithful :=
  (h.pushScope closed _ _).declare _ _ _ _

/-! ### Scopes around a scope -/

/-- A scope and the scopes around it, up to one that stands in no other. -/
inductive Chain (t : SymbolTable) : ScopeId → List ScopeId → Prop
  | root {id : ScopeId} {s : Scope} (held : t.scope? id = some s) (parent : s.parent = none) :
      Chain t id [id]
  | inside {id up : ScopeId} {s : Scope} {ids : List ScopeId} (held : t.scope? id = some s)
      (parent : s.parent = some up) (outer : Chain t up ids) : Chain t id (id :: ids)

namespace Chain

variable {id : ScopeId} {ids : List ScopeId}

theorem extend (h : t.Chain id ids) (grows : t.Grows t') : t'.Chain id ids := by
  induction h with
  | root held parent =>
    obtain ⟨s, found, _, same⟩ := grows.scopes held
    exact .root found (same.trans parent)
  | inside held parent _ ih =>
    obtain ⟨s, found, _, same⟩ := grows.scopes held
    exact .inside found (same.trans parent) ih

theorem enclosing_eq (h : t.Chain id ids) (closed : t.Closed) :
    t.enclosing id = ids.filterMap t.scope? := by
  have all : ∀ fuel, id.index < fuel → t.chainFrom fuel id = ids.filterMap t.scope? := by
    induction h with
    | root held parent =>
      intro fuel enough
      obtain ⟨fuel, rfl⟩ : ∃ n, fuel = n + 1 := ⟨fuel - 1, by omega⟩
      simp [chainFrom, held, parent]
    | inside held parent _ ih =>
      intro fuel enough
      obtain ⟨fuel', more, chain⟩ := closed.chainFrom_eq_cons held parent enough
      rw [chain, filterMap_cons_some held, ih fuel' more]
  refine all _ (hasScope_iff.mp ?_)
  cases h with
  | root held _ => exact hasScope_of_scope? held
  | inside held _ _ => exact hasScope_of_scope? held

theorem present (h : t.Chain id ids) : ∀ outer ∈ ids, t.hasScope outer = true := by
  induction h with
  | root held _ =>
    intro outer mem
    rw [mem_singleton.mp mem]
    exact hasScope_of_scope? held
  | inside held _ _ ih =>
    intro outer mem
    rcases mem_cons.mp mem with rfl | mem
    · exact hasScope_of_scope? held
    · exact ih outer mem

/-- A name means the latest symbol in the nearest scope that has one. -/
theorem lookup?_eq (h : t.Chain id ids) (closed : t.Closed) (faithful : t.Faithful) (name : String) :
    t.lookup? id name = ids.findSome? fun scope => (t.declaredIn scope).get? name := by
  rw [lookup?, h.enclosing_eq closed]
  have present := h.present
  clear h
  induction ids with
  | nil => rfl
  | cons scope ids ih =>
    obtain ⟨here, outer⟩ := forall_mem_cons.mp present
    obtain ⟨s, held⟩ := Option.isSome_iff_exists.mp here
    rw [filterMap_cons_some held, List.findSome?_cons, List.findSome?_cons,
      faithful.declarations held, ih outer]

end Chain

end SymbolTable

end BlFront
