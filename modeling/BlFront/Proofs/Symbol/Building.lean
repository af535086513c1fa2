import BlFront.Proofs.Symbol.Faithful

/-!
# Tables that are built up

A table is built by adding scopes and declarations, each inside what is there.  Every table built in
this way has its parts in order: a scope is younger than the scope around it, holds the latest
declaration of each name in it, and belongs to its owner alone.  A name means the latest declaration in
the nearest scope that has one.
-/

namespace BlFront

open List

/-! ### Maps -/

namespace OrderedMap

variable {α β κ : Type} [DecidableEq κ]

theorem keys_insert (m : OrderedMap κ α) (key : κ) (value : α) :
    (OrderedMap.insert key value m).keys = if key ∈ m.keys then m.keys else m.keys ++ [key] := by
  induction m with
  | nil => rfl
  | cons entry m ih =>
    obtain ⟨k, v⟩ := entry
    by_cases same : key = k
    · simp [OrderedMap.insert, keys, same]
    · have step : keys (OrderedMap.insert key value ((k, v) :: m)) =
          k :: keys (OrderedMap.insert key value m) := by
        simp [OrderedMap.insert, keys, same]
      rw [step, ih]
      by_cases old : key ∈ keys m <;> simp_all [keys]

/-- Names keep the places of their first entries. -/
theorem keys_foldl_insert (key : α → κ) (value : α → β) (l : List α) :
    keys (l.foldl (fun (m : OrderedMap κ β) a => OrderedMap.insert (key a) (value a) m) []) =
      (l.map key).eraseDups := by
  induction l using List.reverseRecOn with
  | nil => rfl
  | append_singleton l a ih =>
    rw [foldl_append, foldl_cons, foldl_nil, keys_insert, ih, map_append, eraseDups_append]
    by_cases old : key a ∈ l.map key
    · have gone : [key a].removeAll (l.map key) = [] := by simpa [removeAll] using old
      rw [if_pos (mem_eraseDups.mpr old), map_singleton, gone, eraseDups_nil, append_nil]
    · have stays : [key a].removeAll (l.map key) = [key a] := by simpa [removeAll] using old
      rw [if_neg (mt mem_eraseDups.mp old), map_singleton, stays]
      rfl

end OrderedMap

namespace SymbolTable

variable {t t' : SymbolTable} {scope : ScopeId} {name : String} {id : SymbolId}

/-! ### Changes -/

/-- What a name can be declared as. -/
inductive Form where
  | primitive
  | var
  | field
  | function
  | struct
  | class (superclass : Option String)

inductive Change where
  | scope (parent : Option ScopeId) (kind : ScopeKind)
  | declare (form : Form) (scope : ScopeId) (name : String) (span : Option Span)

namespace Change

def apply (t : SymbolTable) : Change → SymbolTable
  | .scope parent kind => (t.pushScope parent kind).2
  | .declare form scope name span => match form with
    | .primitive => (t.declare scope name .primitiveType span).2
    | .var => (t.declareVar scope name span).2
    | .field => (t.declareField scope name span).2
    | .function => (t.declareFunction scope name span).2
    | .struct => (t.declareStruct scope name span).2
    | .class superclass => (t.declareClass scope name superclass span).2

/-- Whether a change names only what is in the table. -/
def fits (t : SymbolTable) : Change → Bool
  | .scope parent kind => parent.all t.hasScope && t.hasOwner ⟨kind, parent, []⟩
  | .declare _ scope _ _ => t.hasScope scope

/-- The declaration that a change adds. -/
def declared? : Change → Option (ScopeId × String)
  | .scope _ _ => none
  | .declare _ scope name _ => some (scope, name)

end Change

/-- A table after some changes, each of which fits.  Identities are counted without a bound: a table
is taken to have fewer than `2 ^ 32` scopes and fewer than `2 ^ 32` symbols, so that each fits 32 bits. -/
def build? : List Change → SymbolTable → Option SymbolTable
  | [], t => some t
  | c :: changes, t => if c.fits t then build? changes (c.apply t) else none

/-! ### Invariants -/

/-- Where members have a scope, it is a scope of their own. -/
structure Owned (t : SymbolTable) : Prop where
  members : ∀ {id d m}, t.symbol? id = some d → d.kind.members? = some m → t.Owns id d.scope m

/-- What holds of a table that is being built. -/
structure Sound (t : SymbolTable) : Prop where
  closed : t.Closed
  faithful : t.Faithful
  owned : t.Owned

theorem Owned.declare (h : t.Owned) {kind : SymbolKind}
    (owns : ∀ m, kind.members? = some m → t.Owns t.nextSymbol scope m) (name : String)
    (span : Option Span) : (t.declare scope name kind span).2.Owned := by
  refine ⟨fun {id d m} held member => Owns.grow ?_ (declare_grows scope name kind span)⟩
  rw [symbol?_declare] at held
  split at held
  · next new =>
      cases held
      exact new ▸ owns m member
  · exact h.members held member

theorem Owned.pushScope (h : t.Owned) (parent : Option ScopeId) (kind : ScopeKind) :
    (t.pushScope parent kind).2.Owned :=
  ⟨fun held owns => (h.members held owns).grow (pushScope_grows parent kind)⟩

namespace Sound

theorem declare (h : t.Sound) (present : t.hasScope scope = true) {kind : SymbolKind}
    (simple : kind.members? = none) (name : String) (span : Option Span) :
    (t.declare scope name kind span).2.Sound where
  closed := (h.closed.declare present simple name span).closed
  faithful := h.faithful.declare _ _ _ _
  owned := h.owned.declare (by simp [simple]) name span

theorem declareOwner (h : t.Sound) (present : t.hasScope scope = true) {kind : ScopeId → SymbolKind}
    (owns : ∀ m, (kind m).members? = some m) (name : String) (span : Option Span) :
    (t.declareOwner scope name kind span).2.Sound where
  closed := (h.closed.declareOwner present owns name span).1.closed
  faithful := h.faithful.declareOwner h.closed _ _ _ _
  owned := by
    refine (h.owned.pushScope _ _).declare (fun m member => ?_) name span
    obtain rfl : t.nextScope = m := Option.some.inj ((owns _).symm.trans member)
    exact ⟨_, (scope?_pushScope ..).trans (if_pos rfl), rfl, rfl⟩

theorem apply (h : t.Sound) {c : Change} (fits : c.fits t = true) : (c.apply t).Sound := by
  cases c with
  | scope parent kind =>
    obtain ⟨around, owner⟩ := Bool.and_eq_true_iff.mp fits
    refine ⟨h.closed.pushScope (fun p same => ?_) (Nat.le_refl _) (fun o same => ?_),
      h.faithful.pushScope h.closed _ _, h.owned.pushScope _ _⟩
    · subst same
      exact around
    · subst same
      exact hasSymbol_iff.mp owner
  | declare form scope name span =>
    cases form with
    | primitive => exact h.declare fits rfl name span
    | var => exact h.declare fits rfl name span
    | field => exact h.declare fits rfl name span
    | function =>
      simp only [Change.apply, declareFunction]
      split
      · exact h.declareOwner fits (fun _ => rfl) name span
      · exact h.declareOwner fits (fun _ => rfl) name span
    | struct => exact h.declareOwner fits (fun _ => rfl) name span
    | «class» superclass => exact h.declareOwner fits (fun _ => rfl) name span

theorem build {changes : List Change} (h : t.Sound) (built : build? changes t = some t') :
    t'.Sound := by
  induction changes generalizing t with
  | nil => exact Option.some.inj built ▸ h
  | cons c changes ih =>
    rw [build?, Option.ite_none_right_eq_some] at built
    exact ih (h.apply built.1) built.2

end Sound

/-! ### The first table -/

theorem empty_sound : empty.Sound := by
  refine ⟨⟨?_, ?_, ?_, ?_, ?_⟩, ⟨?_⟩, ⟨?_⟩⟩ <;> intro id s <;> simp [empty, scope?, symbol?]

/-- The changes that make the first table. -/
def builtinChanges : List Change :=
  .scope none .builtin :: Ty.primitives.map (fun p => .declare .primitive builtinScope p.1 none) ++
    builtinFunctions.zipIdx.flatMap fun (f, i) =>
      .declare .function builtinScope f.name none ::
        f.params.map fun p => .declare .var ⟨i + 1⟩ p.name none

theorem initial_sound : initial.Sound := by
  have built : build? builtinChanges empty = some initial := by rfl
  exact empty_sound.build built

theorem initial_root :
    ∃ s, initial.scope? builtinScope = some s ∧ s.kind = .builtin ∧ s.parent = none :=
  ⟨_, rfl, rfl, rfl⟩

theorem initial_hasScope : initial.hasScope builtinScope = true := rfl

/-! ### Latest declarations -/

/-- A symbol is declared in a scope under a name. -/
def Introduced (t : SymbolTable) (scope : ScopeId) (name : String) (id : SymbolId) : Prop :=
  ∃ d, t.symbol? id = some d ∧ d.scope = scope ∧ d.name = name

def Latest (t : SymbolTable) (scope : ScopeId) (name : String) (id : SymbolId) : Prop :=
  t.Introduced scope name id ∧ ∀ other, t.Introduced scope name other → other.index ≤ id.index

theorem entries_sorted : t.entries.Pairwise (·.1.index < ·.1.index) := by
  have indices : t.entries.map (·.1.index) = range' 0 t.symbols.length := by
    rw [entries, map_map, ← zipIdx_map_snd]
    rfl
  have sorted : (t.entries.map (·.1.index)).Pairwise (· < ·) := indices ▸ pairwise_lt_range'
  exact pairwise_map.mp sorted

theorem get?_declaredIn_eq_none :
    (t.declaredIn scope).get? name = none ↔ ∀ id, ¬ t.Introduced scope name id := by
  rw [get?_declaredIn, Option.map_eq_none_iff, List.getLast?_eq_none_iff, filter_eq_nil_iff]
  constructor
  · rintro none id ⟨d, held, rfl, rfl⟩
    exact none (id, d) (mem_entries.mpr held) (by simp)
  · intro none e mem here
    simp only [Bool.and_eq_true, beq_iff_eq] at here
    exact none e.1 ⟨e.2, mem_entries.mp mem, here⟩

theorem get?_declaredIn_eq_some :
    (t.declaredIn scope).get? name = some id ↔ t.Latest scope name id := by
  have latest {id} (found : (t.declaredIn scope).get? name = some id) : t.Latest scope name id := by
    rw [get?_declaredIn, Option.map_eq_some_iff] at found
    obtain ⟨e, last, rfl⟩ := found
    obtain ⟨front, split⟩ := List.getLast?_eq_some_iff.mp last
    have sorted := split ▸ entries_sorted.filter _
    have mem := mem_filter.mp (mem_of_getLast? last)
    refine ⟨⟨e.2, mem_entries.mp mem.1, by simpa using mem.2⟩, ?_⟩
    rintro other ⟨d, held, here, named⟩
    have inside : (other, d) ∈ front ++ [e] :=
      split ▸ mem_filter.mpr ⟨mem_entries.mpr held, by simp [here, named]⟩
    rcases mem_append.mp inside with earlier | same
    · exact Nat.le_of_lt ((pairwise_append.mp sorted).2.2 _ earlier _ (mem_singleton_self e))
    · rw [← mem_singleton.mp same]
  refine ⟨latest, fun h => ?_⟩
  cases found : (t.declaredIn scope).get? name with
  | none => exact absurd h.1 (get?_declaredIn_eq_none.mp found id)
  | some other =>
    -- of two latest symbols neither is earlier
    have le := h.2 other (latest found).1
    have ge := (latest found).2 id h.1
    exact congrArg some (congrArg SymbolId.mk (Nat.le_antisymm le ge))

/-- The names in a scope keep the order of their first declarations. -/
theorem keys_declaredIn (scope : ScopeId) : OrderedMap.keys (t.declaredIn scope) =
    ((t.symbols.filter (·.scope == scope)).map (·.name)).eraseDups := by
  have symbols : t.entries.map Prod.snd = t.symbols := by
    rw [entries, map_map]
    exact zipIdx_map_fst ..
  rw [declaredIn, OrderedMap.keys_foldl_insert, ← symbols, filter_map, map_map]
  rfl

/-! ### Chains -/

theorem Closed.chain (h : t.Closed) {scope : ScopeId} (present : t.hasScope scope = true) :
    ∃ ids, t.Chain scope ids := by
  induction index : scope.index using Nat.strongRecOn generalizing scope with
  | ind _ ih =>
    obtain ⟨s, held⟩ := Option.isSome_iff_exists.mp present
    cases parent : s.parent with
    | none => exact ⟨[scope], .root held parent⟩
    | some up =>
      have older := h.parent_lt held parent
      have around : t.hasScope up = true :=
        hasScope_iff.mpr (Nat.lt_trans older (hasScope_iff.mp present))
      obtain ⟨ids, outer⟩ := ih up.index (index ▸ older) around rfl
      exact ⟨scope :: ids, .inside held parent outer⟩

/-! ### What is built -/

theorem build?_history {changes : List Change} (built : build? changes t = some t') :
    t'.symbols.map (fun d => (d.scope, d.name)) =
      t.symbols.map (fun d => (d.scope, d.name)) ++ changes.filterMap Change.declared? := by
  induction changes generalizing t with
  | nil => simp [Option.some.inj built]
  | cons c changes ih =>
    rw [build?, Option.ite_none_right_eq_some] at built
    rw [ih built.2]
    cases c with
    | scope parent kind => rfl
    | declare form scope name span =>
      have added : ((Change.declare form scope name span).apply t).symbols.map
          (fun d => (d.scope, d.name)) = t.symbols.map (fun d => (d.scope, d.name)) ++ [(scope, name)] := by
        cases form <;> simp [Change.apply, declareVar, declareField, declareFunction, declareStruct,
          declareClass, declareOwner, pushScope, SymbolTable.declare]
      rw [added, append_assoc]
      rfl

/-- A table has its parts in order. -/
structure WellScoped (t : SymbolTable) : Prop where
  parent_lt : ∀ {id s p}, t.scope? id = some s → s.parent = some p → p.index < id.index
  /-- A scope holds the latest declarations, under names in the order of their first ones. -/
  entry : ∀ {id s}, t.scope? id = some s →
    ∀ name symbol, s.declarations.get? name = some symbol ↔ t.Latest id name symbol
  names : ∀ {id s}, t.scope? id = some s →
    s.declarations.keys = ((t.symbols.filter (·.scope == id)).map (·.name)).eraseDups
  members : ∀ {id d m}, t.symbol? id = some d → d.kind.members? = some m → t.Owns id d.scope m
  distinct : ∀ {id id' m}, t.members? id = some m → t.members? id' = some m → id = id'
  /-- A name means the latest declaration in the nearest scope that has one. -/
  lookup : ∀ {id}, t.hasScope id = true → ∃ ids, t.Chain id ids ∧
    t.enclosing id = ids.filterMap t.scope? ∧
    (∀ name symbol, t.lookup? id name = some symbol ↔ ∃ inner near outer,
      ids = inner ++ near :: outer ∧ t.Latest near name symbol ∧
        ∀ scope ∈ inner, ∀ other, ¬ t.Introduced scope name other) ∧
    ∀ name, t.lookup? id name = none ↔ ∀ scope ∈ ids, ∀ other, ¬ t.Introduced scope name other

theorem Sound.wellScoped (h : t.Sound) : t.WellScoped where
  parent_lt := h.closed.parent_lt
  entry held name symbol := h.faithful.declarations held ▸ get?_declaredIn_eq_some
  names held := h.faithful.declarations held ▸ keys_declaredIn _
  members := h.owned.members
  distinct {id id' m} owns owns' := by
    obtain ⟨kind, found, member⟩ := Option.bind_eq_some_iff.mp owns
    obtain ⟨d, held, rfl⟩ := Option.map_eq_some_iff.mp found
    obtain ⟨kind', found', member'⟩ := Option.bind_eq_some_iff.mp owns'
    obtain ⟨d', held', rfl⟩ := Option.map_eq_some_iff.mp found'
    obtain ⟨s, scope, kind, _⟩ := h.owned.members held member
    obtain ⟨s', scope', kind', _⟩ := h.owned.members held' member'
    cases scope.symm.trans scope'
    cases kind.symm.trans kind'
    rfl
  lookup {id} present := by
    obtain ⟨ids, chain⟩ := h.closed.chain present
    refine ⟨ids, chain, chain.enclosing_eq h.closed, fun name symbol => ?_, fun name => ?_⟩
    · rw [chain.lookup?_eq h.closed h.faithful, List.findSome?_eq_some_iff]
      simp only [get?_declaredIn_eq_some, get?_declaredIn_eq_none]
    · rw [chain.lookup?_eq h.closed h.faithful, List.findSome?_eq_none_iff]
      simp only [get?_declaredIn_eq_none]

theorem built_tables_are_well_scoped (changes : List Change) (built : build? changes initial = some t) :
    t.WellScoped ∧ t.symbols.map (fun d => (d.scope, d.name)) =
      initial.symbols.map (fun d => (d.scope, d.name)) ++ changes.filterMap Change.declared? :=
  ⟨(initial_sound.build built).wellScoped, build?_history built⟩

/-- A class with a field and then a method of one name, which is declared around it as well. -/
def shadowing : List Change :=
  [.scope (some builtinScope) .topLevel, .declare .var ⟨5⟩ "x" none, .declare (.class none) ⟨5⟩ "C" none,
    .declare .field ⟨6⟩ "x" none, .declare .function ⟨6⟩ "x" none]

theorem built_tables_are_well_scoped_shadowing : ∃ t, build? shadowing initial = some t ∧
    t.WellScoped ∧ t.lookup? ⟨6⟩ "x" = some ⟨18⟩ ∧ t.lookup? ⟨5⟩ "x" = some ⟨15⟩ :=
  ⟨_, rfl, (built_tables_are_well_scoped shadowing rfl).1, by decide⟩

end SymbolTable

end BlFront
