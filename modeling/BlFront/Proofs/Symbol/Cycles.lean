import BlFront.Proofs.Symbol.Closed

/-!
# Cyclic inheritance

A class is found to be cyclic exactly if its superclasses lead back to it.  A class that only inherits
from a cyclic one is not cyclic itself.
-/

namespace BlFront.SymbolTable

open List

variable {a id : SymbolId}

/-- The second class is the superclass of the first. -/
def Extends (t : SymbolTable) (id parent : SymbolId) : Prop := t.superclass? id = some parent

variable {t : SymbolTable} {b : SymbolId}

theorem Extends.unique (h : t.Extends id a) (h' : t.Extends id b) : a = b :=
  Option.some.inj (h.symm.trans h')

theorem superclass?_eq_none (other : t.hasKind (·.isClass) id = false) : t.superclass? id = none := by
  have unnamed : t.superclassName? id = none := by
    unfold superclassName?
    split
    · next kind => simp [hasKind, kind, SymbolKind.isClass] at other
    · rfl
  simp [superclass?, unnamed]

theorem Extends.isClass (h : t.Extends id a) : t.hasKind (·.isClass) id = true := by
  by_contra other
  cases (superclass?_eq_none (Bool.eq_false_iff.mpr other)).symm.trans h

/-- From everything that a cyclic class leads to, the way leads back to it. -/
theorem leads_back (cyclic : Relation.TransGen t.Extends id id)
    (leads : Relation.ReflTransGen t.Extends id a) : Relation.ReflTransGen t.Extends a id := by
  induction leads with
  | refl => exact .refl
  | @tail a b _ step ih =>
    rcases Relation.ReflTransGen.cases_head ih with rfl | ⟨next, first, rest⟩
    · obtain ⟨next, first, rest⟩ := Relation.TransGen.head'_iff.mp cyclic
      exact first.unique step ▸ rest
    · exact first.unique step ▸ rest

/-- How the search for superclasses ends. -/
inductive Stops (t : SymbolTable) (fuel : Nat) (seen found : List SymbolId) (last : SymbolId) : Prop
  | exhausted (length : found.length = fuel + 1)
  | top (none : t.superclass? last = none)
  | back {next : SymbolId} (step : t.Extends last next) (known : next ∈ seen ∨ next ∈ found)

/-- What the search for superclasses finds: a chain without repetitions. -/
structure Searched (t : SymbolTable) (fuel : Nat) (seen : List SymbolId) (id : SymbolId)
    (found : List SymbolId) : Prop where
  head : found.head? = some id
  chain : found.IsChain t.Extends
  nodup : found.Nodup
  unseen : ∀ a ∈ found, a ∉ seen
  stops : ∀ last, found.getLast? = some last → Stops t fuel seen found last

variable {seen : List SymbolId}

theorem searched_singleton {fuel : Nat} (fresh : id ∉ seen)
    (stops : Stops t fuel seen [id] id) : Searched t fuel seen id [id] where
  head := rfl
  chain := .singleton id
  nodup := nodup_singleton id
  unseen a mem := mem_singleton.mp mem ▸ fresh
  stops last same := by
    cases same
    exact stops

theorem ancestorsFrom_searched (fuel : Nat) (fresh : id ∉ seen) :
    Searched t fuel seen id (t.ancestorsFrom fuel seen id) := by
  induction fuel generalizing seen id with
  | zero => exact searched_singleton fresh (.exhausted rfl)
  | succ fuel ih =>
    rw [ancestorsFrom]
    cases step : t.superclass? id with
    | none => exact searched_singleton fresh (.top step)
    | some parent =>
      dsimp only
      split
      · next known =>
          rw [contains_iff_mem, mem_cons] at known
          refine searched_singleton fresh (.back step ?_)
          rcases known with rfl | known
          · exact .inr (.head _)
          · exact .inl known
      · next unknown =>
          rw [contains_iff_mem] at unknown
          have rest := ih unknown
          generalize t.ancestorsFrom fuel (id :: seen) parent = found at rest
          obtain ⟨more, rfl⟩ : ∃ more, found = parent :: more :=
            ⟨_, eq_cons_of_mem_head? rest.head⟩
          refine ⟨rfl, .cons_cons step rest.chain, ?_, ?_, ?_⟩
          · exact nodup_cons.mpr
              ⟨fun mem => rest.unseen _ mem (.head _), rest.nodup⟩
          · intro a mem
            rcases mem_cons.mp mem with rfl | mem
            · exact fresh
            · exact fun old => rest.unseen a mem (.tail _ old)
          · intro last same
            rw [List.getLast?_cons_cons] at same
            cases rest.stops last same with
            | exhausted length => exact .exhausted (by rw [length_cons, length])
            | top none => exact .top none
            | back step known =>
              refine .back step ?_
              rcases known with known | known
              · rcases mem_cons.mp known with rfl | known
                · exact .inr (.head _)
                · exact .inl known
              · exact .inr (.tail _ known)

variable {l : List SymbolId} {last : SymbolId}

/-- A chain that leads back into itself is never left. -/
theorem mem_of_isChain (chain : l.IsChain t.Extends) {first : SymbolId}
    (ends : l.getLast? = some last) (back : t.Extends last first) (mem : a ∈ l)
    (step : t.Extends a b) : b = first ∨ b ∈ l := by
  induction l with
  | nil => cases mem
  | cons x l ih =>
    cases l with
    | nil =>
      cases ends
      rw [mem_singleton.mp mem] at step
      exact .inl (step.unique back)
    | cons y l =>
      rw [isChain_cons_cons] at chain
      rw [List.getLast?_cons_cons] at ends
      rcases mem_cons.mp mem with rfl | mem
      · exact .inr (.tail _ (step.unique chain.1 ▸ mem_cons_self ..))
      · rcases ih chain.2 ends mem with same | inside
        · exact .inl same
        · exact .inr (.tail _ inside)

theorem leads_of_isChain (chain : l.IsChain t.Extends)
    (head : l.head? = some id) (ends : l.getLast? = some last) :
    Relation.ReflTransGen t.Extends id last := by
  induction l generalizing id with
  | nil => cases head
  | cons x l ih =>
    cases head
    cases l with
    | nil =>
      cases ends
      exact .refl
    | cons y l =>
      rw [isChain_cons_cons] at chain
      rw [List.getLast?_cons_cons] at ends
      exact .head chain.1 (ih chain.2 rfl ends)

theorem ancestors_searched (t : SymbolTable) (id : SymbolId) :
    Searched t t.symbols.length [] id (t.ancestors id) :=
  ancestorsFrom_searched t.symbols.length (not_mem_nil (a := id))

/-- The superclasses of a class are among the symbols of the table. -/
theorem length_ancestors_le (present : t.hasSymbol id = true) :
    (t.ancestors id).length ≤ t.symbols.length := by
  have nodup : ((t.ancestors id).map SymbolId.index).Nodup :=
    (ancestors_searched t id).nodup.map fun a b same => congrArg SymbolId.mk same
  have inside : (t.ancestors id).map SymbolId.index ⊆ List.range t.symbols.length := by
    intro i mem
    obtain ⟨a, ha, rfl⟩ := mem_map.mp mem
    exact mem_range.mpr (hasSymbol_iff.mp (mem_ancestorsFrom present ha))
  have le := (nodup.subperm inside).length_le
  rwa [length_map, length_range] at le

theorem leads_of_mem (chain : l.IsChain t.Extends) (head : l.head? = some id)
    (ends : l.getLast? = some last) (mem : a ∈ l) :
    Relation.ReflTransGen t.Extends id a ∧ Relation.ReflTransGen t.Extends a last := by
  obtain ⟨before, after, rfl⟩ := append_of_mem mem
  refine ⟨leads_of_isChain (l := before ++ [a]) ?_ ?_ (by simp),
    leads_of_isChain (l := a :: after) chain.right_of_append rfl ?_⟩
  · rw [append_cons] at chain
    exact chain.left_of_append
  · cases before <;> exact head
  · rwa [List.getLast?_append_of_ne_nil _ (cons_ne_nil _ _)] at ends

/-- The search for superclasses ends at the top or where it would come back to what it has found. -/
theorem ancestors_end (present : t.hasSymbol id = true) : ∃ last,
    (t.ancestors id).getLast? = some last ∧ (t.superclass? last = none ∨
      ∃ next ∈ t.ancestors id, t.Extends last next) := by
  have searched := ancestors_searched t id
  have short := length_ancestors_le present
  obtain ⟨last, ends⟩ : ∃ last, (t.ancestors id).getLast? = some last :=
    ⟨_, List.getLast?_eq_some_getLast fun empty => by cases empty ▸ searched.head⟩
  refine ⟨last, ends, ?_⟩
  cases searched.stops last ends with
  | exhausted length => omega
  | top none => exact .inl none
  | back step known => exact .inr ⟨_, by simpa using known, step⟩

theorem isCyclic_iff (present : t.hasSymbol id = true) :
    t.isCyclic id = true ↔ Relation.TransGen t.Extends id id := by
  have searched := ancestors_searched t id
  obtain ⟨last, ends, stops⟩ := ancestors_end present
  rw [isCyclic]
  generalize t.ancestors id = found at searched ends stops
  have leads := leads_of_isChain searched.chain searched.head ends
  rw [ends, Option.bind_some]
  constructor
  · intro found
    cases step : t.superclass? last with
    | none => simp [step] at found
    | some next =>
      rw [step] at found
      have same : next = id := by simpa using found
      exact .tail' leads (same ▸ step)
  · intro cyclic
    rcases stops with none | ⟨next, inside, step⟩
    · -- the last class found leads back to the first one
      obtain ⟨next, step, _⟩ := Relation.TransGen.head'_iff.mp
        (Relation.TransGen.trans_right (leads_back cyclic leads) cyclic)
      exact absurd (none.symm.trans step) (by simp)
    · obtain ⟨before, after, rfl⟩ := append_of_mem inside
      have suffix : (next :: after).getLast? = some last := by
        rwa [List.getLast?_append_of_ne_nil _ (cons_ne_nil _ _)] at ends
      have chain : (next :: after).IsChain t.Extends := searched.chain.right_of_append
      -- what can be reached from the repeated class stays behind it
      have stays : ∀ {a b}, Relation.ReflTransGen t.Extends a b → a ∈ next :: after →
          b ∈ next :: after := by
        intro a b reaches mem
        induction reaches with
        | refl => exact mem
        | tail _ move ih =>
          rcases mem_of_isChain chain suffix step ih move with rfl | mem
          · exact .head _
          · exact mem
      have returns : id ∈ next :: after := stays (leads_back cyclic (leads.tail step)) (.head _)
      cases before with
      | nil =>
        have same : next = id := Option.some.inj searched.head
        rw [step, same]
        exact beq_self_eq_true _
      | cons x before =>
        cases searched.head
        exact absurd rfl ((nodup_append.mp searched.nodup).2.2 _ (.head _) _ returns)

end BlFront.SymbolTable
