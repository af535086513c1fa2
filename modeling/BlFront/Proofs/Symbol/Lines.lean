import BlFront.Proofs.Symbol.Building
import BlFront.Proofs.Symbol.Coherent
import BlFront.Proofs.Symbol.Cycles

/-!
# Lines of superclasses

The search for superclasses finds a chain without repetitions, also where they form a cycle.  Where
they come to an end it finds the whole line.  A method overrides what the superclass has under its
name, so along a line overriding comes to an end as well.
-/

namespace BlFront.SymbolTable

open List

variable {t : SymbolTable} {id last : SymbolId} {line : List SymbolId}

namespace Line

/-- A chain of superclasses is the beginning of the line, and the rest is the line of its last. -/
theorem of_isChain {found : List SymbolId} (h : t.Line id line)
    (chain : (id :: found).IsChain t.Extends) : ∃ last rest,
      (id :: found).getLast? = some last ∧ line = found ++ rest ∧ t.Line last rest := by
  induction found generalizing id line with
  | nil => exact ⟨id, line, rfl, rfl, h⟩
  | cons next found ih =>
    rw [isChain_cons_cons] at chain
    obtain ⟨step, chain⟩ := chain
    cases line with
    | nil => cases h.symm.trans step
    | cons parent line =>
      obtain rfl : parent = next := Option.some.inj (h.1.symm.trans step)
      obtain ⟨last, rest, ends, same, tail⟩ := ih h.2 chain
      exact ⟨last, rest, by rwa [List.getLast?_cons_cons], by rw [same, cons_append], tail⟩

theorem of_top (chain : (id :: line).IsChain t.Extends) (ends : (id :: line).getLast? = some last)
    (top : t.superclass? last = none) : t.Line id line := by
  induction line generalizing id with
  | nil =>
    cases ends
    exact top
  | cons parent line ih =>
    rw [isChain_cons_cons] at chain
    exact ⟨chain.1, ih chain.2 (by rwa [List.getLast?_cons_cons] at ends)⟩

/-- No class is met twice where superclasses come to an end. -/
theorem nodup (h : t.Line id line) : (id :: line).Nodup := by
  induction line generalizing id with
  | nil => exact nodup_singleton id
  | cons parent line ih => exact nodup_cons.mpr ⟨t.lineage.not_mem h, ih h.2⟩

theorem getLast? (h : t.Line id line) :
    ∃ last, (id :: line).getLast? = some last ∧ t.superclass? last = none := by
  induction line generalizing id with
  | nil => exact ⟨id, rfl, h⟩
  | cons parent line ih =>
    rw [List.getLast?_cons_cons]
    exact ih h.2

/-- The search for superclasses finds the line. -/
theorem ancestors_eq (h : t.Line id line) : t.ancestors id = id :: line := by
  cases line with
  | nil =>
    have none : t.superclass? id = none := h
    rw [ancestors]
    cases t.symbols.length <;> simp [ancestorsFrom, none]
  | cons parent line =>
    have searched := ancestors_searched t id
    obtain ⟨last, ends, stops⟩ := ancestors_end (hasSymbol_of_hasKind (Extends.isClass h.1))
    generalize t.ancestors id = found at searched ends stops
    obtain ⟨found, rfl⟩ : ∃ rest, found = id :: rest := ⟨_, eq_cons_of_mem_head? searched.head⟩
    obtain ⟨_, rest, ends', same, tail⟩ := h.of_isChain searched.chain
    cases ends.symm.trans ends'
    suffices rest = [] by rw [same, this, append_nil]
    cases rest with
    | nil => rfl
    | cons next rest =>
      exfalso
      rcases stops with none | ⟨_, inside, step⟩
      · cases none.symm.trans tail.1
      · cases tail.1.symm.trans step
        have once := same ▸ h.nodup
        rw [← cons_append] at once
        exact (nodup_append.mp once).2.2 _ inside _ (.head _) rfl

end Line

/-! ### Ancestors -/

/-- The superclasses of a class do not lead into a cycle. -/
def Acyclic (t : SymbolTable) (id : SymbolId) : Prop :=
  ∀ a, Relation.ReflTransGen t.Extends id a → ¬ Relation.TransGen t.Extends a a

theorem Acyclic.exists_line (h : t.Acyclic id) : ∃ line, t.Line id line := by
  cases isClass : t.hasKind (·.isClass) id with
  | false => exact ⟨[], superclass?_eq_none isClass⟩
  | true =>
    have searched := ancestors_searched t id
    obtain ⟨last, ends, stops⟩ := ancestors_end (hasSymbol_of_hasKind isClass)
    rcases stops with top | ⟨next, inside, back⟩
    · generalize t.ancestors id = found at searched ends
      obtain ⟨found, rfl⟩ : ∃ rest, found = id :: rest := ⟨_, eq_cons_of_mem_head? searched.head⟩
      exact ⟨found, .of_top searched.chain ends top⟩
    · obtain ⟨there, round⟩ := leads_of_mem searched.chain searched.head ends inside
      exact absurd (.tail' round back) (h next there)

/-- What is found of the superclasses of a class. -/
structure Traced (t : SymbolTable) (id : SymbolId) : Prop where
  head : (t.ancestors id).head? = some id
  nodup : (t.ancestors id).Nodup
  chain : (t.ancestors id).IsChain t.Extends
  cyclic : t.isCyclic id = true ↔ Relation.TransGen t.Extends id id
  acyclic : t.Acyclic id → t.ancestors id = id :: (t.superclass? id).elim [] t.ancestors ∧
    ∃ last, (t.ancestors id).getLast? = some last ∧ t.superclass? last = none

theorem traced (t : SymbolTable) (id : SymbolId) : t.Traced id where
  head := (ancestors_searched t id).head
  nodup := (ancestors_searched t id).nodup
  chain := (ancestors_searched t id).chain
  cyclic := by
    cases isClass : t.hasKind (·.isClass) id with
    | true => exact isCyclic_iff (hasSymbol_of_hasKind isClass)
    | false =>
      have none := superclass?_eq_none isClass
      have line : t.Line id [] := none
      constructor
      · intro cyclic
        simp [isCyclic, line.ancestors_eq, none] at cyclic
      · intro cyclic
        obtain ⟨next, step, _⟩ := Relation.TransGen.head'_iff.mp cyclic
        cases none.symm.trans step
  acyclic h := by
    obtain ⟨line, h⟩ := h.exists_line
    rw [h.ancestors_eq]
    refine ⟨?_, h.getLast?⟩
    cases line with
    | nil =>
      rw [show t.superclass? id = none from h]
      rfl
    | cons parent line => rw [h.1, Option.elim_some, h.2.ancestors_eq]

/-- Superclasses come to an end where there is no cycle. -/
theorem wellFounded_of_acyclic (h : ∀ id, ¬ Relation.TransGen t.Extends id id) :
    WellFounded fun parent id => t.Extends id parent := by
  have line {id line} (h : t.Line id line) : Acc (fun parent id => t.Extends id parent) id := by
    induction line generalizing id with
    | nil => exact ⟨id, fun parent step => by cases step.symm.trans h⟩
    | cons next line ih => exact ⟨id, fun parent step => step.unique h.1 ▸ ih h.2⟩
  refine ⟨fun id => ?_⟩
  obtain ⟨_, found⟩ := Acyclic.exists_line fun a (_ : Relation.ReflTransGen t.Extends id a) => h a
  exact line found

/-! ### Overriding -/

variable {owner m : SymbolId} {x : String} {owners : List SymbolId}

/-- The members of a class have a method under a name. -/
def HasMethod (t : SymbolTable) (owner : SymbolId) (x : String) (m : SymbolId) : Prop :=
  ∃ scope s, t.members? owner = some scope ∧ t.scope? scope = some s ∧
    s.declarations.get? x = some m ∧ t.hasKind (·.isMethod) m = true

/-- A method is declared in a class. -/
def DeclaresMethod (t : SymbolTable) (owner : SymbolId) (x : String) (m : SymbolId) : Prop :=
  ∃ d, t.symbol? m = some d ∧ d.kind.isMethod = true ∧ t.classOfScope? d.scope = some owner ∧ d.name = x

/-- The first owner that has a method under a name is the one that counts. -/
theorem findMember?_isMethod : t.findMember? owners (·.isMethod) x = some m ↔
    ∃ near owner far, owners = near ++ owner :: far ∧ t.HasMethod owner x m ∧
      ∀ other ∈ near, ∀ m, ¬ t.HasMethod other x m := by
  rw [findMember?, List.findSome?_eq_some_iff]
  have has {owner m} : (do
      let scope ← (t.members? owner).bind t.scope?
      let found ← scope.declarations.get? x
      guard (t.hasKind (·.isMethod) found)
      return found) = some m ↔ t.HasMethod owner x m := by
    simp only [HasMethod, Option.bind_eq_bind, Option.bind_eq_some_iff, Option.guard_eq_some',
      Option.pure_def, Option.some.injEq]
    constructor
    · rintro ⟨s, ⟨scope, members, held⟩, _, found, _, isMethod, rfl⟩
      exact ⟨scope, s, members, held, found, isMethod⟩
    · rintro ⟨scope, s, members, held, found, isMethod⟩
      exact ⟨s, ⟨scope, members, held⟩, m, found, (), isMethod, rfl⟩
  simp only [has, Option.eq_none_iff_forall_ne_some, Ne]

theorem Sound.declaresMethod (h : t.Sound) (isClass : t.hasKind (·.isClass) owner = true)
    (has : t.HasMethod owner x m) : t.DeclaresMethod owner x m := by
  obtain ⟨scope, s, members, held, found, isMethod⟩ := has
  obtain ⟨⟨d, symbol, rfl, named⟩, _⟩ := (h.wellScoped.entry held x m).mp found
  obtain ⟨kind, owns, member⟩ := Option.bind_eq_some_iff.mp members
  obtain ⟨e, symbol', rfl⟩ := Option.map_eq_some_iff.mp owns
  obtain ⟨_, held', kind, _⟩ := h.owned.members symbol' member
  refine ⟨d, symbol, ?_, ?_, named⟩
  · simpa [hasKind, kind?, symbol] using isMethod
  · simp [classOfScope?, held', kind, classOfKind?, isClass]

theorem DeclaresMethod.overridden?_eq (h : t.DeclaresMethod owner x m) :
    t.overridden? m = t.findMember? (t.ancestors owner).tail (·.isMethod) x := by
  obtain ⟨d, held, isMethod, at_, rfl⟩ := h
  simp [overridden?, held, isMethod, at_]

/-- What a method of a class overrides. -/
structure Linked (t : SymbolTable) (owner : SymbolId) (x : String) (m : SymbolId) : Prop where
  above : ∀ m', t.overridden? m = some m' →
    ∃ other ∈ (t.ancestors owner).tail, other ≠ owner ∧ t.DeclaresMethod other x m'
  next : t.Acyclic owner → t.overridden? m = (t.superclass? owner).bind (t.resolveMethod? · x)
  farther : t.Acyclic owner → ∀ m', t.overridden? m = some m' → ∃ other,
    t.DeclaresMethod other x m' ∧ t.ancestors other <:+ (t.ancestors owner).tail
  ends : t.Acyclic owner → Acc (fun m' m => t.overridden? m = some m') m

theorem isClass_of_isChain {l : List SymbolId} (chain : (id :: l).IsChain t.Extends) (mem : owner ∈ l) :
    t.hasKind (·.isClass) owner = true := by
  induction l generalizing id with
  | nil => cases mem
  | cons next l ih =>
    rw [isChain_cons_cons] at chain
    rcases mem_cons.mp mem with rfl | mem
    · exact superclass?_isClass chain.1
    · exact ih chain.2 mem

theorem Sound.above (h : t.Sound) {m' : SymbolId} (declares : t.DeclaresMethod owner x m)
    (found : t.overridden? m = some m') : ∃ other ∈ (t.ancestors owner).tail,
      other ≠ owner ∧ t.DeclaresMethod other x m' := by
  rw [declares.overridden?_eq, findMember?_isMethod] at found
  obtain ⟨near, other, far, split, has, _⟩ := found
  have mem : other ∈ (t.ancestors owner).tail := split ▸ mem_append_right _ (.head _)
  have searched := ancestors_searched t owner
  rw [eq_cons_of_mem_head? searched.head] at searched
  refine ⟨other, mem, ?_, h.declaresMethod (isClass_of_isChain searched.chain mem) has⟩
  rintro rfl
  exact (nodup_cons.mp searched.nodup).1 mem

/-- Along a line of superclasses overriding comes to an end. -/
theorem Sound.overriding_ends (h : t.Sound) (line : t.Line owner owners)
    (declares : t.DeclaresMethod owner x m) : Acc (fun m' m => t.overridden? m = some m') m := by
  induction size : owners.length using Nat.strongRecOn generalizing owner owners m with
  | ind _ ih =>
    refine ⟨m, fun m' found => ?_⟩
    obtain ⟨other, mem, _, declares'⟩ := h.above declares found
    rw [line.ancestors_eq, tail_cons] at mem
    obtain ⟨before, after, rfl⟩ := append_of_mem mem
    refine ih after.length ?_ line.of_append declares' rfl
    rw [← size, length_append, length_cons]
    omega

theorem Sound.linked (h : t.Sound) (declares : t.DeclaresMethod owner x m) : t.Linked owner x m where
  above _ := h.above declares
  next acyclic := by
    obtain ⟨line, found⟩ := acyclic.exists_line
    rw [declares.overridden?_eq, found.ancestors_eq, tail_cons]
    cases line with
    | nil =>
      rw [show t.superclass? owner = none from found]
      rfl
    | cons parent line => rw [found.1, Option.bind_some, resolveMethod?, found.2.ancestors_eq]
  farther acyclic m' found := by
    obtain ⟨other, mem, _, declares'⟩ := h.above declares found
    obtain ⟨line, whole⟩ := acyclic.exists_line
    rw [whole.ancestors_eq, tail_cons] at mem ⊢
    obtain ⟨before, after, rfl⟩ := append_of_mem mem
    exact ⟨other, declares', whole.of_append.ancestors_eq ▸ suffix_append _ _⟩
  ends acyclic := by
    obtain ⟨line, whole⟩ := acyclic.exists_line
    exact h.overriding_ends whole declares

theorem overriding_follows_inheritance (changes : List Change)
    (built : build? changes initial = some t) :
    (∀ owner x m, t.resolveMethod? owner x = some m ↔ ∃ near other far,
      t.ancestors owner = near ++ other :: far ∧ t.HasMethod other x m ∧
        ∀ skipped ∈ near, ∀ m, ¬ t.HasMethod skipped x m) ∧
    ∀ owner x m, t.DeclaresMethod owner x m → t.Linked owner x m :=
  ⟨fun _ _ _ => findMember?_isMethod, fun _ _ _ => (initial_sound.build built).linked⟩

/-- Between two classes with a method stands one with a field of the same name. -/
def interrupted : List Change :=
  [.scope (some builtinScope) .topLevel, .declare (.class none) ⟨5⟩ "A" none,
    .declare .function ⟨6⟩ "f" none, .declare (.class (some "A")) ⟨5⟩ "B" none,
    .declare .field ⟨8⟩ "f" none, .declare (.class (some "B")) ⟨5⟩ "C" none,
    .declare .function ⟨9⟩ "f" none]

theorem overriding_follows_inheritance_interrupted : ∃ t, build? interrupted initial = some t ∧
    t.Linked ⟨19⟩ "f" ⟨20⟩ ∧ t.overridden? ⟨20⟩ = some ⟨16⟩ :=
  ⟨_, rfl, (overriding_follows_inheritance interrupted rfl).2 _ _ _ ⟨_, rfl, rfl, rfl, rfl⟩,
    by decide⟩

end BlFront.SymbolTable
