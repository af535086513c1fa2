import BlFront.Proofs.Analysis.ClassTypes
import BlFront.Proofs.Analysis.Members

/-!
# Two ways to look up a member

A type knows the members of its class in the order of their declarations, and the first one with a
name counts.  The table of symbols keeps the last one, and a method there hides a field.  Both
searches go along the superclasses in the same way, so they agree on every name that is declared once
in the class where they end.
-/

namespace BlFront

open List SymbolTable

variable {supers : List ClassRow} {x : String}

/-! ### Searches -/

section Options

variable {α β : Type} {a : Option α} {b : Option β}

theorem isSome_eq_of_rel {R : α → β → Prop} (h : Option.Rel R a b) : b.isSome = a.isSome := by
  cases h <;> rfl

theorem rel_of_isSome_eq (h : b.isSome = a.isSome) : Option.Rel (fun _ _ => True) a b := by
  cases a <;> cases b <;> first | exact .none | exact .some trivial | cases h

end Options

/-- Two searches find related things if they do where both have found nothing before. -/
theorem rel_findSome? {α β γ : Type} {R : β → γ → Prop} {f : α → Option β} {g : α → Option γ}
    {l : List α} (h : ∀ before a after, l = before ++ a :: after → (∀ b ∈ before, g b = none) →
      Option.Rel R (f a) (g a)) :
    Option.Rel R (l.findSome? f) (l.findSome? g) := by
  induction l with
  | nil => exact .none
  | cons a l ih =>
    have first := h [] a l rfl (by simp)
    rw [List.findSome?_cons, List.findSome?_cons]
    cases found : g a with
    | none =>
      rw [found] at first
      generalize f a = nothing at first
      cases first
      refine ih fun before b after same missing => ?_
      exact h (a :: before) b after (by rw [same, cons_append])
        (forall_mem_cons.mpr ⟨found, missing⟩)
    | some c =>
      rw [found] at first
      generalize f a = something at first
      cases first with
      | some here => exact .some here

/-- The last one is the first one if there is only one. -/
theorem reverse_find? {α : Type} {p : α → Bool} {l : List α} (once : l.countP p ≤ 1) :
    l.reverse.find? p = l.find? p := by
  rw [← List.head?_filter, ← List.head?_filter, filter_reverse]
  rw [countP_eq_length_filter] at once
  generalize l.filter p = found at once
  cases found with
  | nil => rfl
  | cons first rest =>
    cases rest with
    | nil => rfl
    | cons second rest => simp at once

namespace Typing

variable {given : Typing}

/-- The first declaration with a name tells what a look-up finds. -/
theorem Declares.lookup? {declared : List (String × NodeId)} {members : List Member}
    (h : given.Declares declared members) (name : String) :
    Option.Rel (fun d type => ∃ symbol : SymbolId, given.Means d.2 symbol ∧ given.HasType symbol type)
      (declared.find? (·.1 == name)) (Member.lookup? name members) := by
  induction h with
  | nil => exact .none
  | @cons d member declared members first _ ih =>
    rw [Member.lookup?, List.find?_cons, List.find?_cons, first.1]
    cases d.1 == name with
    | true => exact .some first.2
    | false => exact ih

end Typing

/-! ### What is to agree -/

def ClassDecl.fieldNames (decl : ClassDecl) : List String := decl.fields.map (·.name)

def ClassDecl.methodNames (decl : ClassDecl) : List String := decl.methods.map (·.name)

def ClassDecl.memberNames (decl : ClassDecl) : List String := decl.fieldNames ++ decl.methodNames

namespace Typing

variable (given : Typing) (unit : CompilationUnit)

/-- A class is declared without a member of a name. -/
def Lacks (members : ClassDecl → List String) (x : String) (symbol : SymbolId) : Prop :=
  ∃ near decl, unit.HasStmt near (.classDecl decl) ∧ given.Means decl.tag.id symbol ∧ x ∉ members decl

/-- The nearest class from which a class inherits a member with a name has no other with it. -/
def InheritsOnce (members names : ClassDecl → List String) (symbol : SymbolId) (x : String) : Prop :=
  ∀ before s after, given.table.ancestors symbol = before ++ s :: after →
    (∀ other ∈ before, given.Lacks unit members x other) →
      ∀ near decl, unit.HasStmt near (.classDecl decl) → given.Means decl.tag.id s →
        x ∈ members decl → (names decl).count x ≤ 1

/-- Neither look-up finds anything, or the one finds the type of the symbol that the other finds. -/
def Agree (symbol : Option SymbolId) (type : Option Ty) : Prop :=
  Option.Rel (fun s type => given.HasType (.symbol s) type) symbol type

/-- How far the look-up of members in types agrees with that in the table. -/
structure MembersAgree : Prop where
  ofClass : ∀ s, given.table.hasKind (·.isClass) s = true → ∃ own supers,
    own.symbol = s ∧ given.HasType s (.object own supers) ∧ ∀ x,
      (ClassRow.lookup? (·.methods) x (own :: supers)).isSome =
          (given.table.resolveMethod? s x).isSome ∧
        (given.InheritsOnce unit ClassDecl.methodNames ClassDecl.methodNames s x →
          given.Agree (given.table.resolveMethod? s x)
            (ClassRow.lookup? (·.methods) x (own :: supers))) ∧
        (given.InheritsOnce unit ClassDecl.fieldNames ClassDecl.memberNames s x →
          given.Agree (given.table.resolveField? s x)
            (ClassRow.lookup? (·.fields) x (own :: supers)))
  ofStruct : ∀ s members, given.table.kind? s = some (.structType members) → ∃ name fields,
    given.HasType s (.struct s name fields) ∧ ∀ x,
      (Member.lookup? x fields).isSome = (given.table.resolveField? s x).isSome ∧
        ((∀ near decl, unit.HasStmt near (.structDecl decl) → given.Means decl.tag.id s →
            (decl.fields.map (·.name)).count x ≤ 1) →
          given.Agree (given.table.resolveField? s x) (Member.lookup? x fields))
  /-- A call of a method has the type that its symbol says, and is checked against its parameters. -/
  ofCall : ∀ near tag receiver method args,
    unit.HasExpr near (.methodCall tag receiver method args) → ∃ own supers symbol params result,
      given.HasType receiver.id (.object own supers) ∧ given.Means tag.id symbol ∧
        given.HasType tag.id result ∧
        Checks.methodParameters method (.object own supers) = some params ∧
        given.Accepts params args ∧
        (given.InheritsOnce unit ClassDecl.methodNames ClassDecl.methodNames own.symbol method →
          given.HasType symbol (.function params result))

end Typing

namespace Analysis

open Names

variable {unit : CompilationUnit} {a a₁ a₂ : Analysis}

/-! ### Members of one struct or class -/

section Members

variable {α : Type} {name : α → String} {node : α → NodeId} {l : List α} {members : List Member}

/-- The last of some declarations with a name, and what a look-up finds among their members. -/
theorem rel_lookup? (declares : a.typing.Declares (l.map fun m => (name m, node m)) members)
    (x : String) :
    Option.Rel (fun _ _ => True)
        ((l.reverse.find? (name · == x)).map fun m => symbolAt a.reactor (node m))
        (Member.lookup? x members) ∧
      ((l.map name).count x ≤ 1 → Option.Rel (fun s type => a.typing.HasType (.symbol s) type)
        ((l.reverse.find? (name · == x)).map fun m => symbolAt a.reactor (node m))
        (Member.lookup? x members)) := by
  have found := declares.lookup? x
  rw [List.find?_map] at found
  refine ⟨?_, fun once => ?_⟩
  · refine rel_of_isSome_eq ((isSome_eq_of_rel found).trans (Bool.eq_iff_iff.mpr ?_))
    simp [List.find?_isSome]
  · rw [List.count, countP_map] at once
    rw [reverse_find? (p := (name · == x)) once]
    change Option.Rel _ ((l.find? (name · == x)).map _) _ at found
    generalize l.find? (name · == x) = first, Member.lookup? x members = type at found
    cases first with
    | none =>
      cases found
      exact .none
    | some m =>
      cases found with
      | some here =>
        obtain ⟨symbol, means, typed⟩ := here
        rw [Option.map_some, symbolAt_eq (means_iff.mp means)]
        exact .some typed

/-- A member that is not found is not declared. -/
theorem not_mem_of_lookup? (declares : a.typing.Declares (l.map fun m => (name m, node m)) members)
    (missing : Member.lookup? x members = none) : x ∉ l.map name := by
  have found := isSome_eq_of_rel (declares.lookup? x)
  rw [missing, List.find?_map, Option.isSome_map, Option.isSome_none] at found
  intro mem
  obtain ⟨m, listed, rfl⟩ := mem_map.mp mem
  have : (l.find? fun d => name d == name m).isSome = true :=
    List.find?_isSome.mpr ⟨m, listed, beq_self_eq_true _⟩
  exact Bool.false_ne_true (found.trans this)

end Members

theorem count_le_one {names : List String} (once : x ∈ names → names.count x ≤ 1) :
    names.count x ≤ 1 := by
  by_cases mem : x ∈ names
  · exact once mem
  · rw [count_eq_zero_of_not_mem mem]
    exact Nat.zero_le 1

/-- A method comes behind all fields. -/
theorem last_member (decl : ClassDecl) (x : String) :
    (Part.classDecl decl).children.reverse.find? (·.declaredName == x) =
      ((decl.methods.reverse.find? (·.name == x)).map .function).or
        ((decl.fields.reverse.find? (·.name == x)).map .field) := by
  rw [Part.children, reverse_append, List.find?_append, ← map_reverse, ← map_reverse,
    List.find?_map, List.find?_map]
  rfl

section Searches

variable (numbered : unit.WellNumbered) (bound : Bindings unit a.reactor)

include numbered bound

theorem findMethod?_class {decl : ClassDecl} (entered : .classDecl decl ∈ unit.entered) (x : String) :
    (table unit).findMember? [symbolAt a.reactor decl.tag.id] (·.isMethod) x =
      (decl.methods.reverse.find? (·.name == x)).map fun m => symbolAt a.reactor m.tag.id := by
  refine (findMember?_owner numbered bound entered rfl _ x).trans ?_
  rw [last_member]
  cases decl.methods.reverse.find? (·.name == x) with
  | some m => rfl
  | none => cases decl.fields.reverse.find? (·.name == x) <;> rfl

theorem findField?_class {decl : ClassDecl} (entered : .classDecl decl ∈ unit.entered)
    (once : x ∈ decl.fieldNames → decl.memberNames.count x ≤ 1) :
    (table unit).findMember? [symbolAt a.reactor decl.tag.id] (·.isField) x =
      (decl.fields.reverse.find? (·.name == x)).map fun f => symbolAt a.reactor f.tag.id := by
  refine (findMember?_owner numbered bound entered rfl _ x).trans ?_
  rw [last_member]
  cases method : decl.methods.reverse.find? (·.name == x) with
  | none => cases decl.fields.reverse.find? (·.name == x) <;> rfl
  | some m =>
    cases field : decl.fields.reverse.find? (·.name == x) with
    | none => rfl
    | some f =>
      have isField : x ∈ decl.fieldNames := mem_map.mpr
        ⟨f, mem_reverse.mp (mem_of_find?_eq_some field), by simpa using List.find?_some field⟩
      have isMethod : x ∈ decl.methodNames := mem_map.mpr
        ⟨m, mem_reverse.mp (mem_of_find?_eq_some method),
          by simpa using List.find?_some method⟩
      have first := one_le_count_iff.mpr isField
      have second := one_le_count_iff.mpr isMethod
      have single := once isField
      rw [ClassDecl.memberNames, count_append] at single
      omega

theorem findField?_struct {decl : StructDecl} (entered : .structDecl decl ∈ unit.entered) (x : String) :
    (table unit).findMember? [symbolAt a.reactor decl.tag.id] (·.isField) x =
      (decl.fields.reverse.find? (·.name == x)).map fun f => symbolAt a.reactor f.tag.id := by
  refine (findMember?_owner numbered bound entered rfl _ x).trans ?_
  rw [Part.children, ← map_reverse, List.find?_map]
  change Option.map _ (Option.filter _ ((decl.fields.reverse.find? (·.name == x)).map _)) = _
  cases decl.fields.reverse.find? (·.name == x) <;> rfl

end Searches

/-! ### Along superclasses -/

theorem findMember?_eq (t : SymbolTable) (owners : List SymbolId) (wanted : SymbolKind → Bool)
    (x : String) :
    t.findMember? owners wanted x = owners.findSome? fun s => t.findMember? [s] wanted x := by
  simp [findMember?]

theorem exists_of_forall₂ {α β : Type} {R : α → β → Prop} {as : List α} {bs : List β}
    (h : List.Forall₂ R as bs) {b : β} (mem : b ∈ bs) : ∃ a, R a b := by
  induction h with
  | nil => cases mem
  | cons first _ ih =>
    rcases mem_cons.mp mem with rfl | mem
    · exact ⟨_, first⟩
    · exact ih mem

/-- Searches along a class type and along the superclasses of its symbol find related members if they
do so in every class in front of which nothing is found. -/
theorem Typed.rel_chain (h : Typed unit a₁ a₂) (numbered : unit.WellNumbered) (own : ClassRow)
    (typed : a₂.typing.HasType own.symbol (.object own supers)) {R : SymbolId → Ty → Prop}
    {members : ClassRow → List Member} {wanted : SymbolKind → Bool}
    (each : ∀ (before : List ClassRow) row after decl, a₂.symbols.ancestors own.symbol =
        before.map ClassRow.symbol ++ row.symbol :: after →
      (∀ other ∈ before, ∃ decl, a₂.DeclaresRow unit decl other ∧
        Member.lookup? x (members other) = none) →
      .classDecl decl ∈ unit.entered → a₂.DeclaresRow unit decl row →
      row.symbol = symbolAt a₂.reactor decl.tag.id →
        Option.Rel R ((table unit).findMember? [row.symbol] wanted x) (Member.lookup? x (members row))) :
    Option.Rel R (a₂.symbols.findMember? (a₂.symbols.ancestors own.symbol) wanted x)
      (ClassRow.lookup? members x (own :: supers)) := by
  have cohere := h.classTypesCohere numbered
  have chain := cohere.chain ⟨_, _, hasType_iff.mp typed, .here⟩
  obtain ⟨decls, declared⟩ := h.declaresRows numbered typed
  rw [findMember?_eq, ← chain, List.findSome?_map, h.symbols_eq]
  refine rel_findSome? fun before row after rows missing => ?_
  rw [rows] at chain declared
  obtain ⟨decl, declares⟩ := exists_of_forall₂ declared (b := row) (by simp)
  obtain ⟨near, has⟩ := declares.declared
  refine each before row (after.map ClassRow.symbol) decl (by simp [← chain]) (fun other mem => ?_)
    has.entered declares (Names.symbolAt_eq (means_iff.mp declares.means)).symm
  obtain ⟨decl, declares⟩ := exists_of_forall₂ declared (b := other) (by simp [mem])
  exact ⟨decl, declares, missing other mem⟩

/-- A row in front of which the rows lack a member declares it once. -/
theorem DeclaresRow.count_le_one {decl : ClassDecl} {row : ClassRow} {own : SymbolId}
    {members names : ClassDecl → List String} {before : List ClassRow} {after : List SymbolId}
    (declares : a.DeclaresRow unit decl row) (once : a.typing.InheritsOnce unit members names own x)
    (split : a.symbols.ancestors own = before.map ClassRow.symbol ++ row.symbol :: after)
    (missing : ∀ other ∈ before, ∃ decl, a.DeclaresRow unit decl other ∧ x ∉ members decl)
    (mem : x ∈ members decl) : (names decl).count x ≤ 1 := by
  obtain ⟨near, has⟩ := declares.declared
  refine once _ _ _ split (forall_mem_map.mpr fun other listed => ?_) near decl has declares.means mem
  obtain ⟨decl, declares, lacks⟩ := missing other listed
  obtain ⟨near, has⟩ := declares.declared
  exact ⟨near, decl, has, declares.means, lacks⟩

/-! ### Agreement -/

variable {a₃ a₄ : Analysis}

theorem Typed.methods_agree (h : Typed unit a₁ a₂) (numbered : unit.WellNumbered) (own : ClassRow)
    (typed : a₂.typing.HasType own.symbol (.object own supers)) (x : String) :
    (ClassRow.lookup? (·.methods) x (own :: supers)).isSome =
        (a₂.symbols.resolveMethod? own.symbol x).isSome ∧
      (a₂.typing.InheritsOnce unit ClassDecl.methodNames ClassDecl.methodNames own.symbol x →
        a₂.typing.Agree (a₂.symbols.resolveMethod? own.symbol x)
          (ClassRow.lookup? (·.methods) x (own :: supers))) := by
  refine ⟨isSome_eq_of_rel (R := fun _ _ => True) (h.rel_chain numbered own typed ?_),
    fun once => h.rel_chain numbered own typed ?_⟩
  · intro _ row _ decl _ _ entered declares symbol
    rw [symbol, findMethod?_class numbered h.bindings entered]
    exact (rel_lookup? declares.methods x).1
  · intro before row after decl split missing entered declares symbol
    rw [symbol, findMethod?_class numbered h.bindings entered]
    refine (rel_lookup? declares.methods x).2 (count_le_one ?_)
    refine declares.count_le_one once split fun other listed => ?_
    obtain ⟨decl, declares, none⟩ := missing other listed
    exact ⟨decl, declares, not_mem_of_lookup? declares.methods none⟩

theorem Typed.fields_agree (h : Typed unit a₁ a₂) (numbered : unit.WellNumbered) (own : ClassRow)
    (typed : a₂.typing.HasType own.symbol (.object own supers))
    (isClass : a₂.symbols.hasKind (·.isClass) own.symbol = true)
    (once : a₂.typing.InheritsOnce unit ClassDecl.fieldNames ClassDecl.memberNames own.symbol x) :
    a₂.typing.Agree (a₂.symbols.resolveField? own.symbol x)
      (ClassRow.lookup? (·.fields) x (own :: supers)) := by
  rw [resolveField?, if_pos isClass]
  refine h.rel_chain numbered own typed ?_
  intro before row after decl split missing entered declares symbol
  have single : x ∈ decl.fieldNames → decl.memberNames.count x ≤ 1 := by
    refine declares.count_le_one once split fun other listed => ?_
    obtain ⟨decl, declares, none⟩ := missing other listed
    exact ⟨decl, declares, not_mem_of_lookup? declares.fields none⟩
  rw [symbol, findField?_class numbered h.bindings entered single]
  refine (rel_lookup? declares.fields x).2 (count_le_one fun mem => ?_)
  have both := single mem
  rw [ClassDecl.memberNames, count_append] at both
  exact Nat.le_of_add_right_le both

theorem Typed.exists_structDecl (h : Typed unit a₁ a₂) {s : SymbolId} {members : ScopeId}
    (kind : (table unit).kind? s = some (.structType members)) :
    ∃ decl, .structDecl decl ∈ unit.entered ∧ symbolAt a₁.reactor decl.tag.id = s := by
  obtain ⟨part, kind, entered, declares, isStruct, symbol⟩ := h.exists_declaring
    (fun k => k.isType && !k.isClass && k.members?.isSome) (s := s) (by decide)
    (by rw [hasKind, kind]; rfl)
  cases kind <;> cases isStruct
  cases part with
  | structDecl decl => exact ⟨decl, entered, symbol _ rfl⟩
  | _ => cases declares

/-- The symbol of a declaration after the pass over types. -/
theorem Typed.symbolAt_later (h : Typed unit a₁ a₂) {part : Part} (entered : part ∈ unit.entered)
    (declares : isDeclaration part = true) {n : NodeId} (node : part.id? = some n) :
    symbolAt a₂.reactor n = symbolAt a₁.reactor n :=
  Names.symbolAt_eq (h.passed.keeps.get? (h.named.done.bindings.symbolAt entered declares node).2)

theorem Checked.struct_agrees (h : Checked unit a₁ a₂ a₃ a₄) (numbered : unit.WellNumbered)
    {s : SymbolId} {members : ScopeId} (kind : a₂.symbols.kind? s = some (.structType members)) :
    ∃ name fields, a₂.typing.HasType s (.struct s name fields) ∧ ∀ x,
      (Member.lookup? x fields).isSome = (a₂.symbols.resolveField? s x).isSome ∧
        ((∀ near decl, unit.HasStmt near (.structDecl decl) → a₂.typing.Means decl.tag.id s →
            (decl.fields.map (·.name)).count x ≤ 1) →
          a₂.typing.Agree (a₂.symbols.resolveField? s x) (Member.lookup? x fields)) := by
  have typed := h.known.typed
  have plain : a₂.symbols.hasKind (·.isClass) s = false := by
    rw [hasKind, kind]
    rfl
  rw [typed.symbols_eq] at kind
  obtain ⟨decl, entered, symbol⟩ := typed.exists_structDecl kind
  obtain ⟨name, fields, hasType, declares⟩ := h.known.struct_typed entered
  rw [symbol] at hasType
  have later := typed.symbolAt_later entered rfl rfl
  have means : a₂.typing.Means decl.tag.id s := by
    rw [← symbol, ← later]
    exact means_iff.mpr (typed.bindings.symbolAt entered rfl rfl).2
  refine ⟨name, fields, hasType, fun x => ?_⟩
  rw [resolveField?, if_neg (by simp [plain]), typed.symbols_eq, ← symbol, ← later,
    findField?_struct numbered typed.bindings entered]
  obtain ⟨found, agree⟩ := rel_lookup? declares x
  refine ⟨isSome_eq_of_rel found, fun once => agree ?_⟩
  obtain ⟨near, has⟩ := CompilationUnit.stands_of_entered entered
  exact once near decl has (later ▸ symbol ▸ means)

theorem Checked.members_agree (h : Checked unit a₁ a₂ a₃ a₄) (numbered : unit.WellNumbered) :
    a₂.typing.MembersAgree unit := by
  have typed := h.known.typed
  refine ⟨fun s isClass => ?_, fun s members kind => h.struct_agrees numbered kind,
    fun near tag receiver method args has => ?_⟩
  · have isClass' : (table unit).hasKind (·.isClass) s = true := by
      rw [← typed.typing_table]
      exact isClass
    obtain ⟨decl, entered, rfl⟩ := typed.exists_classDecl isClass'
    obtain ⟨name, fields, methods, supers, hasType, _⟩ := h.known.class_typed entered
    refine ⟨⟨_, name, fields, methods⟩, supers, rfl, hasType, fun x => ?_⟩
    obtain ⟨found, agree⟩ := typed.methods_agree numbered ⟨_, name, fields, methods⟩ hasType x
    exact ⟨found, agree, typed.fields_agree numbered ⟨_, name, fields, methods⟩ hasType isClass⟩
  · obtain ⟨type, hasType, rule⟩ := h.wellTyped.exprs has
    cases rule with
    | @methodCall _ _ _ _ own supers symbol params _ receives means resolved found accepts =>
      refine ⟨own, supers, symbol, params, type, receives, means, hasType, ?_, accepts, fun once => ?_⟩
      · rw [Checks.methodParameters, found]
        rfl
      · have ofClass := (typed.fits_hasType numbered (hasType_iff.mp receives)).of_occursIn .here
        have agree := (typed.methods_agree numbered own ofClass method).2 once
        rw [found, show a₂.symbols.resolveMethod? own.symbol method = some symbol from resolved] at agree
        cases agree with
        | some hasType => exact hasType

end Analysis

/-- In an accepted unit, members are found by the types of classes and structs just where they are found
by the symbols, fields that a method hides apart, and have the types of these unless the name is
declared twice where the search ends. -/
theorem member_lookups_agree (unit : CompilationUnit) (a : Analysis) (h : analyze unit = .ok a) :
    a.typing.MembersAgree unit := by
  obtain ⟨_, before, _⟩ := (analyzeUntil_eq_ok .checkTypes rfl).mp h
  obtain ⟨numbered, _⟩ := checked_of_analyzeUntil before
  obtain ⟨a₁, a₂, a₃, a₄, accepted⟩ := accepted_of_analyze h
  rw [accepted.typing_eq]
  exact accepted.checked.members_agree numbered

theorem member_lookups_agree_family :
    ∃ a, analyze family = .ok a ∧ a.typing.MembersAgree family := by
  obtain ⟨a, accepted⟩ : ∃ a, analyze family = .ok a := exists_of_isOk (by decide +kernel)
  exact ⟨a, accepted, member_lookups_agree family a accepted⟩

/-- A class with two methods of one name, and a call. -/
def overloaded : CompilationUnit :=
  (Parser.ofText ("class C \x7b fun m() -> Int \x7b return 1; \x7d fun m() -> String " ++
    "\x7b return \"\"; \x7d \x7d fun f(c: C) -> Unit \x7b c.m(); \x7d").toList).unit

/-- The call is bound to the last of the methods, and has the type that the first one gives. -/
theorem overloaded_call_mistyped : ∃ a s, analyze overloaded = .ok a ∧ a.symbolOf? ⟨15⟩ = some s ∧
    (a.typeOf? (.symbol s)).map Ty.text = some "() -> String" ∧
    (a.typeOf? (.node ⟨15⟩)).map Ty.text = some "Int" := by
  have found : (analyze overloaded).toOption.any (fun a => (a.symbolOf? ⟨15⟩).any fun s =>
      (a.typeOf? (.symbol s)).map Ty.text == some "() -> String" &&
        (a.typeOf? (.node ⟨15⟩)).map Ty.text == some "Int") = true := by
    decide +kernel
  cases accepted : analyze overloaded with
  | error e => simp [accepted, Except.toOption] at found
  | ok a =>
    rw [accepted, Except.toOption, Option.any_some] at found
    obtain ⟨s, bound, texts⟩ := (Option.any_eq_true _ _).mp found
    rw [Bool.and_eq_true, beq_iff_eq, beq_iff_eq] at texts
    exact ⟨a, s, rfl, bound, texts⟩

end BlFront
