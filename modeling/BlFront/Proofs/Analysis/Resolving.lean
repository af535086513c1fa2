import BlFront.Proofs.Analysis.Lexical
import BlFront.Proofs.Analysis.Stages

/-!
# What the pass over names leaves

Whether or not the pass over names finds errors, it binds every name to what it means where it
stands, and it reports one error for each node at fault: a name that means nothing, a return outside
of functions, `self` outside of classes, and a class with a bad superclass.
-/

namespace BlFront.Names

open List SymbolTable

variable {m : List Visit × Visit} {e : SemanticError} {name : String} {t : SymbolTable} {tag : Tag}
  {w : Walk}

/-! ### Moments of a tour -/

/-- The visits of a tour, each with those before it. -/
def momentsFrom : List Visit → List Visit → List (List Visit × Visit)
  | _, [] => []
  | before, v :: visits => (before, v) :: momentsFrom (before ++ [v]) visits

theorem mem_momentsFrom {before visits : List Visit} :
    m ∈ momentsFrom before visits ↔
      ∃ middle after, visits = middle ++ m.2 :: after ∧ m.1 = before ++ middle := by
  induction visits generalizing before with
  | nil => simp [momentsFrom]
  | cons v visits ih =>
    rw [momentsFrom, mem_cons, ih]
    constructor
    · rintro (rfl | ⟨middle, after, rfl, same⟩)
      · exact ⟨[], visits, rfl, (append_nil _).symm⟩
      · exact ⟨v :: middle, after, rfl, by rw [same, append_assoc]; rfl⟩
    · rintro ⟨middle, after, split, same⟩
      cases middle with
      | nil =>
        cases split
        exact .inl (Prod.ext (by rw [same, append_nil]) rfl)
      | cons first middle =>
        cases split
        exact .inr ⟨middle, after, rfl, by rw [same, append_assoc]; rfl⟩

variable {unit : CompilationUnit}

theorem mem_moments :
    m ∈ momentsFrom [] unit.tour ↔ ∃ after, unit.tour = m.1 ++ m.2 :: after := by
  rw [mem_momentsFrom]
  constructor
  · rintro ⟨middle, after, split, same⟩
    rw [nil_append] at same
    exact ⟨after, same ▸ split⟩
  · rintro ⟨after, split⟩
    exact ⟨m.1, after, split, rfl⟩

theorem map_snd_momentsFrom (before visits : List Visit) :
    (momentsFrom before visits).map Prod.snd = visits := by
  induction visits generalizing before with
  | nil => rfl
  | cons v visits ih => rw [momentsFrom, map_cons, ih]

theorem walkTo_snoc (unit : CompilationUnit) (before : List Visit) (v : Visit) :
    walkTo unit (before ++ [v]) = (walkTo unit before).visit v := by
  rw [walkTo, foldl_append]
  rfl

theorem requests_walkTo (unit : CompilationUnit) (before visits : List Visit) :
    (walkTo unit (before ++ visits)).requests = (walkTo unit before).requests ++
      (momentsFrom before visits).flatMap fun m => (walkTo unit m.1).asks m.2 := by
  induction visits generalizing before with
  | nil => simp [momentsFrom]
  | cons v visits ih =>
    have rest := ih (before ++ [v])
    rw [append_assoc, singleton_append] at rest
    rw [rest, walkTo_snoc, Walk.requests_visit, momentsFrom, flatMap_cons, append_assoc]

/-- The class that a visit enters. -/
def classEntered? (v : Visit) : Option ClassDecl := v.declaring?.bind classOf?

theorem classes_walkTo (before visits : List Visit) {after : List Visit}
    (split : unit.tour = before ++ (visits ++ after)) :
    (walkTo unit (before ++ visits)).classes = (walkTo unit before).classes ++
      (momentsFrom before visits).flatMap fun m =>
        (classEntered? m.2).toList.map ((walkTo unit m.1).table.nextSymbol, ·) := by
  induction visits generalizing before with
  | nil => simp [momentsFrom]
  | cons v visits ih =>
    have rest := ih (before ++ [v]) (by simpa using split)
    rw [append_assoc, singleton_append] at rest
    have tracks := walkTo_tracks split
    have nested := nested_right (split ▸ unit.nested)
    have step : ((walkTo unit before).visit v).classes = (walkTo unit before).classes ++
        (classEntered? v).toList.map ((walkTo unit before).table.nextSymbol, ·) := by
      cases v with
      | enter part => exact (tracks.enter part).classes
      | leave part =>
        obtain ⟨first, _⟩ := nested
        obtain ⟨outer, same⟩ : ∃ outer, openAfter before = part :: outer :=
          ⟨_, eq_cons_of_mem_head? first⟩
        rw [same] at tracks
        exact tracks.leave.classes
    rw [rest, walkTo_snoc, step, momentsFrom, flatMap_cons, append_assoc]

variable {unit : CompilationUnit} {before after : List Visit}

/-- The requests of the pass, moment by moment. -/
theorem plan_eq (unit : CompilationUnit) : (plan unit .initial).2 =
    .seed (AttrName.scope.of unit.tag.id) (.scope builtinScope) ::
      ((momentsFrom [] unit.tour).flatMap fun m => (walkTo unit m.1).asks m.2) ++
      (momentsFrom [] unit.tour).flatMap fun m => (classEntered? m.2).toList.flatMap fun decl =>
        superclassRequests (table unit) (walkTo unit m.1).table.nextSymbol decl := by
  have requests := requests_walkTo unit [] unit.tour
  have classes := classes_walkTo [] unit.tour (append_nil unit.tour).symm
  rw [nil_append] at requests classes
  have all : (plan unit .initial).2 = (walkTo unit unit.tour).requests ++
      (walkTo unit unit.tour).classes.flatMap fun c =>
        superclassRequests (table unit) c.1 c.2 := rfl
  rw [all, requests, classes]
  change _ ++ (([] ++ _ : List (SymbolId × ClassDecl)).flatMap _) = _
  rw [nil_append, flatMap_assoc]
  simp only [flatMap_map]
  rfl

/-- The only rules of the pass are those for names that are looked up again. -/
theorem eq_lateRule_of_mem_plan {rule : Rule} (mem : .register rule ∈ (plan unit .initial).2) :
    ∃ tag name, rule = lateRule tag name := by
  rw [plan_eq] at mem
  rcases mem_append.mp mem with mem | mem
  · rcases mem_cons.mp mem with seed | mem
    · cases seed
    · obtain ⟨⟨before, v⟩, _, asked⟩ := mem_flatMap.mp mem
      cases asked_of_mem asked with
      | later named _ => exact ⟨_, _, rfl⟩
  · obtain ⟨m, _, mem⟩ := mem_flatMap.mp mem
    obtain ⟨decl, _, mem⟩ := mem_flatMap.mp mem
    unfold superclassRequests at mem
    split at mem
    · cases mem
    · dsimp only at mem
      split at mem
      · cases mem_singleton.mp mem
      · split at mem <;> cases mem_singleton.mp mem

theorem mem_plan_of_mem_asks {v : Visit} (split : unit.tour = before ++ v :: after) {q : Request}
    (asked : q ∈ (walkTo unit before).asks v) : q ∈ (plan unit .initial).2 := by
  rw [plan_eq]
  refine mem_append_left _ (.tail _ (mem_flatMap.mpr ⟨(before, v), ?_, asked⟩))
  exact mem_moments.mpr ⟨after, split⟩

/-! ### What a moment asks for -/

variable {part : Part}

theorem asks_named (named : named? part = some (tag, name)) : w.asks (.enter part) =
      [.seed (AttrName.scope.of tag.id) (.scope w.scope),
        (w.table.lookup? w.scope name).elim (.register (lateRule tag name)) (binding tag.id)] := by
  have looked : ∀ w' : Walk, (w'.resolveName tag name).requests = w'.requests ++
      [(w'.table.lookup? w'.scope name).elim (.register (lateRule tag name)) (binding tag.id)] := by
    intro w'
    unfold Walk.resolveName
    cases w'.table.lookup? w'.scope name <;> rfl
  cases part with
  | expr e expected =>
    cases e with
    | reference tag name =>
      cases named
      exact looked _
    | _ => cases named
  | type t =>
    cases t with
    | named tag name =>
      cases named
      exact looked _
    | array tag element => cases named
  | _ => cases named

/-- What is asked about a node that must stand inside of something. -/
def containment (attr : Attribute) (error : SemanticError) (found : Option SymbolId) : Request :=
  found.elim (.reject error [attr]) fun s => .seed attr (.symbol s)

theorem requests_containing (w : Walk) (attr : Attribute) (found : Option SymbolId) (span : Span)
    (message : String) : (w.containing attr found span message).requests =
      w.requests ++ [containment attr ⟨span, message⟩ found] := by
  cases found <;> rfl

theorem asks_return (w : Walk) (tag : Tag) (value : Option Expr) :
    w.asks (.enter (.returnStmt tag value)) =
      [.seed (AttrName.scope.of tag.id) (.scope w.scope),
        containment (AttrName.containingFunction.of tag.id) ⟨tag.span, "return outside of function"⟩
          (w.table.containingFunction? w.scope)] :=
  requests_containing _ _ _ _ _

theorem asks_self (w : Walk) (tag : Tag) (expected : Option Expected) :
    w.asks (.enter (.expr (.selfRef tag) expected)) =
      [.seed (AttrName.scope.of tag.id) (.scope w.scope),
        containment (AttrName.containingClass.of tag.id) ⟨tag.span, "self outside of class"⟩
          (w.table.containingClass? w.scope)] :=
  requests_containing _ _ _ _ _

/-! ### Faults -/

/-- The declaration of a class that is entered after some visits. -/
def classAt (before : List Visit) (decl : ClassDecl) : Declaration :=
  .ofPart (.classDecl decl, openAfter before)
    ⟨initial.symbols.length + (declaredFrom [] before).length⟩

variable {decl : ClassDecl}

theorem classAt_mem (split : unit.tour = before ++ .enter (.classDecl decl) :: after) :
    classAt before decl ∈ declaredBy unit.tour := by
  refine mem_declaredBy.mpr (.inr ⟨((.classDecl decl, openAfter before),
    initial.symbols.length + (declaredFrom [] before).length), ?_, rfl⟩)
  rw [split, declaredFrom, pickedFrom_append, zipIdx_append]
  exact mem_append_right _ (.head _)

theorem symbol_classAt (numbered : unit.WellNumbered) (split : unit.tour = before ++ after)
    (decl : ClassDecl) : (classAt before decl).symbol = (walkTo unit before).table.nextSymbol := by
  have length := (walkTo_lays numbered split).length_symbols
  rw [← map_fst_pickedFrom _ [], length_map] at length
  exact congrArg SymbolId.mk length.symm

/-- A name that means nothing. -/
def unknown? (unit : CompilationUnit) (before : List Visit) (tag : Tag) (name : String) :
    Option SemanticError :=
  if (meaning? unit before name).isSome then none
  else some ⟨tag.span, "unknown identifier: " ++ name⟩

/-- A class whose superclass is bad. -/
def badSuperclass? (unit : CompilationUnit) (d : Declaration) (decl : ClassDecl) :
    Option SemanticError :=
  decl.superclass.bind fun written =>
    if (superclassOf? unit d).isNone then
      some ⟨written.span, "unknown superclass " ++ written.name⟩
    else if (table unit).isCyclic d.symbol then
      some ⟨written.span, "cyclic inheritance involving " ++ decl.name⟩
    else none

/-- A part that must not stand where it is entered after some visits. -/
def misplaced? (unit : CompilationUnit) (before : List Visit) : Part → Option SemanticError
  | .expr (.reference tag name) _ => unknown? unit before tag name
  | .type (.named tag name) => unknown? unit before tag name
  | .returnStmt tag _ =>
    if (openAfter before).any Part.isFunction then none
    else some ⟨tag.span, "return outside of function"⟩
  | .expr (.selfRef tag) _ =>
    if (openAfter before).any Part.isClass then none
    else some ⟨tag.span, "self outside of class"⟩
  | _ => none

/-- The error that is reported about a part that is entered after some visits. -/
def fault? (unit : CompilationUnit) (before : List Visit) : Part → Option SemanticError
  | .classDecl decl => badSuperclass? unit (classAt before decl) decl
  | part => misplaced? unit before part

/-- A part that is rejected where it is entered after some visits. -/
inductive Fault (unit : CompilationUnit) (before : List Visit) : Part → SemanticError → Prop
  | unknown {part : Part} {tag : Tag} {name : String} (named : named? part = some (tag, name))
      (none : meaning? unit before name = none) :
      Fault unit before part ⟨tag.span, "unknown identifier: " ++ name⟩
  | outsideFunction {tag : Tag} {value : Option Expr}
      (outside : ∀ part ∈ openAfter before, part.isFunction = false) :
      Fault unit before (.returnStmt tag value) ⟨tag.span, "return outside of function"⟩
  | outsideClass {tag : Tag} {expected : Option Expected}
      (outside : ∀ part ∈ openAfter before, part.isClass = false) :
      Fault unit before (.expr (.selfRef tag) expected) ⟨tag.span, "self outside of class"⟩
  | unknownSuperclass {decl : ClassDecl} {written : Ident} (names : decl.superclass = some written)
      (none : superclassOf? unit (classAt before decl) = none) :
      Fault unit before (.classDecl decl) ⟨written.span, "unknown superclass " ++ written.name⟩
  | cyclic {decl : ClassDecl} {written : Ident} (names : decl.superclass = some written)
      (cyclic : Relation.TransGen (Inherits unit) (classAt before decl) (classAt before decl)) :
      Fault unit before (.classDecl decl) ⟨written.span, "cyclic inheritance involving " ++ decl.name⟩

theorem unknown?_eq_some :
    unknown? unit before tag name = some e ↔
      meaning? unit before name = none ∧ e = ⟨tag.span, "unknown identifier: " ++ name⟩ := by
  rw [unknown?]
  cases meaning? unit before name <;> simp [eq_comm]

theorem unless_eq_some {wanted : Part → Bool} {parts : List Part} {error : SemanticError} :
    (if parts.any wanted then none else some error) = some e ↔
      (∀ part ∈ parts, wanted part = false) ∧ e = error := by
  split
  · next some =>
      obtain ⟨part, mem, isWanted⟩ := any_eq_true.mp some
      constructor
      · intro same
        cases same
      · rintro ⟨none, _⟩
        rw [none part mem] at isWanted
        cases isWanted
  · next none =>
      have none : ∀ part ∈ parts, wanted part = false := by simpa using none
      rw [Option.some.injEq, eq_comm]
      exact ⟨fun same => ⟨none, same⟩, And.right⟩

variable {d : Declaration}

theorem badSuperclass?_eq_some (numbered : unit.WellNumbered)
    (mem : d ∈ declaredBy unit.tour) :
    badSuperclass? unit d decl = some e ↔ ∃ written, decl.superclass = some written ∧
      (superclassOf? unit d = none ∧ e = ⟨written.span, "unknown superclass " ++ written.name⟩ ∨
        Relation.TransGen (Inherits unit) d d ∧
          e = ⟨written.span, "cyclic inheritance involving " ++ decl.name⟩) := by
  rw [badSuperclass?, Option.bind_eq_some_iff]
  refine exists_congr fun written => and_congr_right fun _ => ?_
  rw [← isCyclic_iff_transGen numbered mem]
  cases found : superclassOf? unit d with
  | none =>
    -- without a superclass there is no way back
    have acyclic : (table unit).isCyclic d.symbol ≠ true := by
      rw [Ne, isCyclic_iff_transGen numbered mem]
      intro cyclic
      obtain ⟨parent, inherits, _⟩ := Relation.TransGen.head'_iff.mp cyclic
      rw [Inherits, found] at inherits
      cases inherits
    simp [acyclic, eq_comm]
  | some parent => cases (table unit).isCyclic d.symbol <;> simp [eq_comm]

theorem misplaced?_named (named : named? part = some (tag, name)) :
    misplaced? unit before part = unknown? unit before tag name := by
  cases part with
  | expr e expected =>
    cases e with
    | reference tag name => cases named; rfl
    | _ => cases named
  | type t =>
    cases t with
    | named tag name => cases named; rfl
    | array tag element => cases named
  | _ => cases named

theorem fault?_of_not_class (other : classOf? part = none) :
    fault? unit before part = misplaced? unit before part := by
  cases part <;> first | rfl | cases other

theorem classOf?_of_named? {use : Tag × String} (named : named? part = some use) :
    classOf? part = none := by
  cases part <;> first | rfl | cases named

theorem fault?_eq_some (numbered : unit.WellNumbered)
    (split : unit.tour = before ++ .enter part :: after) :
    fault? unit before part = some e ↔ Fault unit before part e := by
  constructor
  · intro found
    cases named : named? part with
    | some use =>
      rw [fault?_of_not_class (classOf?_of_named? named), misplaced?_named named,
        unknown?_eq_some] at found
      exact found.2 ▸ .unknown named found.1
    | none =>
      cases part with
      | expr e expected =>
        cases e with
        | reference tag name => cases named
        | selfRef tag =>
          obtain ⟨outside, rfl⟩ := unless_eq_some.mp found
          exact .outsideClass outside
        | _ => cases found
      | type t =>
        cases t with
        | named tag name => cases named
        | array tag element => cases found
      | returnStmt tag value =>
        obtain ⟨outside, rfl⟩ := unless_eq_some.mp found
        exact .outsideFunction outside
      | classDecl decl =>
        obtain ⟨written, names, ⟨none, rfl⟩ | ⟨cyclic, rfl⟩⟩ :=
          (badSuperclass?_eq_some numbered (classAt_mem split)).mp found
        · exact .unknownSuperclass names none
        · exact .cyclic names cyclic
      | _ => cases found
  · intro fault
    cases fault with
    | unknown named none =>
      rw [fault?_of_not_class (classOf?_of_named? named), misplaced?_named named]
      exact unknown?_eq_some.mpr ⟨none, rfl⟩
    | outsideFunction outside => exact unless_eq_some.mpr ⟨outside, rfl⟩
    | outsideClass outside => exact unless_eq_some.mpr ⟨outside, rfl⟩
    | unknownSuperclass names none =>
      exact (badSuperclass?_eq_some numbered (classAt_mem split)).mpr
        ⟨_, names, .inl ⟨none, rfl⟩⟩
    | cyclic names cyclic =>
      exact (badSuperclass?_eq_some numbered (classAt_mem split)).mpr
        ⟨_, names, .inr ⟨cyclic, rfl⟩⟩

/-! ### Errors of a moment -/

/-- What a name means when all declarations are made, unless it is a variable. -/
theorem lateMeaning_eq (numbered : unit.WellNumbered) (split : unit.tour = before ++ after)
    (name : String) (span : Span) :
    Walk.lateMeaning name span ((places unit).scope (regionOf (openAfter before))) (table unit) =
      ((nearest? (declaredBy unit.tour) (regionsOf (openAfter before)) name).filter (!·.isVar)).elim
        (.error ⟨span, "unknown identifier: " ++ name⟩) fun d => .ok (.symbol d.symbol) := by
  rw [Walk.lateMeaning, lookup?_table numbered split]
  cases found : nearest? (declaredBy unit.tour) (regionsOf (openAfter before)) name with
  | none => rfl
  | some d =>
    simp only [Option.map_some, hasKind_isVar numbered (mem_of_nearest? found).1, Option.filter_some]
    cases d.isVar <;> rfl

section Errors

variable {values : Attribute → Option Value}

theorem errors_lateRule {id : ScopeId} (name : String)
    (placed : values (AttrName.scope.of tag.id) = some (.scope id)) :
    (Request.register (lateRule tag name)).errors t values =
      (Output.ofResult (Walk.lateMeaning name tag.span id t)).errors := by
  have computes : (lateRule tag name).Computes t (fun _ => .scope id) _ :=
    Rule.map_computes _ rfl _ _
  have errors := Rule.errors_of_computes (fun d dep => (?_ : values d = _)) computes
  · exact errors.trans (append_nil _)
  · rw [mem_singleton.mp dep]
    exact placed

theorem errors_asks_named (numbered : unit.WellNumbered)
    (named : named? part = some (tag, name)) (split : unit.tour = before ++ .enter part :: after)
    (placed : values (AttrName.scope.of tag.id) =
      some (.scope ((places unit).scope (regionOf (openAfter before))))) :
    ((walkTo unit before).asks (.enter part)).flatMap (Request.errors (table unit) values) =
      (unknown? unit before tag name).toList := by
  rw [asks_named named, lookup?_walkTo numbered split, unknown?, meaning?, flatMap_cons]
  cases nearest? (declaredBy before) (regionsOf (openAfter before)) name with
  | some d => rfl
  | none =>
    simp only [Option.map_none, Option.elim_none, flatMap_cons, flatMap_nil,
      errors_lateRule name placed, lateMeaning_eq numbered split, Option.none_or]
    cases (nearest? (declaredBy unit.tour) (regionsOf (openAfter before)) name).filter (!·.isVar) <;>
      rfl

theorem Bound.isSome_eq {asked : List Request} {part : Option Part} {symbol : Option SymbolId}
    (h : Bound asked part symbol) : symbol.isSome = part.isSome := by
  cases part <;> cases symbol <;> first | rfl | exact h.elim

/-- A scope is inside of a function or a class if the place is. -/
theorem Walk.Tracks.isSome_nearest {around : List Part} (h : w.Tracks around)
    {wanted : SymbolKind → Bool} {isNearest : Part → Bool} (picks : Picks wanted isNearest) :
    ((w.table.enclosing w.scope).findSome? (w.table.ownerOfKind? wanted)).isSome =
      around.any isNearest := by
  obtain ⟨ids, hids, present⟩ := h.scope
  have frames := h.frames
  rw [hids] at frames
  rw [← isSome_find?]
  exact (frames.nearest h.closed picks (hasScope_iff.mp present)).isSome_eq

theorem errors_containment (attr : Attribute) (error : SemanticError) (found : Option SymbolId) :
    (containment attr error found).errors t values =
      (if found.isSome then none else some error).toList := by
  cases found <;> rfl

theorem errors_superclassRequests (values : Attribute → Option Value) (numbered : unit.WellNumbered)
    (mem : d ∈ declaredBy unit.tour) (decl : ClassDecl) :
    (superclassRequests (table unit) d.symbol decl).flatMap (Request.errors (table unit) values) =
      (badSuperclass? unit d decl).toList := by
  unfold superclassRequests badSuperclass?
  cases decl.superclass with
  | none => rfl
  | some written =>
    simp only [superclass?_eq numbered mem, Option.bind_some]
    cases superclassOf? unit d with
    | none => rfl
    | some parent =>
      cases cyclic : (table unit).isCyclic d.symbol <;>
        simp [Request.errors]

/-- Most parts only seed attributes. -/
theorem errors_asks_quiet (unnamed : named? part = none)
    (noReturn : ∀ tag value, part ≠ .returnStmt tag value)
    (noSelf : ∀ tag expected, part ≠ .expr (.selfRef tag) expected) :
    (w.asks (.enter part)).flatMap (Request.errors t values) = [] := by
  refine flatMap_eq_nil_iff.mpr fun q asked => ?_
  cases asked_of_mem asked with
  | later named _ =>
    rw [unnamed] at named
    cases named
  | noFunction _ => exact absurd rfl (noReturn _ _)
  | noClass _ => exact absurd rfl (noSelf _ _)
  | _ => rfl

theorem errors_asks_leave (part : Part) :
    (w.asks (.leave part)).flatMap (Request.errors t values) = [] := by
  cases part <;> rfl

/-- The scope of a part is that of the region around it. -/
def PlacedAt (unit : CompilationUnit) (values : Attribute → Option Value) (before : List Visit)
    (part : Part) : Prop :=
  ∀ n, part.id? = some n → values (AttrName.scope.of n) =
    some (.scope ((places unit).scope (regionOf (openAfter before))))

theorem errors_asks (numbered : unit.WellNumbered)
    (split : unit.tour = before ++ .enter part :: after) (placed : PlacedAt unit values before part) :
    ((walkTo unit before).asks (.enter part)).flatMap (Request.errors (table unit) values) =
      (misplaced? unit before part).toList := by
  have tracks := walkTo_tracks split
  cases named : named? part with
  | some use =>
    rw [errors_asks_named numbered named split (placed _ (id?_of_named? named)),
      misplaced?_named named]
  | none =>
    cases part with
    | returnStmt tag value =>
      have inside : ((walkTo unit before).table.containingFunction?
          (walkTo unit before).scope).isSome = _ := tracks.isSome_nearest picks_function
      rw [asks_return, flatMap_cons, flatMap_singleton, errors_containment, inside]
      rfl
    | expr e expected =>
      cases e with
      | reference tag name => cases named
      | selfRef tag =>
        have inside : ((walkTo unit before).table.containingClass?
            (walkTo unit before).scope).isSome = _ := tracks.isSome_nearest picks_class
        rw [asks_self, flatMap_cons, flatMap_singleton, errors_containment, inside]
        rfl
      | _ => exact errors_asks_quiet named (by simp) (by simp)
    | type t =>
      cases t with
      | named tag name => cases named
      | array tag element => exact errors_asks_quiet named (by simp) (by simp)
    | _ => exact errors_asks_quiet named (by simp) (by simp)

/-- The part at fault in a moment and what is reported about it. -/
def faultAt? (unit : CompilationUnit) (m : List Visit × Visit) : Option (Part × SemanticError) :=
  m.2.entered?.bind fun part => (fault? unit m.1 part).map (part, ·)

theorem errors_moment (numbered : unit.WellNumbered) (mem : m ∈ momentsFrom [] unit.tour)
    (placed : ∀ part, m.2 = .enter part → PlacedAt unit values m.1 part) :
    (((walkTo unit m.1).asks m.2).flatMap (Request.errors (table unit) values) ++
      ((classEntered? m.2).toList.flatMap fun decl =>
        superclassRequests (table unit) (walkTo unit m.1).table.nextSymbol decl).flatMap
          (Request.errors (table unit) values)) =
      (faultAt? unit m).toList.map Prod.snd := by
  obtain ⟨before, v⟩ := m
  obtain ⟨after, split⟩ := mem_moments.mp mem
  cases v with
  | leave part =>
    rw [errors_asks_leave]
    cases part <;> rfl
  | enter part =>
    dsimp only at split placed ⊢
    rw [errors_asks numbered split (placed part rfl)]
    have all : (faultAt? unit (before, .enter part)).toList.map Prod.snd =
        (fault? unit before part).toList := by
      simp only [faultAt?, Visit.entered?, Option.bind_some]
      cases fault? unit before part <;> rfl
    rw [all]
    cases isClass : classOf? part with
    | none =>
      have other : classEntered? (.enter part) = none := by
        cases part <;> first | rfl | cases isClass
      rw [other, fault?_of_not_class isClass]
      exact append_nil _
    | some decl =>
      obtain rfl : part = .classDecl decl := by
        cases part <;> cases isClass
        rfl
      have superclass := errors_superclassRequests values numbered (classAt_mem split) decl
      rw [symbol_classAt numbered split] at superclass
      change [] ++ List.flatMap _ (_ ++ []) = _
      rw [nil_append, append_nil, superclass]
      rfl

end Errors

/-! ### The nodes at fault -/

/-- The parts of a unit that are at fault, and what is reported about them. -/
def faults (unit : CompilationUnit) : List (Part × SemanticError) :=
  (momentsFrom [] unit.tour).filterMap (faultAt? unit)

theorem faultAt?_eq_some :
    faultAt? unit m = some (part, e) ↔ m.2 = .enter part ∧ fault? unit m.1 part = some e := by
  obtain ⟨before, v⟩ := m
  cases v with
  | leave q => simp [faultAt?, Visit.entered?]
  | enter q =>
    simp only [faultAt?, Visit.entered?, Option.bind_some, Option.map_eq_some_iff, Prod.mk.injEq,
      Visit.enter.injEq]
    constructor
    · rintro ⟨_, found, rfl, rfl⟩
      exact ⟨rfl, found⟩
    · rintro ⟨rfl, found⟩
      exact ⟨e, found, rfl, rfl⟩

theorem mem_faults (numbered : unit.WellNumbered) :
    (part, e) ∈ faults unit ↔ ∃ before after, unit.tour = before ++ .enter part :: after ∧
      Fault unit before part e := by
  simp only [faults, mem_filterMap, faultAt?_eq_some, Prod.exists, mem_moments]
  constructor
  · rintro ⟨before, _, ⟨after, split⟩, rfl, found⟩
    exact ⟨before, after, split, (fault?_eq_some numbered split).mp found⟩
  · rintro ⟨before, after, split, fault⟩
    exact ⟨before, _, ⟨after, split⟩, rfl, (fault?_eq_some numbered split).mpr fault⟩

theorem id?_of_fault? (found : fault? unit before part = some e) :
    part.id? = some part.node := by
  cases part <;> first | rfl | cases found

/-- No node is at fault twice. -/
theorem nodup_faults (numbered : unit.WellNumbered) : ((faults unit).map (·.1.node)).Nodup := by
  have parts := numbered.parts
  rw [unit.entered_eq, filterMap_filterMap, ← map_snd_momentsFrom [] unit.tour,
    filterMap_map] at parts
  refine parts.sublist (sublist_filterMap (fun m found same => ?_) _)
  obtain ⟨entered, fault⟩ := faultAt?_eq_some.mp same
  rw [Function.comp_apply, entered]
  exact id?_of_fault? fault

/-! ### The pass -/

section Pass

variable {r r' : Reactor} {part : Part}

theorem placed_of_passed (passed : Reactor.Passed (table unit) (plan unit .initial).2 r r')
    (numbered : unit.WellNumbered) (split : unit.tour = before ++ .enter part :: after) :
    PlacedAt unit r'.get? before part := by
  intro n node
  rw [← walkTo_scope numbered split]
  exact passed.seeded (mem_plan_of_mem_asks split (placed_mem_asks node))

/-- A name is bound to what it means. -/
theorem bound_of_passed (passed : Reactor.Passed (table unit) (plan unit .initial).2 r r')
    (numbered : unit.WellNumbered) (split : unit.tour = before ++ .enter part :: after)
    (named : named? part = some (tag, name)) :
    r'.get? (AttrName.symbol.of tag.id) =
      (meaning? unit before name).map fun d => .symbol d.symbol := by
  have asked := asks_named (w := walkTo unit before) named
  rw [lookup?_walkTo numbered split] at asked
  rw [meaning?]
  cases found : nearest? (declaredBy before) (regionsOf (openAfter before)) name with
  | some d =>
    rw [found] at asked
    exact passed.seeded (mem_plan_of_mem_asks split (asked ▸ mem_cons_of_mem _
      (.head _)))
  | none =>
    rw [found] at asked
    have registered : .register (lateRule tag name) ∈ (plan unit .initial).2 :=
      mem_plan_of_mem_asks split (asked ▸ mem_cons_of_mem _ (.head _))
    have placed := placed_of_passed passed numbered split _ (id?_of_named? named)
    have computes : (lateRule tag name).Computes (table unit)
        (fun _ => .scope ((places unit).scope (regionOf (openAfter before)))) _ :=
      Rule.map_computes _ rfl _ _
    have recorded := passed.computed registered
      (fun d dep => by rw [mem_singleton.mp dep]; exact placed) computes _
      (.head _)
    rw [lateMeaning_eq numbered split] at recorded
    rw [Option.none_or]
    cases late : (nearest? (declaredBy unit.tour) (regionsOf (openAfter before)) name).filter
        (!·.isVar) with
    | some d =>
      rw [late] at recorded
      exact recorded
    | none =>
      rw [late] at recorded
      obtain ⟨error, failed⟩ := Option.isSome_iff_exists.mp recorded.1
      rw [Reactor.errorOf?_eq_some] at failed
      rw [Reactor.get?, failed]
      rfl

end Pass

end BlFront.Names

namespace BlFront.Analysis

open List SymbolTable

open Names

variable {unit : CompilationUnit} {a b : Analysis}

/-- The pass over names reports one error for each node at fault. -/
theorem Begun.rootErrors_perm (h : Begun unit a) (numbered : unit.WellNumbered)
    (ran : Ran .resolveReferences a b) :
    b.reactor.rootErrors.Perm ((faults unit).map Prod.snd) := by
  have passed : Reactor.Passed (table unit) (Names.plan unit .initial).2 a.reactor b.reactor := by
    have passed := ran.passed
    rwa [ran.symbols_eq, h.plan_eq] at passed
  have all := (h.ready numbered).rootErrors_perm ran fun rule mem => by
    rw [h.plan_eq] at mem ⊢
    obtain ⟨tag, name, rfl⟩ := eq_lateRule_of_mem_plan mem
    exact lateRule_decides (walk_run unit).closed tag name
  rw [h.plan_eq, h.clean, nil_append, Names.plan_eq, flatMap_append, flatMap_cons,
    flatMap_assoc, flatMap_assoc] at all
  refine all.trans ((flatMap_append_perm _ _ _).trans ?_)
  rw [faults, filterMap_eq_flatMap_toList, map_flatMap]
  refine .of_eq (flatMap_congr fun m mem => errors_moment numbered mem fun part entered => ?_)
  obtain ⟨after, split⟩ := mem_moments.mp mem
  rw [entered] at split
  exact placed_of_passed passed numbered split

end BlFront.Analysis
