import BlFront.Proofs.Analysis.Bindings

/-!
# Regions

The regions of a unit are told from its syntax: one for the builtins, one for the top of the unit,
and one for each part that opens a scope.  The table that a tour builds is determined by them.  Every
region has a scope, every declaration a symbol in the scope of its region, and nothing else is in
the table.
-/

namespace BlFront

open List SymbolTable

variable {visits : List Visit} {part : Part}

/-! ### Regions of the syntax -/

inductive Region where
  | builtin
  | top
  | inside (node : NodeId)
  deriving DecidableEq, Repr

namespace Part

/-- The identity of a part that is a node. -/
def node (part : Part) : NodeId := part.id?.getD ⟨0⟩

/-- The region that a part opens. -/
def region? (part : Part) : Option Region := if part.opens then some (.inside part.node) else none

/-- The name that a part declares. -/
def declaredName : Part → String
  | .function decl => decl.name
  | .param decl => decl.name
  | .structDecl decl => decl.name
  | .classDecl decl => decl.name
  | .field decl => decl.name
  | .varDecl decl => decl.name
  | _ => ""

/-- The kind of the symbol that a part declares, given the scope that it opens, if it does. -/
def symbolKind (members : ScopeId) (inClass : Bool) : Part → SymbolKind
  | .function _ => if inClass then .method members else .function members
  | .structDecl _ => .structType members
  | .classDecl decl => .classType members (decl.superclass.map (·.name))
  | .field _ => .field
  | _ => .var

end Part

/-- The innermost region, given the parts around a place. -/
def regionOf (around : List Part) : Region := (around.findSome? Part.region?).getD .top

/-- The regions around a place, the innermost first. -/
def regionsOf (around : List Part) : List Region :=
  around.filterMap Part.region? ++ [.top, .builtin]

/-- Whether a function that is declared at a place is a method. -/
def isInClass (around : List Part) : Bool := (around.find? Part.opens).any Part.isClass

theorem regionsOf_cons_of_not_opens (plain : part.opens = false) (around : List Part) :
    regionsOf (part :: around) = regionsOf around := by
  simp [regionsOf, Part.region?, plain]

theorem regionsOf_cons_of_opens (opens : part.opens = true) (around : List Part) :
    regionsOf (part :: around) = .inside part.node :: regionsOf around := by
  simp [regionsOf, Part.region?, opens]

theorem regionOf_cons_of_not_opens (plain : part.opens = false) (around : List Part) :
    regionOf (part :: around) = regionOf around := by
  simp [regionOf, Part.region?, plain]

theorem regionsOf_eq_cons (around : List Part) :
    ∃ outer, regionsOf around = regionOf around :: outer := by
  induction around with
  | nil => exact ⟨[.builtin], rfl⟩
  | cons part around ih =>
    cases opens : part.opens with
    | false => rwa [regionsOf_cons_of_not_opens opens, regionOf_cons_of_not_opens opens]
    | true =>
      refine ⟨regionsOf around, ?_⟩
      simp [regionsOf_cons_of_opens opens, regionOf, Part.region?, opens]

/-! ### Parts with what is around them -/

/-- The part whose scope a visit opens. -/
def Visit.opening? : Visit → Option Part
  | .enter part => if part.opens then some part else none
  | .leave _ => none

/-- What is around the part of a visit, given the parts that are open before it. -/
def Visit.outside (around : List Part) : Visit → List Part
  | .enter _ => around
  | .leave _ => around.tail

/-- The parts that are taken from visits, each with the parts around it. -/
def pickedFrom (pick : Visit → Option Part) : List Part → List Visit → List (Part × List Part)
  | _, [] => []
  | around, v :: visits =>
    (pick v).toList.map (·, v.outside around) ++ pickedFrom pick (v.open around) visits

/-- The parts that declare symbols. -/
abbrev declaredFrom : List Part → List Visit → List (Part × List Part) :=
  pickedFrom Visit.declaring?

/-- The parts that open scopes. -/
abbrev openedFrom : List Part → List Visit → List (Part × List Part) := pickedFrom Visit.opening?

theorem map_fst_pickedFrom (pick : Visit → Option Part) (around : List Part) (visits : List Visit) :
    (pickedFrom pick around visits).map Prod.fst = visits.filterMap pick := by
  induction visits generalizing around with
  | nil => rfl
  | cons v visits ih =>
    rw [pickedFrom, map_append, ih]
    cases h : pick v with
    | none => rw [filterMap_cons_none h]; rfl
    | some part => rw [filterMap_cons_some h]; rfl

theorem pickedFrom_append (pick : Visit → Option Part) (around : List Part) (a b : List Visit) :
    pickedFrom pick around (a ++ b) =
      pickedFrom pick around a ++ pickedFrom pick (a.foldl Visit.open around) b := by
  induction a generalizing around with
  | nil => rfl
  | cons v a ih => rw [cons_append, pickedFrom, pickedFrom, ih, foldl_cons, append_assoc]

/-! ### Tables -/

/-- What is settled about the scopes of a table when they are made. -/
def SymbolTable.frames (t : SymbolTable) : List (ScopeKind × Option ScopeId) :=
  t.scopes.map fun s => (s.kind, s.parent)

namespace SymbolTable

variable (t : SymbolTable)

theorem frames_pushScope (parent : Option ScopeId) (kind : ScopeKind) :
    (t.pushScope parent kind).2.frames = t.frames ++ [(kind, parent)] := by
  simp [frames, pushScope]

theorem frames_declare (scope : ScopeId) (name : String) (kind : SymbolKind) (span : Option Span) :
    (t.declare scope name kind span).2.frames = t.frames := by
  refine ext_getElem? fun i => ?_
  simp only [frames, declare, List.getElem?_map, List.getElem?_modify]
  split <;> cases t.scopes[i]? <;> rfl

end SymbolTable

namespace Names

/-- The scopes of regions and the symbols of nodes that declare one. -/
structure Places where
  scope : Region → ScopeId
  symbol : NodeId → SymbolId

namespace Places

variable (p : Places)

/-- The symbol of a declaration. -/
def entry (declared : Part × List Part) : Symbol :=
  ⟨declared.1.declaredName, p.scope (regionOf declared.2),
    declared.1.symbolKind (p.scope (.inside declared.1.node)) (isInClass declared.2),
    some declared.1.span⟩

def scopeKind : Part → ScopeKind
  | .block _ => .inner
  | part => .membersOf (p.symbol part.node)

/-- The scope of a part that opens one. -/
def frame (opened : Part × List Part) : ScopeKind × Option ScopeId :=
  (p.scopeKind opened.1, some (p.scope (regionOf opened.2)))

end Places

/-- The parts for which visits open scopes, numbered from a count on. -/
def openingsFrom (count : Nat) (visits : List Visit) : List (Part × ScopeId) :=
  ((visits.filterMap Visit.opening?).zipIdx count).map fun e => (e.1, ⟨e.2⟩)

/-- Scopes and symbols are numbered in the order in which visits come to them. -/
structure Places.Fit (p : Places) (scopes symbols : Nat) (visits : List Visit) : Prop where
  scope : ∀ e ∈ openingsFrom scopes visits, p.scope (.inside e.1.node) = e.2
  symbol : ∀ e ∈ declarationsFrom symbols visits, p.symbol e.1.node = e.2

/-- What visits make of a table. -/
structure Lays (p : Places) (around : List Part) (w : Walk) (visits : List Visit) (w' : Walk) :
    Prop where
  symbols : w'.table.symbols = w.table.symbols ++ (declaredFrom around visits).map p.entry
  frames : w'.table.frames = w.table.frames ++ (openedFrom around visits).map p.frame
  scopes : w'.scopes = (regionsOf (visits.foldl Visit.open around)).map p.scope
  faithful : w'.table.Faithful

/-- A function is a method if the part around it is a class. -/
theorem Frames.isSome_classOfScope? {t : SymbolTable} {asked : List Request} {around : List Part}
    {id : ScopeId} {ids : List ScopeId} (h : Frames t asked around (id :: ids)) :
    (t.classOfScope? id).isSome = isInClass around := by
  generalize all : id :: ids = stack at h
  induction h generalizing id ids with
  | base held kind _ _ _ _ =>
    cases all
    simp [SymbolTable.classOfScope?, held, kind, SymbolTable.classOfKind?, isInClass]
  | inside plain _ ih =>
    rw [isInClass, List.find?_cons_of_neg (by simp [plain])]
    exact ih all
  | block held kind _ _ _ =>
    cases all
    rw [isInClass, List.find?_cons_of_pos rfl]
    simp [classOfScope?, held, kind, classOfKind?, Part.isClass]
  | @owner part _ _ _ _ s _ o held kind _ opens _ _ declared _ _ =>
    cases all
    obtain ⟨symbol, found, declares⟩ := hasKind_iff.mp declared
    have agree := picks_class.owners part symbol.kind opens declares
    have isClass : t.hasKind (·.isClass) o = part.isClass := by
      simp [hasKind, kind?, found, agree]
    rw [classOfScope?, held, Option.bind_some, kind, classOfKind?, isClass,
      isInClass, List.find?_cons_of_pos opens, Option.any_some]
    cases part.isClass <;> rfl

namespace Walk

variable {p : Places} {w : Walk} {around : List Part}

theorem scope_eq (stack : w.scopes = (regionsOf around).map p.scope) :
    w.scope = p.scope (regionOf around) := by
  obtain ⟨outer, regions⟩ := regionsOf_eq_cons around
  rw [Walk.scope, stack, regions]
  rfl

theorem Tracks.isSome_classOfScope? (h : w.Tracks around) :
    (w.table.classOfScope? w.scope).isSome = isInClass around := by
  obtain ⟨ids, hids, _⟩ := h.scope
  have frames := h.frames
  rw [hids] at frames
  exact frames.isSome_classOfScope?

/-- A visit that changes nothing but what is asked. -/
theorem lays_quiet {v : Visit} (quiet : v.declaring? = none) (closed : v.opening? = none)
    (faithful : w.table.Faithful) (table : (w.visit v).table = w.table)
    (scopes : (w.visit v).scopes = (regionsOf (v.open around)).map p.scope) :
    Lays p around w [v] (w.visit v) where
  symbols := by simp [pickedFrom, quiet, table]
  frames := by simp [pickedFrom, closed, table]
  scopes := scopes
  faithful := table.symm ▸ faithful

/-- A visit that declares a symbol and opens the scope of its members. -/
theorem lays_owner (kind : ScopeId → SymbolKind)
    (declaring : (Visit.enter part).declaring? = some part) (opens : part.opens = true)
    (closed : w.table.Closed) (faithful : w.table.Faithful)
    (stack : w.scopes = (regionsOf around).map p.scope)
    (scope : p.scope (.inside part.node) = w.table.nextScope)
    (symbol : p.symbol part.node = w.table.nextSymbol)
    (isKind : kind w.table.nextScope = part.symbolKind w.table.nextScope (isInClass around))
    (other : p.scopeKind part = .membersOf (p.symbol part.node)) (table : (w.enter part).table =
      (w.table.declareOwner w.scope part.declaredName kind (some part.span)).2)
    (scopes : (w.enter part).scopes = w.table.nextScope :: w.scopes) :
    Lays p around w [.enter part] (w.enter part) where
  symbols := by
    have picked : declaredFrom around [.enter part] = [(part, around)] := by
      simp [pickedFrom, declaring, Visit.outside]
    rw [table, picked, map_singleton, Places.entry, scope, ← isKind, ← scope_eq stack]
    rfl
  frames := by
    have picked : openedFrom around [.enter part] = [(part, around)] := by
      simp [pickedFrom, Visit.opening?, opens, Visit.outside]
    rw [table, picked, map_singleton, Places.frame, other, symbol, ← scope_eq stack,
      SymbolTable.declareOwner, SymbolTable.frames_declare, SymbolTable.frames_pushScope]
  scopes := by
    change _ = (regionsOf (part :: around)).map p.scope
    rw [scopes, stack, regionsOf_cons_of_opens opens, map_cons, scope]
  faithful := table.symm ▸ faithful.declareOwner closed _ _ _ _

theorem Tracks.enter_lays (h : w.Tracks around) (faithful : w.table.Faithful)
    (stack : w.scopes = (regionsOf around).map p.scope)
    (fit : p.Fit w.table.scopes.length w.table.symbols.length [.enter part]) :
    Lays p around w [.enter part] (w.enter part) := by
  have scope : part.opens = true → p.scope (.inside part.node) = w.table.nextScope := fun opens =>
    fit.scope (part, w.table.nextScope)
      (by simp [openingsFrom, Visit.opening?, opens, nextScope])
  have symbol : (Visit.enter part).declaring? = some part →
      p.symbol part.node = w.table.nextSymbol := fun declaring =>
    fit.symbol (part, w.table.nextSymbol)
      (by simp [declarationsFrom, declaring, nextSymbol])
  by_cases plain : part.opens = false
  · obtain ⟨table, scopes, _⟩ := enter_same w plain
    have quiet : (Visit.enter part).declaring? = none := by
      cases part <;> first | rfl | cases plain
    refine lays_quiet (v := .enter part) quiet (by simp [Visit.opening?, plain]) faithful table ?_
    exact (scopes.trans stack).trans (by rw [Visit.open, regionsOf_cons_of_not_opens plain])
  · cases part with
    | function decl =>
      refine lays_owner (if (w.table.classOfScope? w.scope).isSome then .method else .function) rfl
        rfl h.closed faithful stack (scope rfl) (symbol rfl) ?_ rfl rfl rfl
      rw [Part.symbolKind, ← h.isSome_classOfScope?]
      split <;> rfl
    | structDecl decl =>
      exact lays_owner .structType rfl rfl h.closed faithful stack (scope rfl) (symbol rfl) rfl rfl
        rfl rfl
    | classDecl decl =>
      exact lays_owner (.classType · (decl.superclass.map (·.name))) rfl rfl h.closed faithful stack
        (scope rfl) (symbol rfl) rfl rfl rfl rfl
    | block body =>
      refine ⟨(append_nil _).symm, ?_, ?_, faithful.pushScope h.closed _ _⟩
      · change (w.table.pushScope (some w.scope) .inner).2.frames = _
        rw [SymbolTable.frames_pushScope, scope_eq stack]
        rfl
      · change w.table.nextScope :: w.scopes = (regionsOf (.block body :: around)).map p.scope
        rw [stack, regionsOf_cons_of_opens rfl, map_cons, scope rfl]
    | _ => exact absurd rfl plain

/-- A parameter, a field or a variable is declared in the scope that is open. -/
theorem lays_leaving {kind : SymbolKind} (declaring : (Visit.leave part).declaring? = some part)
    (plain : part.opens = false) (faithful : w.table.Faithful)
    (stack : w.scopes = (regionsOf (part :: around)).map p.scope)
    (isKind : ∀ members inClass, kind = part.symbolKind members inClass)
    (left : w.leave part = w.declare part.node fun t scope =>
      t.declare scope part.declaredName kind (some part.span)) :
    Lays p (part :: around) w [.leave part] (w.leave part) := by
  have table : (w.leave part).table =
      (w.table.declare w.scope part.declaredName kind (some part.span)).2 := by
    rw [left]
    rfl
  have scopes : (w.leave part).scopes = w.scopes := by
    rw [left]
    rfl
  refine ⟨?_, ?_, ?_, table.symm ▸ faithful.declare _ _ _ _⟩
  · have picked : declaredFrom (part :: around) [.leave part] = [(part, around)] := by
      simp [pickedFrom, declaring, Visit.outside]
    rw [table, picked, map_singleton, Places.entry, ← isKind,
      ← regionOf_cons_of_not_opens plain around, ← scope_eq stack]
    rfl
  · rw [table, frames_declare]
    exact (append_nil _).symm
  · change _ = (regionsOf around).map p.scope
    rw [scopes, stack, regionsOf_cons_of_not_opens plain]

theorem leave_lays (faithful : w.table.Faithful)
    (stack : w.scopes = (regionsOf (part :: around)).map p.scope) :
    Lays p (part :: around) w [.leave part] (w.leave part) := by
  have closes : ∀ {q : Part}, q.opens = true → w.scopes = (regionsOf (q :: around)).map p.scope →
      w.scopes.tail = (regionsOf around).map p.scope := by
    intro q opens stack
    rw [stack, regionsOf_cons_of_opens opens]
    rfl
  cases part with
  | function decl => exact lays_quiet (v := .leave _) rfl rfl faithful rfl (closes rfl stack)
  | structDecl decl => exact lays_quiet (v := .leave _) rfl rfl faithful rfl (closes rfl stack)
  | classDecl decl => exact lays_quiet (v := .leave _) rfl rfl faithful rfl (closes rfl stack)
  | block body => exact lays_quiet (v := .leave _) rfl rfl faithful rfl (closes rfl stack)
  | param decl => exact lays_leaving rfl rfl faithful stack (fun _ _ => rfl) rfl
  | field decl => exact lays_leaving rfl rfl faithful stack (fun _ _ => rfl) rfl
  | varDecl decl => exact lays_leaving rfl rfl faithful stack (fun _ _ => rfl) rfl
  | _ =>
    refine lays_quiet (v := .leave _) rfl rfl faithful rfl (stack.trans ?_)
    rw [regionsOf_cons_of_not_opens rfl]
    rfl

end Walk

/-! ### Runs -/

section Numbers

variable {p : Places} {scopes symbols : Nat} {a b : List Visit}

theorem openingsFrom_append (count : Nat) (a b : List Visit) : openingsFrom count (a ++ b) =
    openingsFrom count a ++ openingsFrom (count + (a.filterMap Visit.opening?).length) b := by
  simp [openingsFrom, filterMap_append, zipIdx_append]

theorem declarationsFrom_append (count : Nat) (a b : List Visit) : declarationsFrom count (a ++ b) =
    declarationsFrom count a ++ declarationsFrom (count + (a.filterMap Visit.declaring?).length) b := by
  simp [declarationsFrom, filterMap_append, zipIdx_append]

theorem Places.Fit.left (h : p.Fit scopes symbols (a ++ b)) : p.Fit scopes symbols a := by
  obtain ⟨scope, symbol⟩ := h
  rw [openingsFrom_append] at scope
  rw [declarationsFrom_append] at symbol
  exact ⟨fun e mem => scope e (mem_append_left _ mem),
    fun e mem => symbol e (mem_append_left _ mem)⟩

theorem Places.Fit.right (h : p.Fit scopes symbols (a ++ b)) :
    p.Fit (scopes + (a.filterMap Visit.opening?).length)
      (symbols + (a.filterMap Visit.declaring?).length) b := by
  obtain ⟨scope, symbol⟩ := h
  rw [openingsFrom_append] at scope
  rw [declarationsFrom_append] at symbol
  exact ⟨fun e mem => scope e (mem_append_right _ mem),
    fun e mem => symbol e (mem_append_right _ mem)⟩

end Numbers

namespace Lays

variable {p : Places} {w w₁ w' : Walk} {around : List Part} {a b : List Visit}

theorem trans (first : Lays p around w a w₁) (second : Lays p (a.foldl Visit.open around) w₁ b w') :
    Lays p around w (a ++ b) w' where
  symbols := by
    rw [second.symbols, first.symbols, declaredFrom, pickedFrom_append, map_append,
      append_assoc]
  frames := by
    rw [second.frames, first.frames, openedFrom, pickedFrom_append, map_append,
      append_assoc]
  scopes := by rw [second.scopes, foldl_append]
  faithful := second.faithful

theorem length_symbols (h : Lays p around w a w') :
    w'.table.symbols.length = w.table.symbols.length + (a.filterMap Visit.declaring?).length := by
  rw [h.symbols, length_append, length_map, ← map_fst_pickedFrom _ around, length_map]

theorem length_scopes (h : Lays p around w a w') :
    w'.table.scopes.length = w.table.scopes.length + (a.filterMap Visit.opening?).length := by
  have lengths := congrArg List.length h.frames
  rwa [SymbolTable.frames, SymbolTable.frames, length_map, length_append, length_map,
    length_map, ← length_map (f := Prod.fst), map_fst_pickedFrom] at lengths

end Lays

theorem Walk.Tracks.lays {p : Places} {w : Walk} {around : List Part} (h : w.Tracks around)
    (nested : Nested around visits) (faithful : w.table.Faithful)
    (stack : w.scopes = (regionsOf around).map p.scope)
    (fit : p.Fit w.table.scopes.length w.table.symbols.length visits) :
    Lays p around w visits (visits.foldl Walk.visit w) := by
  induction visits generalizing around w with
  | nil => exact ⟨by simp [pickedFrom], by simp [pickedFrom], stack, faithful⟩
  | cons v visits ih =>
    have now : p.Fit w.table.scopes.length w.table.symbols.length [v] :=
      Places.Fit.left (b := visits) fit
    have later := Places.Fit.right (a := [v]) (b := visits) fit
    -- one visit, and then the others from where it leads to
    have next : ∀ w₁, Lays p around w [v] w₁ → w₁.Tracks (v.open around) →
        Nested (v.open around) visits → Lays p around w (v :: visits) (visits.foldl Walk.visit w₁) := by
      intro w₁ first tracks nested
      rw [← first.length_scopes, ← first.length_symbols] at later
      exact first.trans (b := visits) (ih tracks nested first.faithful first.scopes later)
    cases v with
    | enter part =>
      exact next _ (h.enter_lays faithful stack now) (h.enter part).tracks nested
    | leave part =>
      obtain ⟨first, nested⟩ := nested
      obtain ⟨rest, rfl⟩ : ∃ rest, around = part :: rest := ⟨_, eq_cons_of_mem_head? first⟩
      exact next _ (Walk.leave_lays faithful stack) h.leave.tracks nested

/-! ### The places of a unit -/

variable {unit : CompilationUnit}

/-- The parts of a unit that open scopes, with these. -/
def openings (unit : CompilationUnit) : List (Part × ScopeId) :=
  openingsFrom (initial.scopes.length + 1) unit.tour

def places (unit : CompilationUnit) : Places where
  scope
    | .builtin => builtinScope
    | .top => initial.nextScope
    | .inside n => (((openings unit).find? (·.1.node == n)).map Prod.snd).getD ⟨0⟩
  symbol n := (((declarations unit).find? (·.1.node == n)).map Prod.snd).getD ⟨0⟩

theorem map_fst_openings (unit : CompilationUnit) :
    (openings unit).map Prod.fst = unit.tour.filterMap Visit.opening? := by
  simp [openings, openingsFrom, map_map, Function.comp_def]

theorem map_snd_openings (unit : CompilationUnit) :
    (openings unit).map (fun e => e.2.index) =
      List.range' (initial.scopes.length + 1) (openings unit).length := by
  simp [openings, openingsFrom, map_map, Function.comp_def]

theorem opening?_eq_some {v : Visit} (h : v.opening? = some part) :
    v = .enter part ∧ part.opens = true := by
  cases v with
  | enter q =>
    rw [Visit.opening?] at h
    split at h
    · next opens =>
        cases h
        exact ⟨rfl, opens⟩
    · cases h
  | leave q => cases h

theorem id?_eq_node_of_opens (opens : part.opens = true) : part.id? = some part.node := by
  cases part <;> first | rfl | cases opens

theorem id?_eq_node_of_isDeclaration (declares : isDeclaration part = true) :
    part.id? = some part.node := by
  cases part <;> first | rfl | cases declares

theorem nodup_nodes_openings (numbered : unit.WellNumbered) :
    ((openings unit).map fun e => e.1.node).Nodup := by
  have nodes : (openings unit).map (fun e => e.1.node) =
      (unit.tour.filterMap Visit.opening?).map Part.node := by
    rw [← map_fst_openings, map_map]
    rfl
  rw [nodes]
  have parts := numbered.parts
  rw [unit.entered_eq, filterMap_filterMap] at parts
  refine parts.sublist (sublist_filterMap (fun v part opening => ?_) _)
  obtain ⟨rfl, opens⟩ := opening?_eq_some opening
  exact id?_eq_node_of_opens opens

/-- Every part that declares a symbol does so once, on entering or on leaving it. -/
theorem declaring_perm (tree : Tree visits) :
    (visits.filterMap Visit.declaring?).Perm
      ((visits.filterMap Visit.entered?).filter isDeclaration) := by
  have split : ∀ visits : List Visit, (visits.filterMap Visit.declaring?).Perm
      ((visits.filterMap Visit.entered?).filterMap (fun part => (Visit.enter part).declaring?) ++
        (visits.filterMap Visit.left?).filterMap fun part => (Visit.leave part).declaring?) := by
    intro visits
    induction visits with
    | nil => exact .refl _
    | cons v visits ih =>
      cases v with
      | enter part =>
        simp only [filterMap_cons, Visit.entered?, Visit.left?]
        cases (Visit.enter part).declaring? with
        | none => exact ih
        | some q => exact ih.cons q
      | leave part =>
        simp only [filterMap_cons, Visit.entered?, Visit.left?]
        cases (Visit.leave part).declaring? with
        | none => exact ih
        | some q => exact (ih.cons q).trans perm_middle.symm
  have join : ∀ parts : List Part,
      (parts.filterMap (fun part => (Visit.enter part).declaring?) ++
        parts.filterMap fun part => (Visit.leave part).declaring?).Perm (parts.filter isDeclaration) := by
    intro parts
    induction parts with
    | nil => exact .refl _
    | cons part parts ih =>
      cases part <;> simp only [filterMap_cons, Visit.declaring?, filter_cons, isDeclaration,
        if_true, Bool.false_eq_true, if_false] <;>
        first | exact ih | exact ih.cons _ | exact perm_middle.trans (ih.cons _)
  refine (split visits).trans (((tree.left_perm_entered.filterMap _).append_left _).trans ?_)
  exact join _

theorem nodup_nodes_declarations (numbered : unit.WellNumbered) :
    ((declarations unit).map fun d => d.1.node).Nodup := by
  have nodes : (declarations unit).map (fun d => d.1.node) =
      (unit.tour.filterMap Visit.declaring?).map Part.node := by
    rw [← map_fst_declarations, map_map]
    rfl
  rw [nodes, ((declaring_perm unit.tree).map _).nodup_iff, ← unit.entered_eq]
  refine numbered.parts.sublist ?_
  rw [← filterMap_eq_filter]
  refine sublist_filterMap (fun part q same => ?_) _
  obtain ⟨rfl, declares⟩ := Option.guard_eq_some_iff.mp same
  exact id?_eq_node_of_isDeclaration declares

theorem find?_node {α : Type} {l : List (Part × α)} (nodup : (l.map fun e => e.1.node).Nodup)
    {e : Part × α} (mem : e ∈ l) : l.find? (·.1.node == e.1.node) = some e := by
  induction l with
  | nil => cases mem
  | cons first l ih =>
    rw [map_cons, nodup_cons] at nodup
    rcases mem_cons.mp mem with rfl | mem
    · exact List.find?_cons_of_pos (beq_self_eq_true _)
    · have other : first.1.node ≠ e.1.node := fun same =>
        nodup.1 (mem_map.mpr ⟨e, mem, same.symm⟩)
      rw [List.find?_cons_of_neg (by simp [other])]
      exact ih nodup.2 mem

theorem places_fit (numbered : unit.WellNumbered) :
    (places unit).Fit (initial.scopes.length + 1) initial.symbols.length
      unit.tour where
  scope e mem := by
    simp only [places]
    rw [find?_node (nodup_nodes_openings numbered) mem]
    rfl
  symbol e mem := by
    simp only [places]
    rw [find?_node (nodup_nodes_declarations numbered) mem]
    rfl

/-! ### Moments of a tour -/

/-- The tour of a unit after some visits. -/
def walkTo (unit : CompilationUnit) (before : List Visit) : Walk :=
  before.foldl Walk.visit (begin unit)

/-- The parts that are open after some visits. -/
def openAfter (before : List Visit) : List Part := before.foldl Visit.open []

variable {before after : List Visit}

theorem table_eq (unit : CompilationUnit) : table unit = (walkTo unit unit.tour).table := rfl

theorem nested_left {around : List Part} {a b : List Visit} (h : Nested around (a ++ b)) :
    Nested around a := by
  induction a generalizing around with
  | nil => trivial
  | cons v a ih =>
    cases v with
    | enter part => exact ih h
    | leave part => exact ⟨h.1, ih h.2⟩

theorem nested_right {around : List Part} {a b : List Visit} (h : Nested around (a ++ b)) :
    Nested (a.foldl Visit.open around) b := by
  induction a generalizing around with
  | nil => exact h
  | cons v a ih =>
    cases v with
    | enter part => exact ih h
    | leave part => exact ih h.2

theorem Walk.Tracks.foldl {w : Walk} {around : List Part} (h : w.Tracks around)
    (nested : Nested around visits) :
    (visits.foldl Walk.visit w).Tracks (visits.foldl Visit.open around) := by
  induction visits generalizing around w with
  | nil => exact h
  | cons v visits ih =>
    cases v with
    | enter part => exact ih (h.enter part).tracks nested
    | leave part =>
      obtain ⟨first, nested⟩ := nested
      obtain ⟨rest, rfl⟩ : ∃ rest, around = part :: rest := ⟨_, eq_cons_of_mem_head? first⟩
      exact ih h.leave.tracks nested

theorem walkTo_tracks (split : unit.tour = before ++ after) :
    (walkTo unit before).Tracks (openAfter before) :=
  (begin_tracks unit).foldl (nested_left (split ▸ unit.nested))

theorem walkTo_grows (split : unit.tour = before ++ after) :
    (walkTo unit before).table.Grows (table unit) := by
  have run := (walkTo_tracks split).run (nested_right (split ▸ unit.nested))
  rw [table_eq, split, walkTo, walkTo, foldl_append]
  exact run.grows

theorem walkTo_lays (numbered : unit.WellNumbered) (split : unit.tour = before ++ after) :
    Lays (places unit) [] (begin unit) before (walkTo unit before) := by
  have fit := places_fit numbered
  rw [split] at fit
  refine (begin_tracks unit).lays (nested_left (split ▸ unit.nested)) ?_ rfl ?_
  · exact initial_sound.faithful.pushScope initial_sound.closed _ _
  · have length : (begin unit).table.scopes.length = initial.scopes.length + 1 := by
      simp [begin, Walk.enterNew, Walk.enterScope, pushScope, Walk.place, Walk.request]
    rw [length]
    exact fit.left

theorem walkTo_scope (numbered : unit.WellNumbered) (split : unit.tour = before ++ after) :
    (walkTo unit before).scope = (places unit).scope (regionOf (openAfter before)) :=
  Walk.scope_eq (walkTo_lays numbered split).scopes

theorem Frames.chain {t : SymbolTable} {asked : List Request} {around : List Part} {id : ScopeId}
    {ids : List ScopeId} (h : Frames t asked around (id :: ids)) : t.Chain id (id :: ids) := by
  generalize all : id :: ids = stack at h
  induction h generalizing id ids with
  | base held _ parent held' _ parent' =>
    cases all
    exact .inside held parent (.root held' parent')
  | inside _ _ ih => exact ih all
  | block held _ parent _ ih =>
    cases all
    exact .inside held parent (ih rfl)
  | owner held _ parent _ _ _ _ _ ih =>
    cases all
    exact .inside held parent (ih rfl)

/-- The scopes around a place are those of the regions around it. -/
theorem walkTo_chain (numbered : unit.WellNumbered) (split : unit.tour = before ++ after) :
    (walkTo unit before).table.Chain ((places unit).scope (regionOf (openAfter before)))
      ((regionsOf (openAfter before)).map (places unit).scope) := by
  have scopes := (walkTo_lays numbered split).scopes
  have frames := (walkTo_tracks split).frames
  obtain ⟨outer, regions⟩ := regionsOf_eq_cons (openAfter before)
  rw [scopes] at frames
  change Frames _ _ _ ((regionsOf (openAfter before)).map (places unit).scope) at frames
  rw [regions] at frames ⊢
  exact frames.chain

/-! ### The regions of a unit -/

/-- The regions of a unit. -/
def regionsIn (unit : CompilationUnit) : List Region :=
  (openings unit).map (fun e => .inside e.1.node) ++ [.top, .builtin]

theorem enter_mem_of_mem_foldl_open {around : List Part}
    (mem : part ∈ visits.foldl Visit.open around) : part ∈ around ∨ .enter part ∈ visits := by
  induction visits generalizing around with
  | nil => exact .inl mem
  | cons v visits ih =>
    rcases ih mem with mem | later
    · cases v with
      | enter q =>
        rcases mem_cons.mp mem with rfl | mem
        · exact .inr (.head _)
        · exact .inl mem
      | leave q => exact .inl (mem_of_mem_tail mem)
    · exact .inr (.tail _ later)

theorem enter_mem_of_mem_openAfter {visits : List Visit} (mem : part ∈ openAfter visits) :
    .enter part ∈ visits := by
  rcases enter_mem_of_mem_foldl_open mem with none | entered
  · cases none
  · exact entered

theorem mem_regionsIn_of_opens (entered : .enter part ∈ unit.tour) (opens : part.opens = true) :
    .inside part.node ∈ regionsIn unit := by
  have mem : part ∈ (openings unit).map Prod.fst := by
    rw [map_fst_openings]
    exact mem_filterMap.mpr ⟨_, entered, by simp [Visit.opening?, opens]⟩
  obtain ⟨e, he, rfl⟩ := mem_map.mp mem
  exact mem_append_left _ (mem_map.mpr ⟨e, he, rfl⟩)

theorem regionsOf_subset {around : List Part} (inside : ∀ part ∈ around, .enter part ∈ unit.tour) :
    regionsOf around ⊆ regionsIn unit := by
  intro r mem
  rcases mem_append.mp mem with mem | mem
  · obtain ⟨part, here, same⟩ := mem_filterMap.mp mem
    rw [Part.region?] at same
    split at same
    · next opens =>
        cases same
        exact mem_regionsIn_of_opens (inside part here) opens
    · cases same
  · exact mem_append_right _ mem

theorem regionsOf_openAfter_subset (split : unit.tour = before ++ after) :
    regionsOf (openAfter before) ⊆ regionsIn unit := by
  exact regionsOf_subset fun part mem => split ▸ mem_append_left _ (enter_mem_of_mem_openAfter mem)

theorem regionOf_mem_regionsOf (around : List Part) : regionOf around ∈ regionsOf around := by
  obtain ⟨outer, regions⟩ := regionsOf_eq_cons around
  rw [regions]
  exact .head _

theorem lt_index_of_mem_openings {e : Part × ScopeId} (mem : e ∈ openings unit) :
    initial.scopes.length < e.2.index := by
  have index : e.2.index ∈ (openings unit).map fun e => e.2.index := mem_map.mpr ⟨e, mem, rfl⟩
  rw [map_snd_openings, mem_range'_1] at index
  omega

/-- Where the scope of a region is. -/
theorem scope_of_mem_regionsIn (numbered : unit.WellNumbered) {r : Region}
    (mem : r ∈ regionsIn unit) :
    (r = .builtin ∧ (places unit).scope r = builtinScope) ∨
      (r = .top ∧ (places unit).scope r = initial.nextScope) ∨
      ∃ e ∈ openings unit, r = .inside e.1.node ∧ (places unit).scope r = e.2 := by
  rcases mem_append.mp mem with mem | mem
  · obtain ⟨e, he, rfl⟩ := mem_map.mp mem
    exact .inr (.inr ⟨e, he, rfl, (places_fit numbered).scope e he⟩)
  · rcases mem_pair.mp mem with rfl | rfl
    · exact .inr (.inl ⟨rfl, rfl⟩)
    · exact .inl ⟨rfl, rfl⟩

theorem builtinScope_lt : builtinScope.index < initial.scopes.length :=
  hasScope_iff.mp initial_hasScope

theorem nodup_ids_openings (unit : CompilationUnit) : ((openings unit).map Prod.snd).Nodup := by
  refine List.Nodup.of_map ScopeId.index ?_
  rw [map_map]
  exact (map_snd_openings unit).symm ▸ nodup_range'

/-- Different regions have different scopes. -/
theorem scope_inj (numbered : unit.WellNumbered) {r r' : Region} (mem : r ∈ regionsIn unit)
    (mem' : r' ∈ regionsIn unit) (same : (places unit).scope r = (places unit).scope r') : r = r' := by
  have low := builtinScope_lt
  have apart : ∀ e ∈ openings unit, builtinScope ≠ e.2 ∧
      initial.nextScope ≠ e.2 := by
    intro e he
    have high := lt_index_of_mem_openings he
    refine ⟨fun eq => ?_, fun eq => ?_⟩ <;> rw [← eq] at high
    · omega
    · exact Nat.lt_irrefl _ high
  have first : builtinScope ≠ initial.nextScope := by
    intro eq
    rw [eq] at low
    exact Nat.lt_irrefl _ low
  rcases scope_of_mem_regionsIn numbered mem with ⟨rfl, at₁⟩ | ⟨rfl, at₁⟩ | ⟨e, he, rfl, at₁⟩ <;>
  rcases scope_of_mem_regionsIn numbered mem' with ⟨rfl, at₂⟩ | ⟨rfl, at₂⟩ | ⟨e', he', rfl, at₂⟩ <;>
  replace same := at₁.symm.trans (same.trans at₂)
  · rfl
  · exact absurd same first
  · exact absurd same (apart e' he').1
  · exact absurd same.symm first
  · rfl
  · exact absurd same (apart e' he').2
  · exact absurd same.symm (apart e he).1
  · exact absurd same.symm (apart e he).2
  · rw [inj_on_of_nodup_map (nodup_ids_openings unit) he he' same]

end Names

end BlFront
