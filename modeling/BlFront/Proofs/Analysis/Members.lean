import BlFront.Proofs.Analysis.Scoping

/-!
# What the scope of members holds

The scope of a struct or class holds its fields and, behind them, its methods, and nothing else.  So
a name means there the last of the members that have it.
-/

namespace BlFront

open List SymbolTable CompilationUnit

variable {around : List Part} {visits : List Visit}

/-! ### Regions -/

variable {inner : List Part}

theorem regionOf_append_of_opens {outer : List Part} (part : Part) (mem : part ∈ inner)
    (opens : part.opens = true) : regionOf (inner ++ outer) = regionOf inner := by
  rw [regionOf, regionOf, List.findSome?_append]
  cases found : inner.findSome? Part.region? with
  | none =>
    have none := List.findSome?_eq_none_iff.mp found part mem
    simp [Part.region?, opens] at none
  | some region => rfl

/-- What is open around visits that close all that they open comes behind what they open. -/
theorem Nested.pickedFrom_append (nested : Nested inner visits)
    (pick : Visit → Option Part) :
    pickedFrom pick (inner ++ around) visits =
      (pickedFrom pick inner visits).map fun d => (d.1, d.2 ++ around) := by
  induction visits generalizing inner with
  | nil => rfl
  | cons v visits ih =>
    rw [pickedFrom, pickedFrom, map_append, map_map]
    cases v with
    | enter part => exact congrArg _ (ih nested)
    | leave part =>
      obtain ⟨first, nested⟩ := nested
      obtain ⟨rest, rfl⟩ : ∃ rest, inner = part :: rest := ⟨_, eq_cons_of_mem_head? first⟩
      exact congrArg _ (ih nested)

/-- A tour of whole parts closes all that it opens. -/
theorem Tree.foldl_open (tree : Tree visits) (around : List Part) :
    visits.foldl Visit.open around = around := by
  induction tree generalizing around with
  | nil => rfl
  | part _ _ ihInside ihRest =>
    simp only [Part.around, cons_append, foldl_cons, foldl_append, Visit.open,
      foldl_nil, ihInside, ihRest, tail_cons]

theorem pickedFrom_flatMap {α : Type} {tour : α → List Visit} (trees : ∀ x, Tree (tour x))
    (pick : Visit → Option Part) (around : List Part) (xs : List α) :
    pickedFrom pick around (xs.flatMap tour) = xs.flatMap fun x => pickedFrom pick around (tour x) := by
  induction xs with
  | nil => rfl
  | cons x xs ih =>
    rw [flatMap_cons, flatMap_cons, pickedFrom_append, (trees x).foldl_open, ih]

theorem pickedFrom_around {inside : List Visit} (tree : Tree inside) (pick : Visit → Option Part)
    (around : List Part) (part : Part) : pickedFrom pick around (part.around inside) =
      (pick (.enter part)).toList.map (·, around) ++ (pickedFrom pick (part :: around) inside ++
        (pick (.leave part)).toList.map (·, around)) := by
  rw [Part.around, pickedFrom, pickedFrom_append]
  simp only [Visit.outside, Visit.open, pickedFrom, tree.foldl_open, tail_cons, append_nil]

/-- What is entered at different moments are different nodes. -/
theorem CompilationUnit.WellNumbered.apart {unit : CompilationUnit} {before after : List Visit}
    (numbered : unit.WellNumbered) (split : unit.tour = before ++ after) {p q : Part} (entered : .enter p ∈ before)
    (entered' : .enter q ∈ after) {n : NodeId} (node : p.id? = some n) : q.id? ≠ some n := by
  intro node'
  have parts := numbered.parts
  rw [entered_eq, split, filterMap_append, filterMap_append] at parts
  exact disjoint_of_nodup_append parts
    (mem_filterMap.mpr ⟨p, mem_filterMap.mpr ⟨_, entered, rfl⟩, node⟩)
    (mem_filterMap.mpr ⟨q, mem_filterMap.mpr ⟨_, entered', rfl⟩, node'⟩)

namespace Names

variable {unit : CompilationUnit} {n : NodeId} {d : Part × List Part}

theorem exists_open_of_inside {around : List Part} {n : NodeId} (mem : .inside n ∈ regionsOf around) :
    ∃ q ∈ around, q.id? = some n := by
  rcases mem_append.mp mem with mem | mem
  · obtain ⟨q, here, region⟩ := mem_filterMap.mp mem
    rw [Part.region?] at region
    split at region
    · next opens =>
        cases region
        exact ⟨q, here, id?_eq_node_of_opens opens⟩
    · cases region
  · simp at mem

/-- Visits that enter no part with some identity declare nothing in its region, unless it is around. -/
theorem regionOf_ne_of_declaredFrom (outside : ∀ q ∈ around, q.id? ≠ some n)
    (apart : ∀ q, .enter q ∈ visits → q.id? ≠ some n)
    (mem : d ∈ declaredFrom around visits) : regionOf d.2 ≠ .inside n := by
  intro region
  obtain ⟨before, v, after, rfl, _, same⟩ := mem_pickedFrom mem
  obtain ⟨q, open_, node⟩ := exists_open_of_inside (region ▸ regionOf_mem_regionsOf d.2)
  have opened : q ∈ before.foldl Visit.open around := by
    rw [same] at open_
    cases v with
    | enter p => exact open_
    | leave p => exact mem_of_mem_tail open_
  rcases enter_mem_of_mem_foldl_open opened with mem | entered
  · exact outside q mem node
  · exact apart q (mem_append_left _ entered) node

theorem declaredFrom_type (around : List Part) (written : TypeExpr) :
    declaredFrom around written.tour = [] := by
  have none : written.tour.filterMap Visit.declaring? = [] := by
    induction written with
    | named tag name => rfl
    | array tag element ih =>
      rw [TypeExpr.tour, Part.around, filterMap_cons_none rfl, filterMap_append, ih]
      rfl
  rw [← map_eq_nil_iff (f := Prod.fst), map_fst_pickedFrom, none]

theorem declaredFrom_field (around : List Part) (f : TypedName) :
    declaredFrom around (fieldTour f) = [(.field f, around)] := by
  rw [fieldTour, declaredFrom, pickedFrom_around f.type.tree]
  exact congrArg (· ++ _) (declaredFrom_type _ f.type)

/-- In the region around it, a function declares only itself. -/
theorem declaredFrom_function (f : FunctionDecl) (apart : ∀ q, .enter q ∈ f.tour → q.id? ≠ some n)
    (region : regionOf around = .inside n) :
    (declaredFrom around f.tour).filter (regionOf ·.2 == .inside n) = [(.function f, around)] := by
  have tour := (Stmt.funDecl f).tour_eq
  have tree := Branch.tree_inside (.stmt (.funDecl f))
  simp only [Stmt.tour, Stmt.part, Branch.inside] at tour tree
  rw [tour] at apart ⊢
  generalize (Stmt.funDecl f).inside.flatMap Branch.tour = inside at apart tree ⊢
  have deeper : ∀ d ∈ declaredFrom (.function f :: around) inside, ¬(regionOf d.2 == .inside n) := by
    intro d mem
    rw [← nil_append (Part.function f :: around), declaredFrom, tree.closed.pickedFrom_append] at mem
    obtain ⟨d, here, rfl⟩ := mem_map.mp mem
    have own : (d.1, d.2 ++ [Part.function f]) ∈ declaredFrom ([] ++ [.function f]) inside := by
      rw [declaredFrom, tree.closed.pickedFrom_append]
      exact mem_map.mpr ⟨d, here, rfl⟩
    have other := regionOf_ne_of_declaredFrom
      (forall_mem_singleton.mpr (apart _ (.head _)))
      (fun q entered => apart q (by simp [Part.around, entered])) own
    rw [append_cons, regionOf_append_of_opens (.function f) (by simp) rfl]
    simpa using other
  rw [declaredFrom, pickedFrom_around tree, filter_append, filter_append,
    filter_eq_nil_iff.mpr deeper]
  simp [Visit.declaring?, region]

/-! ### Owners of members -/

/-- Whether a part declares a struct or a class. -/
def hasMembers : Part → Bool
  | .structDecl _ | .classDecl _ => true
  | _ => false

/-- In its region, a struct or class declares the parts right inside it. -/
theorem declaredFrom_inside {s : Stmt} (owner : hasMembers s.part = true)
    (apart : ∀ q, .enter q ∈ s.inside.flatMap Branch.tour → q.id? ≠ some n)
    (region : regionOf around = .inside n) :
    (declaredFrom around (s.inside.flatMap Branch.tour)).filter (regionOf ·.2 == .inside n) =
      s.part.children.map (·, around) := by
  have field : ∀ f, (declaredFrom around (fieldTour f)).filter (regionOf ·.2 == .inside n) =
      [(.field f, around)] := fun f => by simp [declaredFrom_field, region]
  rw [declaredFrom, pickedFrom_flatMap Branch.tree, filter_flatMap, map_eq_flatMap]
  cases s with
  | structDecl decl =>
    simp only [Stmt.inside, Stmt.part, Part.children, flatMap_map]
    exact flatMap_congr fun f _ => field f
  | classDecl decl =>
    simp only [Stmt.inside, Stmt.part, Part.children, flatMap_append, flatMap_map]
    refine congrArg₂ _ (flatMap_congr fun f _ => field f)
      (flatMap_congr fun f mem => declaredFrom_function f (fun q entered => apart q ?_) region)
    exact mem_flatMap.mpr ⟨.stmt (.funDecl f), by simp [Stmt.inside, mem], entered⟩
  | _ => cases owner

variable {part : Part}

/-- The tour of a unit visits a struct or class from end to end. -/
theorem exists_split (entered : part ∈ unit.entered) (owner : hasMembers part = true) :
    ∃ (s : Stmt) (before after : List Visit), s.part = part ∧
      unit.tour = before ++ (part.around (s.inside.flatMap Branch.tour) ++ after) := by
  have split : ∀ {s near}, unit.HasStmt near s → ∃ before after,
      unit.tour = before ++ (s.part.around (s.inside.flatMap Branch.tour) ++ after) := by
    intro s near has
    obtain ⟨_, _, within⟩ := has.within
    obtain ⟨before, after, same⟩ := within.tour_infix
    refine ⟨before, after, ?_⟩
    rw [← same, append_assoc, ← s.tour_eq]
    rfl
  cases part with
  | structDecl decl =>
    obtain ⟨near, has⟩ := stands_of_entered entered
    obtain ⟨before, after, same⟩ := split has
    exact ⟨_, before, after, rfl, same⟩
  | classDecl decl =>
    obtain ⟨near, has⟩ := stands_of_entered entered
    obtain ⟨before, after, same⟩ := split has
    exact ⟨_, before, after, rfl, same⟩
  | _ => cases owner

/-- The members of a struct or class are all that is declared in its region. -/
theorem declaredFrom_members (numbered : unit.WellNumbered)
    (entered : part ∈ unit.entered) (owner : hasMembers part = true) : ∃ around,
    (declaredFrom [] unit.tour).filter (regionOf ·.2 == .inside part.node) =
      part.children.map (·, part :: around) := by
  have opens : part.opens = true := by cases part <;> first | rfl | cases owner
  have node := id?_eq_node_of_opens opens
  obtain ⟨s, before, after, rfl, split⟩ := exists_split entered owner
  have tree : Tree (s.inside.flatMap Branch.tour) := Branch.tree_inside (.stmt s)
  have members := fun around n => @declaredFrom_inside around n s owner
  generalize s.inside.flatMap Branch.tour = inside at split tree members
  generalize s.part = part at *
  have early : ∀ q, .enter q ∈ before → q.id? ≠ some part.node := fun q entered same =>
    CompilationUnit.WellNumbered.apart numbered split entered (.head _) same node
  have late : ∀ q, .enter q ∈ inside ++ .leave part :: after → q.id? ≠ some part.node := by
    intro q entered
    have split' : unit.tour = (before ++ [.enter part]) ++ (inside ++ .leave part :: after) := by
      rw [split, Part.around]
      simp
    exact CompilationUnit.WellNumbered.apart numbered split'
      (mem_append_right _ (.head _)) entered node
  have open_ : ∀ q ∈ openAfter before, q.id? ≠ some part.node := fun q mem =>
    early q (enter_mem_of_mem_openAfter mem)
  have elsewhere : ∀ {around : List Part} {visits : List Visit},
      (∀ q ∈ around, q.id? ≠ some part.node) → (∀ q, .enter q ∈ visits → q.id? ≠ some part.node) →
        (declaredFrom around visits).filter (regionOf ·.2 == .inside part.node) = [] := by
    intro around visits outside apart
    refine filter_eq_nil_iff.mpr fun d mem => ?_
    simpa using regionOf_ne_of_declaredFrom outside apart mem
  have closes : (part.around inside).foldl Visit.open (openAfter before) = openAfter before := by
    rw [Part.around, foldl_cons, foldl_append, tree.foldl_open]
    rfl
  have own : regionOf (openAfter before) ≠ .inside part.node := by
    intro same
    obtain ⟨q, mem, node'⟩ := exists_open_of_inside (same ▸ regionOf_mem_regionsOf _)
    exact open_ q mem node'
  have declared : (declaredFrom (openAfter before) (part.around inside)).filter
      (regionOf ·.2 == .inside part.node) = part.children.map (·, part :: openAfter before) := by
    have region : regionOf (part :: openAfter before) = .inside part.node := by
      simp [regionOf, Part.region?, opens]
    have inner := members _ _ (fun q entered => late q (mem_append_left _ entered)) region
    have leaving : (Visit.leave part).declaring? = none := by
      cases part <;> first | rfl | cases owner
    rw [declaredFrom, pickedFrom_around tree, leaving, filter_append, filter_append, inner,
      filter_eq_nil_iff.mpr (by simpa using fun _ _ => own)]
    exact append_nil _
  refine ⟨openAfter before, ?_⟩
  rw [split, declaredFrom, pickedFrom_append, pickedFrom_append, filter_append,
    filter_append]
  refine Eq.trans (congr (congrArg _ (elsewhere (by simp) early)) (congr (congrArg _ declared) ?_))
    (append_nil _)
  exact elsewhere (closes ▸ open_) fun q entered => late q (by simp [entered])

/-! ### Names of members -/

variable {r : Reactor} {part : Part}

theorem symbolAt_of_mem_zipIdx (bound : Bindings unit r) {e : (Part × List Part) × Nat}
    (mem : e ∈ (declaredFrom [] unit.tour).zipIdx initial.symbols.length) :
    symbolAt r e.1.1.node = ⟨e.2⟩ := by
  have node := id?_eq_node_of_isDeclaration
    (isDeclaration_of_mem_declaredFrom (mem_zipIdx_declaredFrom mem))
  exact symbolAt_eq (bound.declared _ (mem_declarations_of_mem_zipIdx mem) _ node)

/-- The declarations in the region of a struct or class, by its members. -/
theorem symbols_members (numbered : unit.WellNumbered) (bound : Bindings unit r)
    (entered : part ∈ unit.entered) (owner : hasMembers part = true) (name : String) :
    ((declaredBy unit.tour).filter (·.isIn (.inside part.node) name)).map (·.symbol) =
      (part.children.filter (·.declaredName == name)).map fun m => symbolAt r m.node := by
  obtain ⟨around, members⟩ := declaredFrom_members numbered entered owner
  have builtin : builtinDeclarations.filter (·.isIn (.inside part.node) name) = [] := by
    refine filter_eq_nil_iff.mpr fun d mem => ?_
    obtain ⟨_, _, rfl⟩ := mem_map.mp mem
    simp [Declaration.isIn, Declaration.region, Declaration.ofBuiltin]
  rw [declaredBy, filter_append, builtin, nil_append]
  let keep (d : Part × List Part) : Bool :=
    regionOf d.2 == .inside part.node && d.1.declaredName == name
  have kept : ∀ e : (Part × List Part) × Nat,
      (Declaration.ofPart e.1 ⟨e.2⟩).isIn (.inside part.node) name = keep e.1 := by
    intro e
    rw [Declaration.isIn, Declaration.region_ofPart]
    rfl
  calc _ = (((declaredFrom [] unit.tour).zipIdx initial.symbols.length).filter
            fun e => keep e.1).map fun e => symbolAt r e.1.1.node := by
          rw [filter_map, map_map]
          refine (congrArg _ (filter_congr fun e _ => kept e)).trans ?_
          exact map_congr_left fun e mem =>
            (symbolAt_of_mem_zipIdx bound (mem_of_mem_filter mem)).symm
    _ = ((declaredFrom [] unit.tour).filter keep).map fun d => symbolAt r d.1.node := by
          conv => rhs; rw [← zipIdx_map_fst initial.symbols.length (declaredFrom [] _),
            filter_map, map_map]
          rfl
    _ = (part.children.filter (·.declaredName == name)).map fun m => symbolAt r m.node := by
          have first : (declaredFrom [] unit.tour).filter keep =
              (part.children.map (·, part :: around)).filter (·.1.declaredName == name) := by
            rw [← members, filter_filter]
            exact filter_congr fun d _ => Bool.and_comm ..
          rw [first, filter_map, map_map]
          rfl

/-- Among the members, the last one with a name has it. -/
theorem get?_members (numbered : unit.WellNumbered) (bound : Bindings unit r)
    (entered : part ∈ unit.entered) (owner : hasMembers part = true) (name : String) :
    ((table unit).declaredIn ((places unit).scope (.inside part.node))).get? name =
      (part.children.reverse.find? (·.declaredName == name)).map fun m => symbolAt r m.node := by
  have opens : part.opens = true := by cases part <;> first | rfl | cases owner
  have region : .inside part.node ∈ regionsIn unit := 
    mem_regionsIn_of_opens (mem_entered.mp entered) opens
  have found := get?_declaredIn_scope numbered (append_nil unit.tour).symm region name
  rw [← table_eq] at found
  rw [found, ← List.getLast?_map, symbols_members numbered bound entered owner, List.getLast?_map,
    List.getLast?_filter]

theorem symbol?_symbolAt (numbered : unit.WellNumbered) (bound : Bindings unit r)
    (mem : d ∈ declaredFrom [] unit.tour) :
    (table unit).symbol? (symbolAt r d.1.node) = some ((places unit).entry d) := by
  rw [← zipIdx_map_fst initial.symbols.length (declaredFrom [] _)] at mem
  obtain ⟨e, he, rfl⟩ := mem_map.mp mem
  rw [symbolAt_of_mem_zipIdx bound he, symbol?_of_mem_zipIdx numbered he]

/-- The symbol of a member is of the kind that the part declares. -/
theorem hasKind_member (numbered : unit.WellNumbered) (bound : Bindings unit r)
    (entered : part ∈ unit.entered) (owner : hasMembers part = true) {m : Part}
    (mem : m ∈ part.children) (wanted : SymbolKind → Bool) :
    (table unit).hasKind wanted (symbolAt r m.node) =
      wanted (m.symbolKind ((places unit).scope (.inside m.node)) part.isClass) := by
  obtain ⟨around, members⟩ := declaredFrom_members numbered entered owner
  have declared : (m, part :: around) ∈ declaredFrom [] unit.tour :=
    mem_of_mem_filter (members ▸ mem_map_of_mem mem)
  have opens : part.opens = true := by cases part <;> first | rfl | cases owner
  have inClass : isInClass (part :: around) = part.isClass := by
    rw [isInClass, List.find?_cons_of_pos opens]
    rfl
  rw [hasKind, kind?, symbol?_symbolAt numbered bound declared, ← inClass]
  rfl

/-- The scope of the members of a struct or class. -/
theorem members?_owner (numbered : unit.WellNumbered) (bound : Bindings unit r)
    (entered : part ∈ unit.entered) (owner : hasMembers part = true) :
    (table unit).members? (symbolAt r part.node) = some ((places unit).scope (.inside part.node)) := by
  have declaring : (Visit.enter part).declaring? = some part := by
    cases part <;> first | rfl | cases owner
  have mem : part ∈ (declaredFrom [] unit.tour).map Prod.fst := by
    rw [map_fst_pickedFrom]
    exact mem_filterMap.mpr ⟨_, mem_entered.mp entered, declaring⟩
  obtain ⟨⟨part, around⟩, declared, rfl⟩ := mem_map.mp mem
  rw [members?, kind?, symbol?_symbolAt numbered bound declared]
  cases part <;> first | rfl | cases owner

/-- The search for a member in one struct or class finds the last one of the name, if it is of the
kind that is wanted. -/
theorem findMember?_owner (numbered : unit.WellNumbered) (bound : Bindings unit r)
    (entered : part ∈ unit.entered) (owner : hasMembers part = true) (wanted : SymbolKind → Bool)
    (name : String) :
    (table unit).findMember? [symbolAt r part.node] wanted name =
      ((part.children.reverse.find? (·.declaredName == name)).filter fun m =>
        wanted (m.symbolKind ((places unit).scope (.inside m.node)) part.isClass)).map
          fun m => symbolAt r m.node := by
  have members := members?_owner numbered bound entered owner
  obtain ⟨scope, held⟩ : ∃ scope, (table unit).scope? ((places unit).scope (.inside part.node)) =
      some scope := by
    obtain ⟨kind, known, owns⟩ := Option.bind_eq_some_iff.mp members
    obtain ⟨symbol, held, rfl⟩ := Option.map_eq_some_iff.mp known
    exact Option.isSome_iff_exists.mp ((table_closed unit).members held owns)
  have faithful : (table unit).Faithful :=
    (walkTo_lays numbered (append_nil unit.tour).symm).faithful
  have found := get?_members numbered bound entered owner name
  rw [← faithful.declarations held] at found
  simp only [findMember?, List.findSome?_cons, List.findSome?_nil, members,
    Option.bind_some, held, Option.bind_eq_bind, found]
  cases last : part.children.reverse.find? (·.declaredName == name) with
  | none => rfl
  | some m =>
    have mem : m ∈ part.children := mem_reverse.mp (mem_of_find?_eq_some last)
    rw [Option.map_some, Option.bind_some, hasKind_member numbered bound entered owner mem]
    cases kind : wanted (m.symbolKind ((places unit).scope (.inside m.node)) part.isClass) <;>
      simp [guard, kind]

end Names

end BlFront
