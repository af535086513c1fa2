import BlFront.Proofs.Analysis.Kinds
import BlFront.Proofs.Analysis.Walk
import BlFront.Proofs.Syntax.Numbering

/-!
# What the pass over names asks for

The pass that binds names asks for each attribute once, with values that fit the complete table.
-/

namespace BlFront.Names

open List SymbolTable

variable {part : Part} {q : Request} {scope : ScopeId} {name : String} {s : SymbolId}
  {t : SymbolTable} {tag : Tag} {w : Walk}

/-! ### Targets -/

/-- What is asked for about the node of a part when it is entered. -/
def entering : Part → List AttrName
  | .function _ | .structDecl _ | .classDecl _ => [.scope, .symbol]
  | .expr (.reference _ _) _ | .type (.named _ _) => [.scope, .symbol]
  | .returnStmt _ _ => [.scope, .containingFunction]
  | .expr (.selfRef _) _ => [.scope, .containingClass]
  | _ => [.scope]

/-- What is asked for about the node of a part when it is left. -/
def leaving : Part → List AttrName
  | .param _ | .field _ | .varDecl _ => [.symbol]
  | _ => []

def attributes : Visit → List Attribute
  | .enter part => part.attrs (entering part)
  | .leave part => part.attrs (leaving part)

theorem nodup_names (part : Part) : (entering part ++ leaving part).Nodup := by
  cases part with
  | expr e expected => cases e <;> simp [entering, leaving]
  | type t => cases t <;> simp [entering, leaving]
  | _ => simp [entering, leaving]

theorem returns_not_named (part : Part) : AttrName.returns ∉ entering part ++ leaving part := by
  cases part with
  | expr e expected => cases e <;> simp [entering, leaving]
  | type t => cases t <;> simp [entering, leaving]
  | _ => simp [entering, leaving]

theorem targets_resolveName (w : Walk) (tag : Tag) (name : String) :
    (w.resolveName tag name).requests.flatMap Request.targets =
      w.requests.flatMap Request.targets ++ [AttrName.symbol.of tag.id] := by
  unfold Walk.resolveName
  split <;> exact flatMap_append ..

theorem targets_containing (w : Walk) (attr : Attribute) (found : Option SymbolId) (span : Span)
    (message : String) : (w.containing attr found span message).requests.flatMap Request.targets =
      w.requests.flatMap Request.targets ++ [attr] := by
  cases found <;> exact flatMap_append ..

theorem targets_asks (w : Walk) (v : Visit) :
    (w.asks v).flatMap Request.targets = attributes v := by
  cases v with
  | leave part => cases part <;> rfl
  | enter part =>
    cases part with
    | returnStmt tag value => exact targets_containing _ _ _ _ _
    | expr e expected =>
      cases e with
      | reference tag name => exact targets_resolveName _ _ _
      | selfRef tag => exact targets_containing _ _ _ _ _
      | _ => rfl
    | type t =>
      cases t with
      | named tag name => exact targets_resolveName _ _ _
      | array tag element => rfl
    | _ => rfl

theorem attrs_append (part : Part) (names names' : List AttrName) :
    part.attrs names ++ part.attrs names' = part.attrs (names ++ names') := by
  cases h : part.id? <;> simp [Part.attrs, h]

private theorem flatMap_attributes_split (visits : List Visit) :
    (visits.flatMap attributes).Perm
      ((visits.filterMap Visit.entered?).flatMap (fun part => part.attrs (entering part)) ++
        (visits.filterMap Visit.left?).flatMap fun part => part.attrs (leaving part)) := by
  induction visits with
  | nil => exact .refl _
  | cons v visits ih =>
    cases v with
    | enter part =>
      simp only [flatMap_cons, filterMap_cons, Visit.entered?, Visit.left?]
      rw [append_assoc]
      exact ih.append_left _
    | leave part =>
      simp only [flatMap_cons, filterMap_cons, Visit.entered?, Visit.left?]
      exact (ih.append_left _).trans (perm_append_comm_assoc ..)

/-- The attributes of all parts, whether they are asked for on entering or on leaving. -/
theorem flatMap_attributes_perm {visits : List Visit} (tree : Tree visits) :
    (visits.flatMap attributes).Perm ((visits.filterMap Visit.entered?).flatMap fun part =>
      part.attrs (entering part ++ leaving part)) := by
  refine (flatMap_attributes_split visits).trans ?_
  refine ((tree.left_perm_entered.flatMap_right _).append_left _).trans ?_
  refine (flatMap_append_perm _ _ _).trans ?_
  simp only [attrs_append]
  exact .refl _

/-! ### What visits ask for -/

/-- The name that a part uses. -/
def named? : Part → Option (Tag × String)
  | .expr (.reference tag name) _ => some (tag, name)
  | .type (.named tag name) => some (tag, name)
  | _ => none

theorem id?_of_named? (named : named? part = some (tag, name)) : part.id? = some tag.id := by
  cases part with
  | expr e expected =>
    cases e with
    | reference tag name => cases named; rfl
    | _ => cases named
  | type t =>
    cases t with
    | named tag name => cases named; rfl
    | array tag element => cases named
  | _ => cases named

/-- The rule that looks a name up again when all scopes are complete. -/
def lateRule (tag : Tag) (name : String) : Rule :=
  .map "resolve reference" Kind.scope (AttrName.scope.of tag.id) (AttrName.symbol.of tag.id)
    (Walk.lateMeaning name tag.span)

/-- The requests of a visit. -/
inductive Asked (w : Walk) : Visit → Request → Prop
  | placed {part : Part} {n : NodeId} (node : part.id? = some n) :
      Asked w (.enter part) (.seed (AttrName.scope.of n) (.scope w.scope))
  | declared {v : Visit} {part : Part} {n : NodeId} (declaring : v.declaring? = some part)
      (node : part.id? = some n) : Asked w v (binding n w.table.nextSymbol)
  | found {part : Part} {tag : Tag} {name : String} {s : SymbolId}
      (named : named? part = some (tag, name)) (known : w.table.lookup? w.scope name = some s) :
      Asked w (.enter part) (binding tag.id s)
  | later {part : Part} {tag : Tag} {name : String} (named : named? part = some (tag, name))
      (unknown : w.table.lookup? w.scope name = none) :
      Asked w (.enter part) (.register (lateRule tag name))
  | inFunction {tag : Tag} {value : Option Expr} {s : SymbolId}
      (inside : w.table.containingFunction? w.scope = some s) :
      Asked w (.enter (.returnStmt tag value))
        (.seed (AttrName.containingFunction.of tag.id) (.symbol s))
  | noFunction {tag : Tag} {value : Option Expr}
      (outside : w.table.containingFunction? w.scope = none) :
      Asked w (.enter (.returnStmt tag value))
        (.reject ⟨tag.span, "return outside of function"⟩ [AttrName.containingFunction.of tag.id])
  | inClass {tag : Tag} {expected : Option Expected} {s : SymbolId}
      (inside : w.table.containingClass? w.scope = some s) :
      Asked w (.enter (.expr (.selfRef tag) expected))
        (.seed (AttrName.containingClass.of tag.id) (.symbol s))
  | noClass {tag : Tag} {expected : Option Expected}
      (outside : w.table.containingClass? w.scope = none) :
      Asked w (.enter (.expr (.selfRef tag) expected))
        (.reject ⟨tag.span, "self outside of class"⟩ [AttrName.containingClass.of tag.id])

theorem mem_resolveName :
    q ∈ (w.resolveName tag name).requests ↔ q ∈ w.requests ∨
      (∃ s, w.table.lookup? w.scope name = some s ∧ q = binding tag.id s) ∨
      w.table.lookup? w.scope name = none ∧ q = .register (lateRule tag name) := by
  unfold Walk.resolveName
  cases w.table.lookup? w.scope name <;>
    simp [Walk.bindNode, Walk.request, binding, lateRule]

theorem mem_containing {attr : Attribute} {found : Option SymbolId} {span : Span} {message : String} :
    q ∈ (w.containing attr found span message).requests ↔ q ∈ w.requests ∨
      (∃ s, found = some s ∧ q = .seed attr (.symbol s)) ∨
      found = none ∧ q = .reject ⟨span, message⟩ [attr] := by
  cases found <;> simp [Walk.containing, Walk.request]

theorem asked_of_mem {v : Visit} (h : q ∈ w.asks v) : Asked w v q := by
  -- most parts are only placed
  have only : ∀ {part : Part} {n : NodeId}, part.id? = some n → w.asks (.enter part) =
      [.seed (AttrName.scope.of n) (.scope w.scope)] → q ∈ w.asks (.enter part) →
      Asked w (.enter part) q := by
    intro part n node placed hq
    rw [placed, mem_singleton] at hq
    exact hq ▸ .placed node
  have owner : ∀ {part : Part} {n : NodeId}, part.id? = some n →
      (Visit.enter part).declaring? = some part → w.asks (.enter part) =
        [.seed (AttrName.scope.of n) (.scope w.scope), binding n w.table.nextSymbol] →
      q ∈ w.asks (.enter part) → Asked w (.enter part) q := by
    intro part n node declaring both hq
    rw [both, mem_pair] at hq
    rcases hq with rfl | rfl
    · exact .placed node
    · exact .declared declaring node
  cases v with
  | leave part =>
    cases part with
    | param decl => exact mem_singleton.mp h ▸ .declared rfl rfl
    | field decl => exact mem_singleton.mp h ▸ .declared rfl rfl
    | varDecl decl => exact mem_singleton.mp h ▸ .declared rfl rfl
    | _ => cases h
  | enter part =>
    cases part with
    | function decl => exact owner rfl rfl rfl h
    | structDecl decl => exact owner rfl rfl rfl h
    | classDecl decl => exact owner rfl rfl rfl h
    | typed decl written => cases h
    | returnStmt tag value =>
      rcases mem_containing.mp h with h | ⟨s, inside, rfl⟩ | ⟨outside, rfl⟩
      · exact mem_singleton.mp h ▸ .placed rfl
      · exact .inFunction inside
      · exact .noFunction outside
    | expr e expected =>
      cases e with
      | reference tag name =>
        rcases mem_resolveName.mp h with h | ⟨s, known, rfl⟩ | ⟨unknown, rfl⟩
        · exact mem_singleton.mp h ▸ .placed rfl
        · exact .found rfl known
        · exact .later rfl unknown
      | selfRef tag =>
        rcases mem_containing.mp h with h | ⟨s, inside, rfl⟩ | ⟨outside, rfl⟩
        · exact mem_singleton.mp h ▸ .placed rfl
        · exact .inClass inside
        · exact .noClass outside
      | _ => exact only rfl rfl h
    | type t =>
      cases t with
      | named tag name =>
        rcases mem_resolveName.mp h with h | ⟨s, known, rfl⟩ | ⟨unknown, rfl⟩
        · exact mem_singleton.mp h ▸ .placed rfl
        · exact .found rfl known
        · exact .later rfl unknown
      | array tag element => exact only rfl rfl h
    | _ => exact only rfl rfl h

theorem placed_mem_asks {n : NodeId} (node : part.id? = some n) :
    .seed (AttrName.scope.of n) (.scope w.scope) ∈ w.asks (.enter part) := by
  cases part with
  | typed decl written => cases node
  | returnStmt tag value =>
    cases node
    exact mem_containing.mpr (.inl (.head _))
  | expr e expected =>
    cases node
    cases e with
    | reference tag name => exact mem_resolveName.mpr (.inl (.head _))
    | selfRef tag => exact mem_containing.mpr (.inl (.head _))
    | _ => exact .head _
  | type t =>
    cases node
    cases t with
    | named tag name => exact mem_resolveName.mpr (.inl (.head _))
    | array tag element => exact .head _
  | _ =>
    cases node
    exact .head _

theorem named_mem_asks (named : named? part = some (tag, name)) :
    (∃ s, binding tag.id s ∈ w.asks (.enter part)) ∨
      .register (lateRule tag name) ∈ w.asks (.enter part) := by
  have looked : ∀ w' : Walk, (∃ s, binding tag.id s ∈ (w'.resolveName tag name).requests) ∨
      .register (lateRule tag name) ∈ (w'.resolveName tag name).requests := by
    intro w'
    cases known : w'.table.lookup? w'.scope name with
    | some s => exact .inl ⟨s, mem_resolveName.mpr (.inr (.inl ⟨s, known, rfl⟩))⟩
    | none => exact .inr (mem_resolveName.mpr (.inr (.inr ⟨known, rfl⟩)))
  cases part with
  | expr e expected =>
    cases e with
    | reference tag name =>
      cases named
      exact looked _
    | _ => cases named
  | type t =>
    cases t with
    | named tag name =>
      cases named
      exact looked _
    | array tag element => cases named
  | _ => cases named

/-! ### Requests -/

/-- The symbols that a unit declares, in the order in which its tour comes to them. -/
def declarations (unit : CompilationUnit) : List (Part × SymbolId) :=
  declarationsFrom initial.symbols.length unit.tour

/-- The complete table of a unit. -/
def table (unit : CompilationUnit) : SymbolTable := (walk unit .initial).table

theorem table_closed (unit : CompilationUnit) : (table unit).Closed := (walk_run unit).closed

theorem table_grows (unit : CompilationUnit) : initial.Grows (table unit) :=
  (pushScope_grows _ _).trans (walk_run unit).grows

/-- What is asked about the superclass of a class. -/
def superclassAttributes (entry : SymbolId × ClassDecl) : List Attribute :=
  entry.2.superclass.toList.map fun _ => AttrName.superclass.of entry.1

theorem targets_superclassRequests (t : SymbolTable) (symbol : SymbolId) (decl : ClassDecl) :
    (superclassRequests t symbol decl).flatMap Request.targets =
      superclassAttributes (symbol, decl) := by
  unfold superclassRequests superclassAttributes
  split
  · next h => simp [h]
  · next written h =>
      simp only [h, Option.toList_some, map_cons, map_nil]
      split
      · rfl
      · split <;> rfl

theorem targets_walk (w : Walk) (visits : List Visit) :
    (visits.foldl Walk.visit w).requests.flatMap Request.targets =
      w.requests.flatMap Request.targets ++ visits.flatMap attributes := by
  induction visits generalizing w with
  | nil => simp
  | cons v visits ih =>
    rw [foldl_cons, ih, Walk.requests_visit, flatMap_append, targets_asks,
      flatMap_cons, append_assoc]

theorem classes_walk (unit : CompilationUnit) :
    (walk unit .initial).classes = (declarations unit).filterMap classDeclared? :=
  (walk_run unit).classes

theorem targets_plan (unit : CompilationUnit) :
    (plan unit .initial).2.flatMap Request.targets =
      (AttrName.scope.of unit.tag.id :: unit.tour.flatMap attributes) ++
        ((declarations unit).filterMap classDeclared?).flatMap superclassAttributes := by
  have walked := targets_walk (begin unit) unit.tour
  have all : (plan unit .initial).2 = (walk unit .initial).requests ++
      (walk unit .initial).classes.flatMap fun c =>
        superclassRequests (table unit) c.1 c.2 := rfl
  rw [all, flatMap_append, flatMap_assoc, classes_walk]
  simp only [targets_superclassRequests]
  rw [show walk unit .initial = unit.tour.foldl Walk.visit (begin unit) from rfl, walked]
  rfl

theorem lookup?_fits (closed : t.Closed) {node : NodeId} (found : t.lookup? scope name = some s) :
    Fits t (AttrName.symbol.of node) (.symbol s) :=
  .inl ⟨rfl, closed.lookup? found⟩

theorem lateRule_decides (closed : t.Closed) (tag : Tag) (name : String) :
    (outlook t).Decides (lateRule tag name) := by
  refine decides_map fun v hv => ?_
  obtain ⟨scope, rfl, _⟩ := hv.scope rfl
  refine ⟨scope, rfl, fun w hw => ?_⟩
  unfold Walk.lateMeaning at hw
  split at hw
  · next s found =>
      split at hw
      · cases hw
      · cases hw
        exact lookup?_fits closed found
  · cases hw

theorem containingFunction?_isCallable (h : t.containingFunction? scope = some s) :
    t.hasKind (·.isCallable) s = true := by
  obtain ⟨frame, _, hs⟩ := exists_of_findSome?_eq_some h
  split at hs
  · split at hs
    · cases hs
      assumption
    · cases hs
  · cases hs

theorem containingClass?_isClass (h : t.containingClass? scope = some s) :
    t.hasKind (·.isClass) s = true := by
  obtain ⟨frame, _, hs⟩ := exists_of_findSome?_eq_some h
  unfold classOfKind? at hs
  split at hs
  · split at hs
    · cases hs
      assumption
    · cases hs
  · cases hs

theorem Asked.admitted (closed : t.Closed) {around : List Part} {v : Visit}
    (tracks : w.Tracks around) (step : Walk.Step around w v (w.visit v))
    (grows : (w.visit v).table.Grows t) (h : Asked w v q) : q.Admitted (outlook t) := by
  have grows' := step.grows.trans grows
  cases h with
  | placed node =>
    obtain ⟨_, _, present⟩ := tracks.scope
    exact ⟨rfl, grows'.hasScope present⟩
  | declared declaring node =>
    have declared := step.declared
    rw [declaring] at declared
    obtain ⟨_, _, _, _, kind⟩ := declared
    exact .inl ⟨rfl, hasSymbol_of_hasKind (grows.hasKind kind)⟩
  | found named known => exact .inl ⟨rfl, grows'.hasSymbol (tracks.closed.lookup? known)⟩
  | @later _ tag name named unknown => exact (lateRule_decides closed tag name).within
  | inFunction inside =>
    exact .inr (.inr (.inl ⟨rfl, grows'.hasKind (containingFunction?_isCallable inside)⟩))
  | inClass inside =>
    exact .inr (.inr (.inr ⟨rfl, grows'.hasKind (containingClass?_isClass inside)⟩))
  | noFunction _ => exact fun _ _ => trivial
  | noClass _ => exact fun _ _ => trivial

theorem superclassRequests_admitted {symbol : SymbolId} {decl : ClassDecl}
    (h : q ∈ superclassRequests t symbol decl) : q.Admitted (outlook t) := by
  unfold superclassRequests at h
  split at h
  · cases h
  · dsimp only at h
    split at h
    · rw [mem_singleton.mp h]
      exact fun _ _ => trivial
    · next parent found =>
        split at h
        · rw [mem_singleton.mp h]
          exact fun _ _ => trivial
        · rw [mem_singleton.mp h]
          exact .inr (.inl ⟨rfl, superclass?_isClass found⟩)

theorem plan_admitted (unit : CompilationUnit) :
    ∀ q ∈ (plan unit .initial).2, q.Admitted (outlook (table unit)) := by
  intro q hq
  have run := walk_run unit
  rcases mem_append.mp hq with hq | hq
  · rcases run.origin q hq with hq | ⟨v, _, around, w, tracks, step, grows, hq⟩
    · rw [mem_singleton.mp hq]
      exact ⟨rfl, (table_grows unit).hasScope initial_hasScope⟩
    · exact (asked_of_mem hq).admitted run.closed tracks step grows
  · obtain ⟨⟨symbol, decl⟩, _, hq⟩ := mem_flatMap.mp hq
    exact superclassRequests_admitted hq

/-- Whom an attribute that the pass asks for belongs to. -/
theorem mem_targets_plan {unit : CompilationUnit} {attr : Attribute}
    (h : attr ∈ (plan unit .initial).2.flatMap Request.targets) :
    attr = AttrName.scope.of unit.tag.id ∨
      (∃ part ∈ unit.entered, attr ∈ part.attrs (entering part ++ leaving part)) ∨
      ∃ decl symbol, (Part.classDecl decl, symbol) ∈ declarations unit ∧
        decl.superclass ≠ none ∧ attr = AttrName.superclass.of symbol := by
  rw [targets_plan, cons_append, mem_cons, mem_append] at h
  rcases h with h | h | h
  · exact .inl h
  · rw [(flatMap_attributes_perm unit.tree).mem_iff, ← unit.entered_eq] at h
    exact .inr (.inl (mem_flatMap.mp h))
  · obtain ⟨⟨symbol, decl⟩, hentry, hattr⟩ := mem_flatMap.mp h
    obtain ⟨⟨part, symbol'⟩, hd, hentry⟩ := mem_filterMap.mp hentry
    cases part with
    | classDecl decl' =>
      cases hentry
      refine .inr (.inr ⟨decl, symbol', hd, ?_⟩)
      cases hs : decl.superclass with
      | none => simp [superclassAttributes, hs] at hattr
      | some written => exact ⟨by simp, by simpa [superclassAttributes, hs] using hattr⟩
    | _ => cases hentry

theorem map_snd_declarations (unit : CompilationUnit) :
    (declarations unit).map (fun d => d.2.index) =
      List.range' initial.symbols.length (declarations unit).length := by
  unfold declarations declarationsFrom
  simp [map_map, Function.comp_def]

theorem symbols_nodup (unit : CompilationUnit) : ((declarations unit).map Prod.snd).Nodup := by
  refine List.Nodup.of_map SymbolId.index ?_
  rw [map_map]
  exact (map_snd_declarations unit).symm ▸ nodup_range'

theorem superclasses_sublist (ds : List (Part × SymbolId)) :
    ((ds.filterMap classDeclared?).flatMap superclassAttributes).Sublist
      (ds.map fun d => AttrName.superclass.of d.2) := by
  induction ds with
  | nil => exact .slnil
  | cons d ds ih =>
    cases hd : classDeclared? d with
    | none =>
      rw [filterMap_cons_none hd]
      exact ih.cons _
    | some entry =>
      rw [filterMap_cons_some hd, flatMap_cons, map_cons]
      obtain ⟨decl, _, rfl⟩ := Option.map_eq_some_iff.mp hd
      cases hs : decl.superclass with
      | none => simpa [superclassAttributes, hs] using ih.cons _
      | some written => simpa [superclassAttributes, hs] using ih

theorem nodup_superclasses (unit : CompilationUnit) :
    (((declarations unit).filterMap classDeclared?).flatMap superclassAttributes).Nodup := by
  refine List.Nodup.sublist (superclasses_sublist _) ?_
  have inj : Function.Injective fun s : SymbolId => AttrName.superclass.of (.symbol s) :=
    fun a b h => Owner.symbol.inj (congrArg Attribute.owner h)
  have mapped := (symbols_nodup unit).map inj
  rwa [map_map] at mapped

theorem nodup_plan {unit : CompilationUnit} (numbered : unit.WellNumbered) :
    ((plan unit .initial).2.flatMap Request.targets).Nodup := by
  have perm := flatMap_attributes_perm unit.tree
  rw [← unit.entered_eq] at perm
  have ofNode : ∀ attr ∈ unit.tour.flatMap attributes, ∃ part ∈ unit.entered, ∃ n,
      part.id? = some n ∧ attr.owner = .node n := by
    intro attr h
    obtain ⟨part, hpart, h⟩ := mem_flatMap.mp (perm.mem_iff.mp h)
    obtain ⟨n, hn, hown, _⟩ := Part.mem_attrs.mp h
    exact ⟨part, hpart, n, hn, hown⟩
  rw [targets_plan, nodup_append, nodup_cons]
  refine ⟨⟨?_, ?_⟩, nodup_superclasses unit, ?_⟩
  · intro h
    obtain ⟨part, hpart, n, hn, hown⟩ := ofNode _ h
    cases hown
    exact numbered.unit_apart hpart hn
  · exact perm.nodup_iff.mpr (nodup_flatMap_attrs numbered.parts nodup_names)
  · rintro a ha b hb rfl
    obtain ⟨d, _, rfl⟩ := mem_map.mp ((superclasses_sublist _).subset hb)
    rcases mem_cons.mp ha with h | h
    · cases h
    · obtain ⟨_, _, _, _, hown⟩ := ofNode _ h
      cases hown

end BlFront.Names
