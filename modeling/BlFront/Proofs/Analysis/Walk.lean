import BlFront.Analysis.Names
import BlFront.Proofs.Symbol.Building
import BlFront.Proofs.Syntax.Tours

/-!
# The tour that declares

While a unit is toured the table stays closed, and the scopes that are open are those of the parts
that are open.  The nearest function or class around a scope is therefore that of the nearest part.
Symbols are numbered in the order in which the tour declares them.
-/

namespace BlFront

open List

variable {n : NodeId} {part : Part}

/-- Whether a part has a scope of its own. -/
def Part.opens : Part → Bool
  | .function _ | .structDecl _ | .classDecl _ | .block _ => true
  | _ => false

/-- Whether a part declares symbols of a kind. -/
def Part.declares : Part → SymbolKind → Bool
  | .function _, kind => kind.isCallable
  | .structDecl _, .structType _ => true
  | .classDecl decl, .classType _ superclass => superclass == decl.superclass.map (·.name)
  | .param _, kind => kind.isVar
  | .varDecl _, kind => kind.isVar
  | .field _, kind => kind.isField
  | _, _ => false

/-- The part for which a visit declares a symbol. -/
def Visit.declaring? : Visit → Option Part
  | .enter (.function decl) => some (.function decl)
  | .enter (.structDecl decl) => some (.structDecl decl)
  | .enter (.classDecl decl) => some (.classDecl decl)
  | .leave (.param decl) => some (.param decl)
  | .leave (.field decl) => some (.field decl)
  | .leave (.varDecl decl) => some (.varDecl decl)
  | _ => none

namespace Names

/-- The request that binds a node to a symbol. -/
def binding (node : NodeId) (symbol : SymbolId) : Request :=
  .seed (AttrName.symbol.of node) (.symbol symbol)

/-! ### Open scopes -/

/-- The scopes that are open, given the parts that are. -/
inductive Frames (t : SymbolTable) (asked : List Request) : List Part → List ScopeId → Prop
  | base {top root : ScopeId} {s s' : Scope} (held : t.scope? top = some s)
      (kind : s.kind = .topLevel) (parent : s.parent = some root)
      (held' : t.scope? root = some s') (kind' : s'.kind = .builtin) (parent' : s'.parent = none) :
      Frames t asked [] [top, root]
  | inside {part : Part} {around : List Part} {ids : List ScopeId} (plain : part.opens = false)
      (outer : Frames t asked around ids) : Frames t asked (part :: around) ids
  | block {body : Block} {around : List Part} {id up : ScopeId} {ids : List ScopeId} {s : Scope}
      (held : t.scope? id = some s) (kind : s.kind = .inner) (parent : s.parent = some up)
      (outer : Frames t asked around (up :: ids)) :
      Frames t asked (.block body :: around) (id :: up :: ids)
  | owner {part : Part} {around : List Part} {id up : ScopeId} {ids : List ScopeId} {s : Scope}
      {n : NodeId} {o : SymbolId} (held : t.scope? id = some s) (kind : s.kind = .membersOf o)
      (parent : s.parent = some up) (opens : part.opens = true) (node : part.id? = some n)
      (bound : binding n o ∈ asked) (declared : t.hasKind part.declares o = true)
      (outer : Frames t asked around (up :: ids)) :
      Frames t asked (part :: around) (id :: up :: ids)

namespace Frames

variable {t t' : SymbolTable} {asked asked' : List Request} {around : List Part}
  {ids : List ScopeId}

theorem extend (h : Frames t asked around ids) (grows : t.Grows t') (more : asked ⊆ asked') :
    Frames t' asked' around ids := by
  induction h with
  | base held kind parent held' kind' parent' =>
    obtain ⟨s, hs, hk, hp⟩ := grows.scopes held
    obtain ⟨s', hs', hk', hp'⟩ := grows.scopes held'
    exact .base hs (hk.trans kind) (hp.trans parent) hs' (hk'.trans kind') (hp'.trans parent')
  | inside plain _ ih => exact .inside plain ih
  | block held kind parent _ ih =>
    obtain ⟨s, hs, hk, hp⟩ := grows.scopes held
    exact .block hs (hk.trans kind) (hp.trans parent) ih
  | owner held kind parent opens node bound declared _ ih =>
    obtain ⟨s, hs, hk, hp⟩ := grows.scopes held
    exact .owner hs (hk.trans kind) (hp.trans parent) opens node (more bound)
      (grows.hasKind declared) ih

theorem head (h : Frames t asked around ids) :
    ∃ id rest, ids = id :: rest ∧ t.hasScope id = true := by
  induction h with
  | base held _ _ _ _ _ => exact ⟨_, _, rfl, SymbolTable.hasScope_of_scope? held⟩
  | inside _ _ ih => exact ih
  | block held _ _ _ _ => exact ⟨_, _, rfl, SymbolTable.hasScope_of_scope? held⟩
  | owner held _ _ _ _ _ _ _ _ => exact ⟨_, _, rfl, SymbolTable.hasScope_of_scope? held⟩

/-- What is around is as it was when a part is left. -/
theorem leave (h : Frames t asked (part :: around) ids) :
    Frames t asked around (if part.opens then ids.tail else ids) := by
  cases h with
  | inside plain outer => rwa [plain]
  | block _ _ _ outer => exact outer
  | owner _ _ _ opens _ _ _ outer => rwa [opens]

end Frames

end Names

/-- The owner of a scope, if it has a kind. -/
def SymbolTable.ownerOfKind? (t : SymbolTable) (wanted : SymbolKind → Bool) (s : Scope) :
    Option SymbolId :=
  match s.kind with
  | .membersOf owner => if t.hasKind wanted owner then some owner else none
  | _ => none

namespace Names

/-- A part and the symbol that its node is bound to. -/
def Bound (asked : List Request) : Option Part → Option SymbolId → Prop
  | none, none => True
  | some part, some symbol => ∃ n, part.id? = some n ∧ binding n symbol ∈ asked
  | _, _ => False

/-- The parts that declare symbols of a kind, among those that open a scope. -/
structure Picks (wanted : SymbolKind → Bool) (isWanted : Part → Bool) : Prop where
  others : ∀ part : Part, part.opens = false → isWanted part = false
  blocks : ∀ body : Block, isWanted (.block body) = false
  owners : ∀ part : Part, ∀ kind, part.opens = true → part.declares kind = true →
    wanted kind = isWanted part

/-- The nearest scope of an owner is that of the nearest part. -/
theorem Frames.nearest {t : SymbolTable} {asked : List Request} {around : List Part}
    {id : ScopeId} {ids : List ScopeId} (h : Frames t asked around (id :: ids)) (closed : t.Closed)
    {wanted : SymbolKind → Bool} {isNearest : Part → Bool} (picks : Picks wanted isNearest)
    {fuel : Nat} (enough : id.index < fuel) :
    Bound asked (around.find? isNearest)
      ((t.chainFrom fuel id).findSome? (t.ownerOfKind? wanted)) := by
  generalize hids : id :: ids = all at h
  induction h generalizing fuel id ids with
  | base held kind parent held' kind' parent' =>
    cases hids
    obtain ⟨fuel', more, chain⟩ := closed.chainFrom_eq_cons held parent enough
    obtain ⟨fuel', rfl⟩ : ∃ n, fuel' = n + 1 := ⟨fuel' - 1, by omega⟩
    simp [chain, SymbolTable.chainFrom, held', parent', SymbolTable.ownerOfKind?, kind, kind',
      Bound]
  | inside plain _ ih =>
    rw [List.find?_cons_of_neg (by simp [picks.others _ plain])]
    exact ih enough hids
  | @block _ _ _ _ _ s held kind parent _ ih =>
    cases hids
    obtain ⟨fuel', more, chain⟩ := closed.chainFrom_eq_cons held parent enough
    have none : t.ownerOfKind? wanted s = none := by rw [SymbolTable.ownerOfKind?, kind]
    rw [List.find?_cons_of_neg (by simp [picks.blocks]), chain, List.findSome?_cons, none]
    exact ih more rfl
  | @owner part _ _ _ _ s _ o held kind parent opens node bound declared _ ih =>
    cases hids
    obtain ⟨fuel', more, chain⟩ := closed.chainFrom_eq_cons held parent enough
    obtain ⟨symbol, hsymbol, hdeclares⟩ := SymbolTable.hasKind_iff.mp declared
    have agree := picks.owners part symbol.kind opens hdeclares
    have found : t.ownerOfKind? wanted s = if isNearest part then some o else none := by
      rw [SymbolTable.ownerOfKind?, kind]
      simp [SymbolTable.hasKind, SymbolTable.kind?, hsymbol, agree]
    rw [chain, List.findSome?_cons, found]
    cases hn : isNearest part with
    | true =>
      rw [List.find?_cons_of_pos hn]
      exact ⟨_, node, bound⟩
    | false =>
      rw [List.find?_cons_of_neg (by simp [hn])]
      exact ih more rfl

/-! ### Visits -/

/-- The class that a part declares. -/
def classOf? : Part → Option ClassDecl
  | .classDecl decl => some decl
  | _ => none

namespace Walk

variable {w w' : Walk} {around : List Part}

/-- The same tour, where more was asked before. -/
def behind (w : Walk) (asked : List Request) : Walk := { w with requests := asked ++ w.requests }

theorem request_behind (w : Walk) (asked : List Request) (q : Request) :
    (w.behind asked).request q = (w.request q).behind asked := by
  simp [request, behind]

theorem place_behind (w : Walk) (asked : List Request) (node : NodeId) :
    (w.behind asked).place node = (w.place node).behind asked :=
  request_behind w asked _

theorem declare_behind (w : Walk) (asked : List Request) (node : NodeId)
    (declared : SymbolTable → ScopeId → SymbolId × SymbolTable) :
    (w.behind asked).declare node declared = (w.declare node declared).behind asked := by
  simp [declare, bindNode, request, behind, scope]

theorem resolveName_behind (w : Walk) (asked : List Request) (tag : Tag) (name : String) :
    (w.behind asked).resolveName tag name = (w.resolveName tag name).behind asked := by
  have same : (w.behind asked).table.lookup? (w.behind asked).scope name =
      w.table.lookup? w.scope name := rfl
  rw [resolveName, resolveName, same]
  cases w.table.lookup? w.scope name <;> exact request_behind w asked _

theorem containing_behind (w : Walk) (asked : List Request) (attr : Attribute)
    (found : Option SymbolId) (span : Span) (message : String) :
    (w.behind asked).containing attr found span message =
      (w.containing attr found span message).behind asked := by
  cases found <;> exact request_behind w asked _

theorem enter_behind (w : Walk) (asked : List Request) (part : Part) :
    (w.behind asked).enter part = (w.enter part).behind asked := by
  cases part with
  | function decl => rw [enter, place_behind, declareOwner, declare_behind]; rfl
  | structDecl decl => rw [enter, place_behind, declareOwner, declare_behind]; rfl
  | classDecl decl =>
    simp only [enter, place_behind, declareOwner, declare_behind]
    rfl
  | typed decl written => rfl
  | block body => rw [enter, place_behind]; rfl
  | returnStmt tag value => rw [enter, place_behind, containing_behind]; rfl
  | expr e expected =>
    cases e with
    | reference tag name => rw [enter, place_behind, resolveName_behind]; rfl
    | selfRef tag => rw [enter, place_behind, containing_behind]; rfl
    | _ => exact place_behind w asked _
  | type t =>
    cases t with
    | named tag name => rw [enter, place_behind, resolveName_behind]; rfl
    | array tag element => exact place_behind w asked _
  | _ => exact place_behind w asked _

theorem leave_behind (w : Walk) (asked : List Request) (part : Part) :
    (w.behind asked).leave part = (w.leave part).behind asked := by
  cases part with
  | param decl => rw [leave, leave, declare_behind]
  | field decl => rw [leave, leave, declare_behind]
  | varDecl decl => rw [leave, leave, declare_behind]
  | _ => rfl

/-- What a visit asks for, whatever was asked before. -/
def asks (w : Walk) (v : Visit) : List Request := ({ w with requests := [] }.visit v).requests

theorem requests_visit (w : Walk) (v : Visit) : (w.visit v).requests = w.requests ++ w.asks v := by
  have start : ({ w with requests := [] } : Walk).behind w.requests = w := by simp [behind]
  have moved : (({ w with requests := [] } : Walk).behind w.requests).visit v =
      ({ w with requests := [] }.visit v).behind w.requests := by
    cases v with
    | enter part => exact enter_behind _ _ part
    | leave part => exact leave_behind _ _ part
  rw [start] at moved
  rw [moved]
  rfl

/-- What holds of a tour on its way. -/
structure Tracks (around : List Part) (w : Walk) : Prop where
  closed : w.table.Closed
  frames : Frames w.table w.requests around w.scopes

theorem Tracks.scope (h : Tracks around w) :
    ∃ ids, w.scopes = w.scope :: ids ∧ w.table.hasScope w.scope = true := by
  obtain ⟨id, ids, hids, present⟩ := h.frames.head
  have first : w.scope = id := by rw [Walk.scope, hids]; rfl
  rw [first]
  exact ⟨ids, hids, present⟩

/-- The symbol that a visit declares, if it is to declare one. -/
def Declared (w w' : Walk) : Option Part → Prop
  | none => w'.table.symbols.length = w.table.symbols.length
  | some part => w'.table.symbols.length = w.table.symbols.length + 1 ∧
      ∃ n, part.id? = some n ∧ binding n w.table.nextSymbol ∈ w'.requests ∧
        w'.table.hasKind part.declares w.table.nextSymbol = true

/-- What one visit does. -/
structure Step (around : List Part) (w : Walk) (v : Visit) (w' : Walk) : Prop where
  tracks : Tracks (v.open around) w'
  grows : w.table.Grows w'.table
  requests : w'.requests = w.requests ++ w.asks v
  declared : Declared w w' v.declaring?
  classes : w'.classes =
    w.classes ++ (v.declaring?.bind classOf?).toList.map (w.table.nextSymbol, ·)

theorem resolveName_same (w : Walk) (tag : Tag) (name : String) :
    (w.resolveName tag name).table = w.table ∧ (w.resolveName tag name).scopes = w.scopes ∧
      (w.resolveName tag name).classes = w.classes := by
  unfold resolveName
  split <;> exact ⟨rfl, rfl, rfl⟩

theorem containing_same (w : Walk) (attr : Attribute) (found : Option SymbolId) (span : Span)
    (message : String) : (w.containing attr found span message).table = w.table ∧
      (w.containing attr found span message).scopes = w.scopes ∧
      (w.containing attr found span message).classes = w.classes := by
  cases found <;> exact ⟨rfl, rfl, rfl⟩

/-- Only a part with a scope of its own changes more than what is asked. -/
theorem enter_same (w : Walk) (plain : part.opens = false) :
    (w.enter part).table = w.table ∧ (w.enter part).scopes = w.scopes ∧
      (w.enter part).classes = w.classes := by
  cases part with
  | function decl => cases plain
  | structDecl decl => cases plain
  | classDecl decl => cases plain
  | block body => cases plain
  | returnStmt tag value => exact containing_same _ _ _ _ _
  | expr e expected =>
    cases e with
    | reference tag name => exact resolveName_same _ _ _
    | selfRef tag => exact containing_same _ _ _ _ _
    | _ => exact ⟨rfl, rfl, rfl⟩
  | type t =>
    cases t with
    | named tag name => exact resolveName_same _ _ _
    | array tag element => exact ⟨rfl, rfl, rfl⟩
  | _ => exact ⟨rfl, rfl, rfl⟩

namespace Step

variable {v : Visit}

/-- A visit that declares nothing. -/
theorem of_quiet (closed : (w.visit v).table.Closed) (grows : w.table.Grows (w.visit v).table)
    (length : (w.visit v).table.symbols.length = w.table.symbols.length)
    (quiet : v.declaring? = none) (classes : (w.visit v).classes = w.classes)
    (frames : Frames (w.visit v).table (w.visit v).requests (v.open around) (w.visit v).scopes) :
    Step around w v (w.visit v) where
  tracks := ⟨closed, frames⟩
  grows := grows
  requests := requests_visit w v
  declared := by rw [quiet]; exact length
  classes := by simp [quiet, classes]

/-- A visit that declares a symbol. -/
theorem of_declares {s : Symbol} {id : SymbolId} (declaring : v.declaring? = some part)
    (node : part.id? = some n) (declares : w.table.Declares s id (w.visit v).table)
    (kind : part.declares s.kind = true) (bound : binding n id ∈ (w.visit v).requests)
    (classes : (w.visit v).classes = w.classes ++ (classOf? part).toList.map (w.table.nextSymbol, ·))
    (frames : Frames (w.visit v).table (w.visit v).requests (v.open around) (w.visit v).scopes) :
    Step around w v (w.visit v) where
  tracks := ⟨declares.closed, frames⟩
  grows := declares.grows
  requests := requests_visit w v
  declared := by
    rw [declaring]
    rw [declares.id_eq] at bound
    exact ⟨declares.length, n, node, bound,
      SymbolTable.hasKind_iff.mpr ⟨s, declares.id_eq ▸ declares.entry, kind⟩⟩
  classes := by simp [declaring, classes]

/-- A visit that declares a symbol and enters the scope of its members. -/
theorem of_declaresOwner (h : Tracks around w) {s : Symbol} {id : SymbolId}
    (declaring : (Visit.enter part).declaring? = some part) (opens : part.opens = true)
    (node : part.id? = some n) (declares : w.table.Declares s id (w.enter part).table)
    (kind : part.declares s.kind = true) (bound : binding n id ∈ (w.enter part).requests)
    (classes : (w.enter part).classes = w.classes ++ (classOf? part).toList.map (w.table.nextSymbol, ·))
    (scopes : (w.enter part).scopes = w.table.nextScope :: w.scopes)
    (opened : ∃ s, (w.enter part).table.scope? w.table.nextScope = some s ∧
      s.kind = .membersOf w.table.nextSymbol ∧ s.parent = some w.scope) :
    Step around w (.enter part) (w.enter part) := by
  refine of_declares declaring node declares kind bound classes ?_
  obtain ⟨ids, hids, _⟩ := h.scope
  obtain ⟨s', held, hkind, parent⟩ := opened
  rw [declares.id_eq] at bound
  have declared := SymbolTable.hasKind_iff.mpr ⟨s, declares.id_eq ▸ declares.entry, kind⟩
  have outer := h.frames.extend declares.grows
    ((requests_visit w (.enter part)).symm ▸ subset_append_left _ _)
  change Frames (w.enter part).table (w.enter part).requests (part :: around) (w.enter part).scopes
  rw [hids] at outer
  rw [scopes, hids]
  exact .owner held hkind parent opens node bound declared outer

end Step

theorem Tracks.enter (h : Tracks around w) (part : Part) :
    Step around w (.enter part) (w.enter part) := by
  obtain ⟨ids, hids, present⟩ := h.scope
  have more : w.requests ⊆ (w.enter part).requests :=
    (requests_visit w (.enter part)).symm ▸ subset_append_left _ _
  by_cases plain : part.opens = false
  · obtain ⟨table, scopes, classes⟩ := enter_same w plain
    have quiet : (Visit.enter part).declaring? = none := by
      cases part <;> first | rfl | cases plain
    have grows : w.table.Grows (w.enter part).table := table.symm ▸ .refl _
    refine .of_quiet (table.symm ▸ h.closed) grows (congrArg (·.symbols.length) table) quiet
      classes (.inside plain ?_)
    change Frames (w.enter part).table _ _ (w.enter part).scopes
    rw [scopes]
    exact h.frames.extend grows more
  · cases part with
    | function decl =>
      obtain ⟨kind, callable, declares, opened⟩ :=
        h.closed.declareFunction present decl.name (some decl.tag.span)
      exact .of_declaresOwner h rfl rfl rfl declares callable
        (mem_append_right _ (.head _)) (append_nil _).symm rfl opened
    | structDecl decl =>
      obtain ⟨declares, opened⟩ :=
        h.closed.declareOwner present (fun m => (by rfl : (SymbolKind.structType m).members? = some m))
          decl.name (some decl.tag.span)
      exact .of_declaresOwner h rfl rfl rfl declares rfl
        (mem_append_right _ (.head _)) (append_nil _).symm rfl opened
    | classDecl decl =>
      obtain ⟨declares, opened⟩ :=
        h.closed.declareOwner present (fun m => (by rfl : (SymbolKind.classType m
          (decl.superclass.map (·.name))).members? = some m)) decl.name (some decl.tag.span)
      exact .of_declaresOwner h rfl rfl rfl declares (beq_self_eq_true _)
        (mem_append_right _ (.head _)) rfl rfl opened
    | block body =>
      have grows := SymbolTable.pushScope_grows (t := w.table) (some w.scope) .inner
      have around' : ∀ p, some w.scope = some p → w.table.hasScope p = true := by
        intro p hp
        cases hp
        exact present
      refine .of_quiet (h.closed.pushScope around' (Nat.le_refl _) (by simp)) grows rfl rfl rfl ?_
      have outer := h.frames.extend grows more
      rw [hids] at outer
      have held : (w.table.pushScope (some w.scope) .inner).2.scope? w.table.nextScope =
          some ⟨.inner, some w.scope, []⟩ := by
        rw [SymbolTable.scope?_pushScope, if_pos rfl]
      change Frames (w.table.pushScope (some w.scope) .inner).2 _ _ (w.table.nextScope :: w.scopes)
      rw [hids]
      exact .block held rfl rfl outer
    | _ => exact absurd rfl plain

/-- A parameter, a field or a variable is declared in the scope that is open. -/
theorem Tracks.leaveDeclaring (h : Tracks (part :: around) w) {kind : SymbolKind} {name : String}
    {span : Span} (declaring : (Visit.leave part).declaring? = some part)
    (plain : part.opens = false) (other : classOf? part = none) (node : part.id? = some n)
    (simple : kind.members? = none) (isKind : part.declares kind = true)
    (left : w.leave part = w.declare n fun t scope => t.declare scope name kind (some span)) :
    Step (part :: around) w (.leave part) (w.leave part) := by
  obtain ⟨ids, hids, present⟩ := h.scope
  have declares := h.closed.declare present simple name (some span)
  have outer := h.frames.leave
  rw [plain] at outer
  have table : (w.leave part).table = (w.table.declare w.scope name kind (some span)).2 := by
    rw [left]
    rfl
  refine .of_declares declaring node (table.symm ▸ declares) isKind ?_ ?_ ?_
  · change _ ∈ (w.leave part).requests
    rw [left]
    exact mem_append_right _ (.head _)
  · change (w.leave part).classes = _
    rw [left, other]
    exact (append_nil _).symm
  · change Frames (w.leave part).table (w.leave part).requests around (w.leave part).scopes
    rw [left]
    exact outer.extend declares.grows (subset_append_left _ _)

theorem Tracks.leave (h : Tracks (part :: around) w) :
    Step (part :: around) w (.leave part) (w.leave part) := by
  cases part with
  | param decl => exact h.leaveDeclaring rfl rfl rfl rfl rfl rfl rfl
  | field decl => exact h.leaveDeclaring rfl rfl rfl rfl rfl rfl rfl
  | varDecl decl => exact h.leaveDeclaring rfl rfl rfl rfl rfl rfl rfl
  | _ => exact .of_quiet h.closed (.refl _) rfl rfl rfl h.frames.leave

end Walk

/-! ### Runs -/

/-- The parts for which visits declare symbols, numbered from a count on. -/
def declarationsFrom (count : Nat) (visits : List Visit) : List (Part × SymbolId) :=
  ((visits.filterMap Visit.declaring?).zipIdx count).map fun (part, index) => (part, ⟨index⟩)

/-- The class of a declaration, if it is one. -/
def classDeclared? (declaration : Part × SymbolId) : Option (SymbolId × ClassDecl) :=
  (classOf? declaration.1).map (declaration.2, ·)

theorem declarationsFrom_cons (count : Nat) (v : Visit) (visits : List Visit) :
    declarationsFrom count (v :: visits) = match v.declaring? with
      | none => declarationsFrom count visits
      | some part => (part, ⟨count⟩) :: declarationsFrom (count + 1) visits := by
  unfold declarationsFrom
  cases h : v.declaring? with
  | none => rw [filterMap_cons_none h]
  | some part =>
    rw [filterMap_cons_some h]
    rfl

namespace Walk

variable {w w' : Walk} {around : List Part}

/-- What a declaration has left behind. -/
def Settles (w : Walk) (declaration : Part × SymbolId) : Prop :=
  ∃ n, declaration.1.id? = some n ∧ binding n declaration.2 ∈ w.requests ∧
    w.table.hasKind declaration.1.declares declaration.2 = true

theorem Settles.extend {d : Part × SymbolId} (h : w.Settles d) (grows : w.table.Grows w'.table)
    (asked : w.requests ⊆ w'.requests) : w'.Settles d := by
  obtain ⟨n, node, bound, kind⟩ := h
  exact ⟨n, node, asked bound, grows.hasKind kind⟩

theorem Step.declarations {v : Visit} (step : Step around w v w') (visits : List Visit) :
    ∃ here, declarationsFrom w.table.symbols.length (v :: visits) =
        here ++ declarationsFrom w'.table.symbols.length visits ∧
      w'.table.symbols.length = w.table.symbols.length + here.length ∧
      (∀ d ∈ here, w'.Settles d) ∧ w'.classes = w.classes ++ here.filterMap classDeclared? := by
  have declared := step.declared
  have classes := step.classes
  rw [declarationsFrom_cons]
  cases hd : v.declaring? with
  | none =>
    rw [hd] at declared classes
    have same : w'.table.symbols.length = w.table.symbols.length := declared
    exact ⟨[], by rw [same]; rfl, same, by simp, by simpa using classes⟩
  | some part =>
    rw [hd] at declared classes
    obtain ⟨length, n, node, bound, kind⟩ := declared
    refine ⟨[(part, w.table.nextSymbol)], by rw [length]; rfl, length, ?_, ?_⟩
    · intro d hd
      rw [mem_singleton.mp hd]
      exact ⟨n, node, bound, kind⟩
    · rw [classes]
      cases hc : classOf? part <;> simp [classDeclared?, hc]

/-- What a tour does. -/
structure Run (around : List Part) (w : Walk) (visits : List Visit) (w' : Walk) : Prop where
  closed : w'.table.Closed
  grows : w.table.Grows w'.table
  asked : w.requests ⊆ w'.requests
  length : w'.table.symbols.length =
    w.table.symbols.length + (declarationsFrom w.table.symbols.length visits).length
  declared : ∀ d ∈ declarationsFrom w.table.symbols.length visits, w'.Settles d
  classes : w'.classes =
    w.classes ++ (declarationsFrom w.table.symbols.length visits).filterMap classDeclared?
  /-- Every part is entered while the parts around it are open. -/
  sites : ∀ site ∈ sitesFrom around visits, ∃ w₁, Tracks site.2 w₁ ∧ w₁.table.Grows w'.table ∧
    w₁.requests ⊆ w'.requests ∧ w₁.asks (.enter site.1) ⊆ w'.requests
  /-- Every request comes from a visit. -/
  origin : ∀ q ∈ w'.requests, q ∈ w.requests ∨ ∃ v ∈ visits, ∃ around₁ w₁, Tracks around₁ w₁ ∧
    Step around₁ w₁ v (w₁.visit v) ∧ (w₁.visit v).table.Grows w'.table ∧ q ∈ w₁.asks v

theorem Run.nil (h : Tracks around w) : Run around w [] w where
  closed := h.closed
  grows := .refl _
  asked := List.Subset.refl _
  length := rfl
  declared := by simp [declarationsFrom]
  classes := by simp [declarationsFrom]
  sites := by simp [sitesFrom]
  origin q hq := .inl hq

theorem Run.cons {v : Visit} {visits : List Visit} (h : Tracks around w)
    (step : Step around w v (w.visit v)) (run : Run (v.open around) (w.visit v) visits w') :
    Run around w (v :: visits) w' := by
  have more : w.requests ⊆ w'.requests := by
    refine List.Subset.trans ?_ run.asked
    exact step.requests.symm ▸ subset_append_left _ _
  have asked : w.asks v ⊆ w'.requests := by
    refine List.Subset.trans ?_ run.asked
    exact step.requests.symm ▸ subset_append_right _ _
  obtain ⟨here, all, length, settled, classes⟩ := step.declarations visits
  refine ⟨run.closed, step.grows.trans run.grows, more, ?_, ?_, ?_, ?_, ?_⟩
  · rw [run.length, all, length_append, length, Nat.add_assoc]
  · intro d hd
    rw [all, mem_append] at hd
    rcases hd with hd | hd
    · exact (settled d hd).extend run.grows run.asked
    · exact run.declared d hd
  · rw [run.classes, all, filterMap_append, classes, append_assoc]
  · intro site hs
    cases v with
    | enter part =>
      rcases mem_cons.mp hs with rfl | hs
      · exact ⟨w, h, step.grows.trans run.grows, more, asked⟩
      · exact run.sites site hs
    | leave part => exact run.sites site hs
  · intro q hq
    rcases run.origin q hq with hq | ⟨v', hv', rest⟩
    · rw [step.requests, mem_append] at hq
      rcases hq with hq | hq
      · exact .inl hq
      · exact .inr ⟨v, by simp, around, w, h, step, run.grows, hq⟩
    · exact .inr ⟨v', by simp [hv'], rest⟩

theorem Tracks.run {visits : List Visit} (h : Tracks around w) (nested : Nested around visits) :
    Run around w visits (visits.foldl visit w) := by
  induction visits generalizing around w with
  | nil => exact .nil h
  | cons v visits ih =>
    cases v with
    | enter part => exact .cons h (h.enter part) (ih (h.enter part).tracks nested)
    | leave part =>
      obtain ⟨first, nested⟩ := nested
      obtain ⟨rest, rfl⟩ : ∃ rest, around = part :: rest := ⟨_, eq_cons_of_mem_head? first⟩
      exact .cons h h.leave (ih h.leave.tracks nested)

end Walk

/-- The tour of a unit before its first visit. -/
def begin (unit : CompilationUnit) : Walk :=
  (Walk.place ⟨.initial, [SymbolTable.builtinScope], [], []⟩ unit.tag.id).enterNew .topLevel

theorem begin_tracks (unit : CompilationUnit) : (begin unit).Tracks [] := by
  obtain ⟨s, root, kind, parent⟩ := SymbolTable.initial_root
  have grows := SymbolTable.pushScope_grows (t := .initial) (some SymbolTable.builtinScope) .topLevel
  have present : ∀ p, some SymbolTable.builtinScope = some p →
      SymbolTable.initial.hasScope p = true := by
    intro p hp
    cases hp
    exact SymbolTable.initial_hasScope
  have closed := SymbolTable.initial_sound.closed.pushScope present (Nat.le_refl _)
    (by simp : ∀ o, ScopeKind.topLevel = .membersOf o → _)
  have top : (SymbolTable.initial.pushScope (some SymbolTable.builtinScope) .topLevel).2.scope?
      SymbolTable.initial.nextScope = some ⟨.topLevel, some SymbolTable.builtinScope, []⟩ := by
    rw [SymbolTable.scope?_pushScope, if_pos rfl]
  obtain ⟨s', root', hk, hp⟩ := grows.scopes root
  exact ⟨closed, .base top rfl rfl root' (hk.trans kind) (hp.trans parent)⟩

theorem walk_run (unit : CompilationUnit) :
    (begin unit).Run [] unit.tour (walk unit .initial) :=
  (begin_tracks unit).run unit.nested

end Names

end BlFront
