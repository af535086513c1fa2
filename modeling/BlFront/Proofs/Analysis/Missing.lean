import BlFront.Analysis.Inferred
import BlFront.Proofs.Analysis.Typing

/-!
# Reports of missing types

A symbol without a type is reported once, where it is first mentioned; nodes are reported one by one.
So the pass over missing types asks for nothing exactly if all that it looks at has a type.
-/

namespace BlFront

open List Names Reactor

namespace Inferred

/-! ### What is reported about a part -/

/-- The node at which a part mentions a symbol, and the name that it uses for it. -/
def mentioning? : Part → Option (NodeId × String)
  | .function decl => some (decl.tag.id, decl.name)
  | .structDecl decl => some (decl.tag.id, decl.name)
  | .classDecl decl => some (decl.tag.id, decl.name)
  | .varDecl decl => some (decl.tag.id, decl.name)
  | .expr (.reference tag name) _ => some (tag.id, name)
  | .type (.named tag name) => some (tag.id, name)
  | _ => none

def mentioned? (r : Reactor) (part : Part) : Option (SymbolId × String) :=
  (mentioning? part).map fun m => (symbolAt r m.1, m.2)

/-- The node of a part that must have a type, and what it is called. -/
def looked? : Part → Option (NodeId × String)
  | .expr (.reference tag name) _ => some (tag.id, name)
  | .expr (.array tag _) _ => some (tag.id, "array literal")
  | .type (.named tag name) => some (tag.id, name)
  | _ => none

/-- What a part asks to have a type. -/
def wanted (r : Reactor) (part : Part) : List Owner :=
  (mentioned? r part).toList.map (.symbol ·.1) ++ (looked? part).toList.map (.node ·.1)

def openSymbol? (r : Reactor) (part : Part) : Option (SymbolId × String) :=
  (mentioned? r part).filter fun m => isOpen r m.1

/-- What an open node is called, unless a symbol is reported in its place. -/
def openNode? (r : Reactor) (part : Part) : Option String :=
  if (openSymbol? r part).isSome then none
  else ((looked? part).filter fun l => isOpen r l.1).map Prod.snd

variable {r : Reactor} {unit : CompilationUnit} {part : Part} {s : SymbolId} {used : String} {tag : Tag}

theorem isOpen_eq_false {owner : Owner} :
    isOpen r owner = false ↔ ∃ v, r.get? (typeOf owner) = some v := by
  simp [isOpen, Option.isSome_iff_exists]

theorem wanted_closed_iff : (∀ owner ∈ wanted r part, isOpen r owner = false) ↔
    openSymbol? r part = none ∧ openNode? r part = none := by
  unfold wanted openNode? openSymbol?
  rcases mentioned? r part with _ | ⟨s, used⟩ <;> rcases looked? part with _ | ⟨n, what⟩
  · simp
  · cases missing : isOpen r n <;> simp [missing]
  · cases missing : isOpen r s <;> simp [missing]
  · cases missing : isOpen r s <;> cases missing' : isOpen r n <;> simp [missing, missing']

/-- What is asked for where a type is missing. -/
def rejection (span : Span) (what : String) : Request :=
  .reject ⟨span, "unable to infer type for " ++ what⟩ []

/-- How findings change where a part is looked at. -/
inductive Looks (r : Reactor) (f : Findings) (part : Part) : Findings → Prop
  | again {s : SymbolId} {used : String} (found : openSymbol? r part = some (s, used))
      (old : s ∈ f.reported) : Looks r f part f
  | symbol {s : SymbolId} {used : String} (found : openSymbol? r part = some (s, used))
      (new : s ∉ f.reported) :
      Looks r f part ⟨s :: f.reported, f.requests ++ [rejection part.span used]⟩
  | node {what : String} (other : openSymbol? r part = none) (found : openNode? r part = some what) :
      Looks r f part ⟨f.reported, f.requests ++ [rejection part.span what]⟩
  | quiet (other : openSymbol? r part = none) (none : openNode? r part = none) : Looks r f part f

theorem expectSymbol_looks (mentions : mentioned? r part = some (s, used))
    (missing : isOpen r s = true) (f : Findings) :
    Looks r f part (expectSymbol r f s part.span used) := by
  have found : openSymbol? r part = some (s, used) := by simp [openSymbol?, mentions, missing]
  unfold expectSymbol
  split
  · next old => exact .again found (contains_iff_mem.mp old)
  · next new => exact .symbol found fun old => new (contains_iff_mem.mpr old)

theorem expectNode_looks {what : String} (other : openSymbol? r part = none)
    (looked : looked? part = some (tag.id, what)) (place : part.span = tag.span) (f : Findings) :
    Looks r f part (expectNode r f tag what) := by
  have node : openNode? r part = if isOpen r tag.id then some what else none := by
    rw [openNode?, other, looked]
    cases present : isOpen r tag.id <;> simp [present]
  unfold expectNode
  rw [← place]
  split
  · next missing => exact .node other (by rw [node, if_pos missing])
  · next present => exact .quiet other (by rw [node, if_neg present])

section Bound

variable (bound : r.get? (AttrName.symbol.of tag.id) = some (.symbol s))
  (mentions : mentioned? r part = some (s, used)) (place : part.span = tag.span)

include bound mentions place

theorem expectDeclared_looks (unlooked : looked? part = none) (f : Findings) :
    Looks r f part (expectDeclared r f tag used) := by
  have found : r.getAs? Kind.symbol (AttrName.symbol.of tag.id) = some s := by
    simp [getAs?, bound, Kind.symbol]
  rw [expectDeclared, found, ← place]
  dsimp only
  cases present : isOpen r s with
  | true => exact expectSymbol_looks mentions present f
  | false =>
    have same : expectSymbol r f s part.span used = f := by simp [expectSymbol, present]
    have other : openSymbol? r part = none := by simp [openSymbol?, mentions, present]
    rw [same]
    exact .quiet other (by simp [openNode?, other, unlooked])

theorem expectUse_looks (looked : looked? part = some (tag.id, used)) (f : Findings) :
    Looks r f part (expectUse r f tag used) := by
  have found : r.getAs? Kind.symbol (AttrName.symbol.of tag.id) = some s := by
    simp [getAs?, bound, Kind.symbol]
  rw [expectUse, found]
  dsimp only
  cases present : isOpen r s with
  | true => exact place ▸ expectSymbol_looks mentions present f
  | false => exact expectNode_looks (by simp [openSymbol?, mentions, present]) looked place f

end Bound

theorem inspect_looks (h : Bindings unit r) (entered : part ∈ unit.entered) (f : Findings) :
    Looks r f part (inspect r f part) := by
  cases part with
  | function decl | structDecl decl | classDecl decl | varDecl decl =>
    exact expectDeclared_looks (h.symbolAt entered rfl rfl).2 rfl rfl rfl f
  | expr e expected =>
    cases e with
    | reference tag name => exact expectUse_looks (h.symbolAt_named entered rfl) rfl rfl rfl f
    | array tag elements => exact expectNode_looks rfl rfl rfl f
    | _ => exact .quiet rfl rfl
  | type written =>
    cases written with
    | named tag name => exact expectUse_looks (h.symbolAt_named entered rfl) rfl rfl rfl f
    | array tag element => exact .quiet rfl rfl
  | _ => exact .quiet rfl rfl

/-! ### All parts -/

/-- What is asked for at a part that mentions a symbol. -/
def mention? (r : Reactor) (s : SymbolId) (part : Part) : Option Request :=
  ((mentioned? r part).filter fun m => m.1 == s).map fun m => rejection part.span m.2

/-- What is asked for at a part with an open node. -/
def gap? (r : Reactor) (part : Part) : Option Request := (openNode? r part).map (rejection part.span)

/-- What was found when some parts have been looked at. -/
structure Tally (r : Reactor) (parts : List Part) (f : Findings) : Prop where
  once : f.reported.Nodup
  symbols : ∀ s, s ∈ f.reported ↔ ∃ part ∈ parts, ∃ used, openSymbol? r part = some (s, used)
  requests : f.requests.Perm (f.reported.filterMap (fun s => parts.findSome? (mention? r s)) ++
    parts.filterMap (gap? r))

namespace Tally

variable {parts : List Part} {f f' : Findings}

theorem empty (r : Reactor) : Tally r [] ⟨[], []⟩ := ⟨nodup_nil, by simp, .refl _⟩

theorem mem_snoc (h : Tally r parts f) (part : Part) (s : SymbolId) :
    (∃ p ∈ parts ++ [part], ∃ used, openSymbol? r p = some (s, used)) ↔
      s ∈ f.reported ∨ ∃ used, openSymbol? r part = some (s, used) := by
  rw [h.symbols]
  simp only [mem_append, mem_singleton, or_and_right, exists_or, exists_eq_left]

/-- A symbol that is reported was mentioned. -/
theorem exists_first (h : Tally r parts f) (mem : s ∈ f.reported) :
    ∃ q, parts.findSome? (mention? r s) = some q := by
  obtain ⟨part, here, used, found⟩ := (h.symbols s).mp mem
  obtain ⟨mentions, -⟩ := Option.filter_eq_some_iff.mp found
  refine Option.isSome_iff_exists.mp (findSome?_isSome_iff.mpr ⟨part, here, ?_⟩)
  simp [mention?, mentions]

/-- Another part changes nothing about symbols that are reported. -/
theorem filterMap_snoc (h : Tally r parts f) (part : Part) :
    f.reported.filterMap (fun s => (parts ++ [part]).findSome? (mention? r s)) =
      f.reported.filterMap fun s => parts.findSome? (mention? r s) := by
  refine filterMap_congr fun s mem => ?_
  obtain ⟨q, found⟩ := h.exists_first mem
  rw [findSome?_append, found, Option.some_or]

theorem look (h : Tally r parts f) (looks : Looks r f part f') : Tally r (parts ++ [part]) f' := by
  have gaps : (parts ++ [part]).filterMap (gap? r) = parts.filterMap (gap? r) ++ (gap? r part).toList := by
    rw [filterMap_append]
    cases found : gap? r part <;> simp [found]
  cases looks with
  | again found old =>
    have none : gap? r part = none := by simp [gap?, openNode?, found]
    refine ⟨h.once, fun s => ?_, ?_⟩
    · rw [h.mem_snoc, found]
      constructor
      · exact .inl
      · rintro (mem | ⟨used, same⟩)
        · exact mem
        · cases same
          exact old
    · rw [gaps, none, h.filterMap_snoc, Option.toList_none, append_nil]
      exact h.requests
  | @symbol s used found new =>
    have none : gap? r part = none := by simp [gap?, openNode?, found]
    obtain ⟨mentions, missing⟩ := Option.filter_eq_some_iff.mp found
    refine ⟨nodup_cons.mpr ⟨new, h.once⟩, fun s' => ?_, ?_⟩
    · rw [h.mem_snoc, found, mem_cons, or_comm]
      simp [eq_comm]
    · have unmentioned : parts.findSome? (mention? r s) = .none := by
        refine findSome?_eq_none_iff.mpr fun p mem => ?_
        rw [mention?, Option.map_eq_none_iff, Option.filter_eq_none_iff]
        rintro ⟨s', used'⟩ other same
        rw [beq_iff_eq] at same
        exact new ((h.symbols s).mpr ⟨p, mem, used', by simp_all [openSymbol?]⟩)
      have first : (parts ++ [part]).findSome? (mention? r s) = some (rejection part.span used) := by
        rw [findSome?_append, unmentioned]
        simp [mention?, mentions]
      rw [gaps, none, filterMap_cons, first, h.filterMap_snoc, Option.toList_none, append_nil]
      exact (perm_append_singleton _ _).trans (h.requests.cons _)
  | @node what other found =>
    refine ⟨h.once, fun s => ?_, ?_⟩
    · rw [h.mem_snoc, other]
      simp
    · rw [gaps, gap?, found, h.filterMap_snoc, ← append_assoc]
      exact h.requests.append_right _
  | quiet other none =>
    refine ⟨h.once, fun s => ?_, ?_⟩
    · rw [h.mem_snoc, other]
      simp
    · rw [gaps, gap?, none, h.filterMap_snoc, Option.map_none, Option.toList_none, append_nil]
      exact h.requests

/-- The run lemma: what all parts together leave. -/
theorem foldl (bindings : Bindings unit r) {more : List Part}
    (entered : ∀ part ∈ more, part ∈ unit.entered) (h : Tally r parts f) :
    Tally r (parts ++ more) (more.foldl (inspect r) f) := by
  induction more generalizing parts f with
  | nil => rwa [append_nil]
  | cons part more ih =>
    obtain ⟨here, later⟩ := forall_mem_cons.mp entered
    have all := ih later (h.look (inspect_looks bindings here f))
    rwa [append_assoc] at all

end Tally

variable {q : Request} {t : SymbolTable} (h : Bindings unit r)

include h

theorem plan_tally : Tally r unit.entered (unit.entered.foldl (inspect r) ⟨[], []⟩) := by
  have all := (Tally.empty r).foldl h fun _ mem => mem
  rwa [nil_append] at all

theorem plan_eq_nil : plan unit r = [] ↔
    ∀ part ∈ unit.entered, ∀ owner ∈ wanted r part, ∃ v, r.get? (typeOf owner) = some v := by
  have tally := plan_tally h
  simp only [← isOpen_eq_false, wanted_closed_iff]
  rw [plan]
  generalize unit.entered.foldl (inspect r) ⟨[], []⟩ = f at tally ⊢
  constructor
  · intro none part entered
    have all := tally.requests.symm
    rw [none, perm_nil, append_eq_nil_iff, filterMap_eq_nil_iff, filterMap_eq_nil_iff] at all
    refine ⟨?_, Option.map_eq_none_iff.mp (all.2 part entered)⟩
    refine Option.eq_none_iff_forall_ne_some.mpr fun m found => ?_
    have mem := (tally.symbols m.1).mpr ⟨part, entered, m.2, found⟩
    obtain ⟨q, first⟩ := tally.exists_first mem
    rw [all.1 m.1 mem] at first
    cases first
  · intro closed
    have symbols : f.reported = [] := eq_nil_iff_forall_not_mem.mpr fun s mem => by
      obtain ⟨part, entered, used, found⟩ := (tally.symbols s).mp mem
      rw [(closed part entered).1] at found
      cases found
    have gaps : unit.entered.filterMap (gap? r) = [] :=
      filterMap_eq_nil_iff.mpr fun part entered => by rw [gap?, (closed part entered).2]; rfl
    have all := tally.requests
    rwa [symbols, gaps, filterMap_nil, append_nil, perm_nil] at all

theorem mem_plan (hq : q ∈ plan unit r) : ∃ e, q = .reject e [] := by
  rcases mem_append.mp ((plan_tally h).requests.mem_iff.mp hq) with mem | mem
  · obtain ⟨s, -, first⟩ := mem_filterMap.mp mem
    obtain ⟨part, -, found⟩ := exists_of_findSome?_eq_some first
    obtain ⟨m, -, rfl⟩ := Option.map_eq_some_iff.mp found
    exact ⟨_, rfl⟩
  · obtain ⟨part, -, found⟩ := mem_filterMap.mp mem
    obtain ⟨what, -, rfl⟩ := Option.map_eq_some_iff.mp found
    exact ⟨_, rfl⟩

theorem targets_plan : (plan unit r).flatMap Request.targets = [] := by
  rw [flatMap_eq_nil_iff]
  intro q hq
  obtain ⟨e, rfl⟩ := mem_plan h hq
  rfl

theorem plan_admitted : ∀ q ∈ plan unit r, q.Admitted (outlook t) := by
  intro q hq
  obtain ⟨e, rfl⟩ := mem_plan h hq
  exact fun _ _ => trivial

end Inferred

end BlFront
