import BlFront.Analysis
import BlFront.Proofs.Analysis.Checking
import BlFront.Proofs.Reactor.Ledger
import BlFront.Proofs.Reactor.Seeding

/-!
# From phase to phase

What holds of an analysis before and after each phase.  In a well numbered unit every phase ends
without a fault, and a unit that passes its first phase is well numbered.
-/

namespace BlFront

open List SymbolTable Reactor

open Names

/-! ### Builtin symbols -/

namespace SymbolTable

theorem nodup_builtinTypes : (builtinTypes.map Prod.fst).Nodup := by decide

theorem hasSymbol_of_mem_builtinTypes : ∀ p ∈ builtinTypes, initial.hasSymbol p.1 = true := by
  decide

variable {s : SymbolId}

theorem mem_builtinTypes (h : initial.hasSymbol s = true) :
    ∃ type, (s, type) ∈ builtinTypes := by
  have all : ∀ i < initial.symbols.length, (⟨i⟩ : SymbolId) ∈ builtinTypes.map Prod.fst := by decide
  obtain ⟨⟨_, type⟩, hp, rfl⟩ := mem_map.mp (all s.index (hasSymbol_iff.mp h))
  exact ⟨type, hp⟩

/-- The kinds of builtin symbols, with the types that go with them. -/
def fitsBuiltin : Option SymbolKind → Ty → Bool
  | some (.function _), .function _ _ | some .var, _ | some .primitiveType, _ => true
  | _, _ => false

variable {t : SymbolTable}

theorem describes_of_fitsBuiltin {type : Ty}
    (h : fitsBuiltin (t.kind? s) type = true) : t.Describes s type := by
  unfold Describes
  cases hk : t.kind? s with
  | none => simp
  | some kind =>
    rw [hk] at h
    cases kind with
    | function members =>
      cases type with
      | function params result => exact ⟨params, result, rfl⟩
      | _ => cases h
    | method members => cases h
    | structType members => cases h
    | classType members superclass => cases h
    | _ => trivial

theorem builtinTypes_fit {G : ClassRow → List ClassRow → Prop}
    (grows : initial.Grows t) :
    ∀ p ∈ builtinTypes, Fits t (typeOf (.symbol p.1)) (.type p.2) G := by
  have kinds : ∀ p ∈ builtinTypes, fitsBuiltin (initial.kind? p.1) p.2 = true := by decide
  have types : builtinTypes.map Prod.snd = [.any, .boolean, .int, .float, .string, .unit,
      .any, .function [⟨"any", .any⟩] .unit, .any, .function [⟨"any", .any⟩] .string,
      .string, .string, .function [⟨"s1", .string⟩, ⟨"s2", .string⟩] .string,
      .array .any, .function [⟨"array", .array .any⟩] .int] := rfl
  intro p hp
  have coherent : p.2.Coherent t G := by
    have mem := mem_map_of_mem (f := Prod.snd) hp
    rw [types] at mem
    simp only [mem_cons, not_mem_nil, or_false] at mem
    rcases mem with h | h | h | h | h | h | h | h | h | h | h | h | h | h | h <;>
      simp [h, Ty.Coherent, membersCoherent]
  refine fits_symbol_type coherent (describes_of_fitsBuiltin ?_)
  obtain ⟨s, hs⟩ := Option.isSome_iff_exists.mp (hasSymbol_of_mem_builtinTypes p hp)
  have kind := kinds p hp
  simp only [kind?, hs, Option.map_some] at kind
  simp only [kind?, grows.symbol? hs, Option.map_some]
  exact kind

end SymbolTable

namespace Analysis

variable {unit : CompilationUnit} {a b : Analysis} {phase : Phase}

/-! ### Before the first phase -/

structure Begun (unit : CompilationUnit) (a : Analysis) : Prop where
  unit_eq : a.unit = unit
  symbols_eq : a.symbols = .initial
  settled : a.reactor.Settled (outlook (table unit))
  clean : a.reactor.rootErrors = []
  types : ∀ p ∈ builtinTypes, a.reactor.get? (typeOf (.symbol p.1)) = some (.type p.2)
  only : ∀ {attr slot}, a.reactor.slot? attr = some slot →
    ∃ s, attr = typeOf (.symbol s) ∧ initial.hasSymbol s = true

theorem Begun.builtins (h : Begun unit a) (s : SymbolId)
    (builtin : initial.hasSymbol s = true) :
    ∃ type, a.reactor.get? (typeOf s) = some (.type type) := by
  obtain ⟨type, hp⟩ := mem_builtinTypes builtin
  exact ⟨type, h.types _ hp⟩

theorem start_begun (unit : CompilationUnit) : ∃ a, start unit = .ok a ∧ Begun unit a := by
  let seeds : List (Attribute × Value) :=
    builtinTypes.map fun p => (typeOf (.symbol p.1), .type p.2)
  have attrs : seeds.map Prod.fst =
      (builtinTypes.map Prod.fst).map fun s => typeOf (.symbol s) := by
    simp [seeds]
  have nodup : (seeds.map Prod.fst).Nodup := by
    rw [attrs]
    exact nodup_builtinTypes.map fun a b h =>
      Owner.symbol.inj (congrArg Attribute.owner h)
  have fit : ∀ s ∈ seeds, Fits (table unit) s.1 s.2 := by
    intro s hs
    obtain ⟨p, hp, rfl⟩ := mem_map.mp hs
    exact builtinTypes_fit (table_grows unit) p hp
  have requests : seeds.map (fun s => Request.seed s.1 s.2) =
      builtinTypes.map fun p => .seed (typeOf (.symbol p.1)) (.type p.2) := by
    simp [seeds]
  obtain ⟨r, performed, settled, _, errors, values, only⟩ :=
    (Reactor.Settled.empty (outlook (table unit))).seeds nodup
      (fun s _ => by simp [Reactor.slot?, Reactor.empty]) fit
  refine ⟨⟨unit, .initial, r⟩, ?_, rfl, rfl, settled, ?_, ?_, ?_⟩
  · rw [requests] at performed
    change Reactor.empty.performRequests _ >>= _ = _
    rw [performed]
    rfl
  · rw [Reactor.rootErrors, errors]
    rfl
  · exact fun p hp => values (typeOf (.symbol p.1), .type p.2) (mem_map.mpr ⟨p, hp, rfl⟩)
  · intro attr slot hs
    rcases only hs with none | seeded
    · simp [Reactor.slot?, Reactor.empty] at none
    · rw [attrs, mem_map] at seeded
      obtain ⟨s, builtin, rfl⟩ := seeded
      obtain ⟨p, hp, rfl⟩ := mem_map.mp builtin
      exact ⟨_, rfl, hasSymbol_of_mem_builtinTypes p hp⟩

/-! ### One phase -/

/-- What a phase has done, whatever errors it left. -/
structure Ran (phase : Phase) (a b : Analysis) : Prop where
  advanced : a.advance phase = .ok b
  unit_eq : b.unit = a.unit
  symbols_eq : b.symbols = (a.plan phase).1
  settled : b.reactor.Settled (outlook b.symbols)
  passed : Reactor.Passed b.symbols (a.plan phase).2 a.reactor b.reactor

/-- What a phase needs to end without a fault: nothing that it asks for has a slot or is asked for
twice, and all its requests stay within what fits. -/
structure Ready (a : Analysis) (phase : Phase) : Prop where
  settled : a.reactor.Settled (outlook (a.plan phase).1)
  distinct : ((a.plan phase).2.flatMap Request.targets).Nodup
  fresh : ∀ attr ∈ (a.plan phase).2.flatMap Request.targets, a.reactor.slot? attr = none
  admitted : ∀ q ∈ (a.plan phase).2, q.Admitted (outlook (a.plan phase).1)

theorem Ready.exists_ran (h : a.Ready phase) : ∃ b, Ran phase a b := by
  obtain ⟨r, hr, after, passed⟩ := h.settled.runPass h.distinct h.fresh h.admitted
  refine ⟨{ a with symbols := (a.plan phase).1, reactor := r }, ?_, rfl, rfl, after, passed⟩
  have hr : a.reactor.runPass (a.plan phase).1 (a.plan phase).2 = .ok r := hr
  simp [advance, hr, Except.map]

theorem runPass_of_advance (h : a.advance phase = .ok b) :
    a.reactor.runPass (a.plan phase).1 (a.plan phase).2 = .ok b.reactor := by
  cases pass : a.reactor.runPass (a.plan phase).1 (a.plan phase).2 with
  | error e => simp [advance, pass, Except.map] at h
  | ok r =>
    simp only [advance, pass, Except.map, Except.ok.injEq] at h
    rw [← h]

/-- The errors of a phase are those of its requests, judged by what is known in the end. -/
theorem Ready.rootErrors_perm (h : a.Ready phase) (ran : Ran phase a b)
    (decided : ∀ rule, .register rule ∈ (a.plan phase).2 → (outlook (a.plan phase).1).Decides rule) :
    b.reactor.rootErrors.Perm (a.reactor.rootErrors ++
      (a.plan phase).2.flatMap (Request.errors (a.plan phase).1 b.reactor.get?)) :=
  Reactor.Settled.rootErrors_perm h.settled h.distinct h.fresh h.admitted decided
    (runPass_of_advance ran.advanced)

/-- A phase may always ask for no slots. -/
theorem Ready.of_targets (settled : a.reactor.Settled (outlook (a.plan phase).1))
    (targets : (a.plan phase).2.flatMap Request.targets = [])
    (admitted : ∀ q ∈ (a.plan phase).2, q.Admitted (outlook (a.plan phase).1)) : a.Ready phase :=
  ⟨settled, by rw [targets]; exact nodup_nil, by simp [targets], admitted⟩

variable {attr : Attribute}

/-- A phase leaves alone what it does not ask for. -/
theorem Ran.slot?_eq (h : Ran phase a b)
    (untouched : attr ∉ (a.plan phase).2.flatMap Request.targets) :
    b.reactor.slot? attr = a.reactor.slot? attr := by
  cases hs : b.reactor.slot? attr with
  | some slot =>
    rcases h.passed.only hs with before | target
    · exact before.symm
    · exact absurd target untouched
  | none =>
    cases hb : a.reactor.slot? attr with
    | none => rfl
    | some slot =>
      rw [h.passed.keeps.slots hb] at hs
      cases hs

theorem step_eq_ok : a.step phase = .ok b ↔
    a.advance phase = .ok b ∧ b.reactor.rootErrors = [] := by
  unfold step
  cases ha : a.advance phase with
  | error e => simp
  | ok next =>
    dsimp only
    split
    · next clean =>
        rw [List.isEmpty_iff] at clean
        constructor
        · intro same
          cases same
          exact ⟨rfl, clean⟩
        · rintro ⟨same, _⟩
          cases same
          rfl
    · next errors =>
        rw [List.isEmpty_iff] at errors
        constructor
        · intro same
          cases same
        · rintro ⟨same, clean⟩
          cases same
          exact absurd clean errors

theorem Ran.step_eq_ok (h : Ran phase a b) {c : Analysis} :
    a.step phase = .ok c ↔ c = b ∧ b.reactor.rootErrors = [] := by
  rw [Analysis.step_eq_ok, h.advanced]
  constructor
  · rintro ⟨same, clean⟩
    cases same
    exact ⟨rfl, clean⟩
  · rintro ⟨rfl, clean⟩
    exact ⟨rfl, clean⟩

theorem Ready.ran_of_step (h : a.Ready phase) (step : a.step phase = .ok b) :
    Ran phase a b ∧ b.reactor.rootErrors = [] := by
  obtain ⟨c, ran⟩ := h.exists_ran
  obtain ⟨rfl, clean⟩ := ran.step_eq_ok.mp step
  exact ⟨ran, clean⟩

theorem Ran.step_ne_internal (h : Ran phase a b) (e : ReactorError) :
    a.step phase ≠ .error (.internal e) := by
  simp only [step, h.advanced]
  split <;> simp

/-! ### Names -/

structure Named (unit : CompilationUnit) (a : Analysis) : Prop where
  unit_eq : a.unit = unit
  symbols_eq : a.symbols = table unit
  done : Done unit a.reactor
  types : ∀ p ∈ builtinTypes, a.reactor.get? (typeOf (.symbol p.1)) = some (.type p.2)

theorem Begun.plan_eq (h : Begun unit a) :
    a.plan .resolveReferences = Names.plan unit .initial := by
  rw [plan, h.unit_eq, h.symbols_eq]

theorem Begun.ready (h : Begun unit a) (numbered : unit.WellNumbered) :
    a.Ready .resolveReferences := by
  have plan := h.plan_eq
  refine ⟨?_, ?_, ?_, ?_⟩
  · rw [plan]
    exact h.settled
  · rw [plan]
    exact Names.nodup_plan numbered
  · intro attr target
    rw [plan] at target
    cases hs : a.reactor.slot? attr with
    | none => rfl
    | some slot =>
      obtain ⟨s, rfl, _⟩ := h.only hs
      rcases mem_targets_plan target with same | ⟨part, _, inside⟩ | ⟨_, _, _, _, same⟩
      · cases same
      · obtain ⟨_, _, owner, _⟩ := Part.mem_attrs.mp inside
        cases owner
      · cases same
  · rw [plan]
    exact Names.plan_admitted unit

theorem Begun.named (h : Begun unit a) (ran : Ran .resolveReferences a b)
    (clean : b.reactor.rootErrors = []) : Named unit b := by
  have passed := ran.passed
  have settled := ran.settled
  have symbols := ran.symbols_eq
  rw [h.plan_eq] at passed symbols
  rw [symbols] at passed settled
  have fresh : ∀ s : SymbolId, a.reactor.slot? (AttrName.superclass.of s) = none := by
    intro s
    cases hs : a.reactor.slot? (AttrName.superclass.of s) with
    | none => rfl
    | some slot =>
      obtain ⟨s', same, _⟩ := h.only hs
      cases same
  refine ⟨ran.unit_eq.trans h.unit_eq, symbols, ⟨settled, clean, bindings_of_passed passed clean,
    superclass_of_passed passed clean fresh, fun s hs => ?_, fun hs => ?_⟩,
    fun p hp => passed.keeps.get? (h.types p hp)⟩
  · obtain ⟨type, typed⟩ := h.builtins s hs
    exact ⟨type, passed.keeps.get? typed⟩
  · rcases passed.only hs with before | target
    · exact .inl (h.only before)
    · exact .inr target

/-! ### Accepted units are well numbered -/

theorem scopes_sublist (w : Walk) (visits : List Visit) : ∃ more,
    (visits.foldl Walk.visit w).requests = w.requests ++ more ∧
      (((visits.filterMap Visit.entered?).filterMap Part.id?).map fun n =>
        AttrName.scope.of (.node n)).Sublist (more.filterMap Request.seeded?) := by
  induction visits generalizing w with
  | nil => exact ⟨[], by simp, .slnil⟩
  | cons v visits ih =>
    obtain ⟨more, requests, sub⟩ := ih (w.visit v)
    refine ⟨w.asks v ++ more, ?_, ?_⟩
    · rw [foldl_cons, requests, Walk.requests_visit, append_assoc]
    · rw [filterMap_append]
      cases v with
      | leave part =>
        rw [filterMap_cons_none (show (Visit.leave part).entered? = none from rfl)]
        exact sub.trans (sublist_append_right _ _)
      | enter part =>
        rw [filterMap_cons_some (show (Visit.enter part).entered? = some part from rfl)]
        cases node : part.id? with
        | none =>
          rw [filterMap_cons_none node]
          exact sub.trans (sublist_append_right _ _)
        | some n =>
          rw [filterMap_cons_some node, map_cons]
          have placed : AttrName.scope.of (.node n) ∈
              (w.asks (.enter part)).filterMap Request.seeded? :=
            mem_filterMap.mpr ⟨_, placed_mem_asks node, rfl⟩
          exact (singleton_sublist.mpr placed).append sub

/-- Two nodes of one identity would be placed twice. -/
theorem Begun.wellNumbered (h : Begun unit a) (advanced : a.advance .resolveReferences = .ok b) :
    unit.WellNumbered := by
  obtain ⟨r, performed⟩ : ∃ r, a.reactor.performRequests (Names.plan unit .initial).2 = .ok r := by
    rw [advance, h.plan_eq] at advanced
    cases pass : a.reactor.runPass (Names.plan unit .initial).1 (Names.plan unit .initial).2 with
    | error e => simp [pass, Except.map] at advanced
    | ok after =>
      obtain ⟨ready, _, performed, _⟩ := runPass_eq_ok.mp pass
      exact ⟨ready, performed⟩
  obtain ⟨more, requests, sub⟩ := scopes_sublist (begin unit) unit.tour
  have placed : (unit.ids.map fun n => AttrName.scope.of (.node n)).Sublist
      ((Names.plan unit .initial).2.filterMap Request.seeded?) := by
    rw [CompilationUnit.ids, unit.entered_eq]
    rw [show (Names.plan unit .initial).2 = (begin unit).requests ++ more ++ _ from
      congrArg (· ++ _) requests, filterMap_append, filterMap_append]
    have first : (begin unit).requests.filterMap Request.seeded? =
        [AttrName.scope.of (.node unit.tag.id)] := rfl
    rw [first, map_cons]
    exact ((List.Sublist.refl [_]).append sub).trans (sublist_append_left _ _)
  exact List.Nodup.of_map _ ((seeds_distinct performed).1.sublist placed)

/-! ### Types -/

structure Typed (unit : CompilationUnit) (a₁ a₂ : Analysis) : Prop where
  named : Named unit a₁
  ran : Ran .resolveTypes a₁ a₂
  clean : a₂.reactor.rootErrors = []

theorem Named.plan_eq (h : Named unit a) :
    a.plan .resolveTypes = (table unit, Types.plan unit (table unit) a.reactor) := by
  rw [plan, h.unit_eq, h.symbols_eq]

theorem Named.decided (h : Named unit a) :
    ∀ q ∈ (a.plan .resolveTypes).2, q.Decided (a.plan .resolveTypes).1 fun _ _ => True := by
  rw [h.plan_eq]
  intro q hq
  obtain ⟨part, hp, hq⟩ := mem_flatMap.mp hq
  exact Types.partRequests_decided h.done (CompilationUnit.mem_left.mp hp) (fun _ _ _ => trivial) q hq

theorem Named.ready (h : Named unit a) (numbered : unit.WellNumbered) : a.Ready .resolveTypes := by
  refine ⟨?_, ?_, ?_, fun q hq => (h.decided q hq).admitted⟩ <;> rw [h.plan_eq]
  · exact h.done.settled
  · exact Types.nodup_plan h.done.bindings numbered _
  · exact Types.fresh_plan h.done numbered _

namespace Typed

variable {a₁ a₂ : Analysis} (h : Typed unit a₁ a₂)

include h

theorem unit_eq : a₂.unit = unit := h.ran.unit_eq.trans h.named.unit_eq

theorem symbols_eq : a₂.symbols = table unit := by
  rw [h.ran.symbols_eq, h.named.plan_eq]

theorem settled : a₂.reactor.Settled (outlook (table unit)) := h.symbols_eq ▸ h.ran.settled

theorem passed : Reactor.Passed (table unit) (Types.plan unit (table unit) a₁.reactor)
    a₁.reactor a₂.reactor := by
  have passed := h.ran.passed
  rwa [h.named.plan_eq, h.symbols_eq] at passed

theorem bindings : Bindings unit a₂.reactor := h.named.done.bindings.extend h.ran.passed.keeps

/-- Nothing is known yet about missing returns. -/
theorem slot?_returns (name : attr.name = .returns) :
    a₂.reactor.slot? attr = none := by
  cases hs : a₂.reactor.slot? attr with
  | none => rfl
  | some slot =>
    exfalso
    rcases h.passed.only hs with before | target
    · rcases h.named.done.only before with ⟨s, rfl, _⟩ | target
      · cases name
      · rcases mem_targets_plan target with rfl | ⟨part, _, inside⟩ | ⟨_, _, _, _, rfl⟩
        · cases name
        · obtain ⟨_, _, _, asked⟩ := Part.mem_attrs.mp inside
          rw [name] at asked
          exact returns_not_named part asked
        · cases name
    · rcases mem_append.mp ((Types.targets_plan_perm h.named.done.bindings _).mem_iff.mp
        target) with node | symbol
      · obtain ⟨part, _, inside⟩ := mem_flatMap.mp node
        obtain ⟨_, _, _, asked⟩ := Part.mem_attrs.mp inside
        rw [name] at asked
        exact Types.returns_not_typing part asked
      · obtain ⟨n, _, rfl⟩ := mem_map.mp symbol
        cases name

theorem plan_eq : a₂.plan .checkInferred = (table unit, Inferred.plan unit a₂.reactor) := by
  rw [plan, h.unit_eq, h.symbols_eq]

theorem targets : (a₂.plan .checkInferred).2.flatMap Request.targets = [] := by
  rw [h.plan_eq]
  exact Inferred.targets_plan h.bindings

theorem ready : a₂.Ready .checkInferred := by
  refine .of_targets ?_ h.targets ?_ <;> rw [h.plan_eq]
  · exact h.settled
  · exact Inferred.plan_admitted h.bindings

end Typed

/-! ### Missing types -/

structure Known (unit : CompilationUnit) (a₁ a₂ a₃ : Analysis) : Prop where
  typed : Typed unit a₁ a₂
  ran : Ran .checkInferred a₂ a₃
  clean : a₃.reactor.rootErrors = []

namespace Known

variable {a₁ a₂ a₃ : Analysis} (h : Known unit a₁ a₂ a₃)

include h

theorem unit_eq : a₃.unit = unit := h.ran.unit_eq.trans h.typed.unit_eq

theorem symbols_eq : a₃.symbols = table unit := by
  rw [h.ran.symbols_eq, h.typed.plan_eq]

theorem settled : a₃.reactor.Settled (outlook (table unit)) := h.symbols_eq ▸ h.ran.settled

theorem bindings : Bindings unit a₃.reactor := h.typed.bindings.extend h.ran.passed.keeps

theorem slot?_eq (attr : Attribute) : a₃.reactor.slot? attr = a₂.reactor.slot? attr :=
  h.ran.slot?_eq (by simp [h.typed.targets])

theorem plan_eq :
    a₃.plan .checkTypes = (table unit, Checks.plan unit (table unit) a₃.reactor) := by
  rw [plan, h.unit_eq, h.symbols_eq]

theorem targets : (a₃.plan .checkTypes).2.flatMap Request.targets = [] := by
  rw [h.plan_eq]
  exact Checks.targets_plan h.bindings

theorem ready : a₃.Ready .checkTypes := by
  refine .of_targets ?_ h.targets ?_ <;> rw [h.plan_eq]
  · exact h.settled
  · exact fun q hq => (Checks.isCheck_plan h.bindings hq).admitted

end Known

/-! ### Type checks -/

structure Checked (unit : CompilationUnit) (a₁ a₂ a₃ a₄ : Analysis) : Prop where
  known : Known unit a₁ a₂ a₃
  ran : Ran .checkTypes a₃ a₄
  clean : a₄.reactor.rootErrors = []

namespace Checked

variable {a₁ a₂ a₃ a₄ : Analysis} (h : Checked unit a₁ a₂ a₃ a₄)

include h

theorem unit_eq : a₄.unit = unit := h.ran.unit_eq.trans h.known.unit_eq

theorem symbols_eq : a₄.symbols = table unit := by
  rw [h.ran.symbols_eq, h.known.plan_eq]

theorem settled : a₄.reactor.Settled (outlook (table unit)) := h.symbols_eq ▸ h.ran.settled

theorem passed : Reactor.Passed (table unit) (Checks.plan unit (table unit) a₃.reactor)
    a₃.reactor a₄.reactor := by
  have passed := h.ran.passed
  rwa [h.known.plan_eq, h.symbols_eq] at passed

theorem bindings : Bindings unit a₄.reactor := h.known.bindings.extend h.ran.passed.keeps

theorem slot?_eq (attr : Attribute) : a₄.reactor.slot? attr = a₂.reactor.slot? attr :=
  (h.ran.slot?_eq (by simp [h.known.targets])).trans (h.known.slot?_eq attr)

theorem plan_eq : a₄.plan .checkReturns = (table unit, Returns.plan unit a₄.reactor) := by
  rw [plan, h.unit_eq, h.symbols_eq]

theorem ready (numbered : unit.WellNumbered) : a₄.Ready .checkReturns := by
  refine ⟨?_, ?_, ?_, ?_⟩ <;> rw [h.plan_eq]
  · exact h.settled
  · exact Returns.nodup_plan h.bindings numbered
  · intro attr target
    rw [h.slot?_eq]
    exact h.known.typed.slot?_returns (Returns.name_of_mem_targets h.bindings target)
  · exact fun q hq => (Returns.plan_decided h.bindings q hq).admitted

end Checked

/-! ### Missing returns -/

structure Accepted (unit : CompilationUnit) (a₁ a₂ a₃ a₄ a₅ : Analysis) : Prop where
  checked : Checked unit a₁ a₂ a₃ a₄
  ran : Ran .checkReturns a₄ a₅
  clean : a₅.reactor.rootErrors = []

namespace Accepted

variable {a₁ a₂ a₃ a₄ a₅ : Analysis} (h : Accepted unit a₁ a₂ a₃ a₄ a₅)

include h

theorem symbols_eq : a₅.symbols = table unit := by
  rw [h.ran.symbols_eq, h.checked.plan_eq]

theorem settled : a₅.reactor.Settled (outlook (table unit)) := h.symbols_eq ▸ h.ran.settled

theorem bindings : Bindings unit a₅.reactor := h.checked.bindings.extend h.ran.passed.keeps

theorem slot?_eq (other : attr.name ≠ .returns) :
    a₅.reactor.slot? attr = a₂.reactor.slot? attr := by
  refine (h.ran.slot?_eq fun target => other ?_).trans (h.checked.slot?_eq attr)
  rw [h.checked.plan_eq] at target
  exact Returns.name_of_mem_targets h.checked.bindings target

/-- What is found out about types stays. -/
theorem keeps : a₂.reactor.Extends a₅.reactor :=
  (h.checked.known.ran.passed.keeps.trans h.checked.ran.passed.keeps).trans h.ran.passed.keeps

end Accepted

end Analysis

/-! ### Runs of phases -/

variable {unit : CompilationUnit} {a : Analysis} {last : Phase}

theorem analyzeUntil_eq (first : Phase) (next : last.upTo = first.upTo ++ [last]) :
    analyzeUntil unit last = (analyzeUntil unit first).bind (·.step last) := by
  unfold analyzeUntil
  cases Analysis.start unit with
  | error e => rfl
  | ok a =>
    simp only [next, foldlM_append, foldlM_cons, foldlM_nil, bind_pure]
    rfl

theorem analyzeUntil_eq_ok (first : Phase) (next : last.upTo = first.upTo ++ [last]) :
    analyzeUntil unit last = .ok a ↔
      ∃ before, analyzeUntil unit first = .ok before ∧ before.step last = .ok a := by
  rw [analyzeUntil_eq first next]
  cases analyzeUntil unit first <;> simp [Except.bind]

theorem exists_of_isOk {ε α : Type} {result : Except ε α} (h : result.isOk = true) :
    ∃ a, result = .ok a := by
  cases result with
  | error e => cases h
  | ok a => exact ⟨a, rfl⟩

theorem analyzeUntil_resolveReferences (unit : CompilationUnit) :
    ∃ a, Analysis.Begun unit a ∧ analyzeUntil unit .resolveReferences = a.step .resolveReferences := by
  obtain ⟨a, started, begun⟩ := Analysis.start_begun unit
  refine ⟨a, begun, ?_⟩
  rw [analyzeUntil, started]
  exact bind_pure (a.step .resolveReferences)

/-- How the pass over names ends. -/
theorem analyzeUntil_names (unit : CompilationUnit) :
    (¬unit.WellNumbered ∧ ∃ e, analyzeUntil unit .resolveReferences = .error (.internal e)) ∨
      ∃ a₀ a, unit.WellNumbered ∧ Analysis.Begun unit a₀ ∧ Analysis.Ran .resolveReferences a₀ a ∧
        analyzeUntil unit .resolveReferences = (if a.reactor.rootErrors.isEmpty then .ok a
          else .error (.rejected .resolveReferences a.reactor.rootErrors)) := by
  obtain ⟨a₀, begun, same⟩ := analyzeUntil_resolveReferences unit
  by_cases numbered : unit.WellNumbered
  · obtain ⟨a, ran⟩ := (begun.ready numbered).exists_ran
    exact .inr ⟨a₀, a, numbered, begun, ran, by simp only [same, Analysis.step, ran.advanced]⟩
  · refine .inl ⟨numbered, ?_⟩
    cases advanced : a₀.advance .resolveReferences with
    | ok a => exact absurd (begun.wellNumbered advanced) numbered
    | error e => exact ⟨e, by simp only [same, Analysis.step, advanced]⟩

theorem named_of_analyzeUntil (h : analyzeUntil unit .resolveReferences = .ok a) :
    unit.WellNumbered ∧ a.Named unit := by
  obtain ⟨a₀, begun, same⟩ := analyzeUntil_resolveReferences unit
  rw [same] at h
  have numbered := begun.wellNumbered (Analysis.step_eq_ok.mp h).1
  obtain ⟨ran, clean⟩ := (begun.ready numbered).ran_of_step h
  exact ⟨numbered, begun.named ran clean⟩

theorem typed_of_analyzeUntil (h : analyzeUntil unit .resolveTypes = .ok a) :
    unit.WellNumbered ∧ ∃ a₁, Analysis.Typed unit a₁ a := by
  obtain ⟨a₁, before, step⟩ := (analyzeUntil_eq_ok .resolveReferences rfl).mp h
  obtain ⟨numbered, named⟩ := named_of_analyzeUntil before
  obtain ⟨ran, clean⟩ := (named.ready numbered).ran_of_step step
  exact ⟨numbered, a₁, named, ran, clean⟩

theorem known_of_analyzeUntil (h : analyzeUntil unit .checkInferred = .ok a) :
    unit.WellNumbered ∧ ∃ a₁ a₂, Analysis.Known unit a₁ a₂ a := by
  obtain ⟨a₂, before, step⟩ := (analyzeUntil_eq_ok .resolveTypes rfl).mp h
  obtain ⟨numbered, a₁, typed⟩ := typed_of_analyzeUntil before
  obtain ⟨ran, clean⟩ := typed.ready.ran_of_step step
  exact ⟨numbered, a₁, a₂, typed, ran, clean⟩

theorem checked_of_analyzeUntil (h : analyzeUntil unit .checkTypes = .ok a) :
    unit.WellNumbered ∧ ∃ a₁ a₂ a₃, Analysis.Checked unit a₁ a₂ a₃ a := by
  obtain ⟨a₃, before, step⟩ := (analyzeUntil_eq_ok .checkInferred rfl).mp h
  obtain ⟨numbered, a₁, a₂, known⟩ := known_of_analyzeUntil before
  obtain ⟨ran, clean⟩ := known.ready.ran_of_step step
  exact ⟨numbered, a₁, a₂, a₃, known, ran, clean⟩

theorem accepted_of_analyze (h : analyze unit = .ok a) :
    ∃ a₁ a₂ a₃ a₄, Analysis.Accepted unit a₁ a₂ a₃ a₄ a := by
  obtain ⟨a₄, before, step⟩ := (analyzeUntil_eq_ok .checkTypes rfl).mp h
  obtain ⟨numbered, a₁, a₂, a₃, checked⟩ := checked_of_analyzeUntil before
  obtain ⟨ran, clean⟩ := (checked.ready numbered).ran_of_step step
  exact ⟨a₁, a₂, a₃, a₄, checked, ran, clean⟩

end BlFront
