import BlFront.Proofs.Reactor.Passes
import BlFront.Proofs.Symbol.Coherent

/-!
# What attributes hold

Each attribute holds values of one kind, and these fit the table of the unit: scopes and symbols
are in the table, types are coherent with it, and the type of a symbol is of the form that its
declaration says.
-/

namespace BlFront

open SymbolTable

variable {attr target : Attribute} {name : String} {α : Type} {v : Value}

/-- A type is of the form that the kind of a symbol asks for. -/
def SymbolTable.Describes (t : SymbolTable) (symbol : SymbolId) (type : Ty) : Prop :=
  match t.kind? symbol with
  | some (.function _) | some (.method _) => ∃ params result, type = .function params result
  | some (.structType _) => ∃ name fields, type = .struct symbol name fields
  | some (.classType _ _) => ∃ own supers, type = .object own supers ∧ own.symbol = symbol
  | _ => True

def ReturnFlow.Coherent (t : SymbolTable)
    (G : ClassRow → List ClassRow → Prop := fun _ _ => True) (flow : ReturnFlow) : Prop :=
  ∀ type, flow.type = some type → type.Coherent t G

/-- Whether an attribute may hold a value, where more may be asked of class types. -/
def Fits (t : SymbolTable) (attr : Attribute) (v : Value)
    (G : ClassRow → List ClassRow → Prop := fun _ _ => True) : Prop :=
  match v with
  | .scope id => attr.name = .scope ∧ t.hasScope id = true
  | .symbol id =>
    attr.name = .symbol ∧ t.hasSymbol id = true ∨
    attr.name = .superclass ∧ t.hasKind (·.isClass) id = true ∨
    attr.name = .containingFunction ∧ t.hasKind (·.isCallable) id = true ∨
    attr.name = .containingClass ∧ t.hasKind (·.isClass) id = true
  | .type type => attr.name = .type ∧ type.Coherent t G ∧
      ∀ symbol, attr.owner = .symbol symbol → t.Describes symbol type
  | .flow flow => attr.name = .returnType ∧ flow.Coherent t G
  | .flag _ => attr.name = .returns

/-- What may become of the attributes of a unit: any of them may fail. -/
def outlook (t : SymbolTable) (G : ClassRow → List ClassRow → Prop := fun _ _ => True) : Outlook :=
  ⟨t, fun attr v => Fits t attr v G, fun _ => True⟩

variable {t : SymbolTable} {G : ClassRow → List ClassRow → Prop}

/-! ### Kinds of values -/

theorem Fits.scope (h : Fits t attr v G) (name : attr.name = .scope) :
    ∃ id, v = .scope id ∧ t.hasScope id = true := by
  cases v with
  | scope id => exact ⟨id, rfl, h.2⟩
  | _ => simp [Fits, name] at h

theorem Fits.symbol (h : Fits t attr v G) (name : attr.name = .symbol) :
    ∃ id, v = .symbol id ∧ t.hasSymbol id = true := by
  cases v with
  | symbol id => exact ⟨id, rfl, by simpa [Fits, name] using h⟩
  | _ => simp [Fits, name] at h

theorem Fits.type (h : Fits t attr v G) (name : attr.name = .type) :
    ∃ type, v = .type type ∧ type.Coherent t G ∧
      ∀ symbol, attr.owner = .symbol symbol → t.Describes symbol type := by
  cases v with
  | type type => exact ⟨type, rfl, h.2⟩
  | symbol id => simp [Fits, name] at h
  | _ => simp [Fits, name] at h

theorem Fits.flow (h : Fits t attr v G) (name : attr.name = .returnType) :
    ∃ flow, v = .flow flow ∧ flow.Coherent t G := by
  cases v with
  | flow flow => exact ⟨flow, rfl, h.2⟩
  | _ => simp [Fits, name] at h

theorem Fits.flag (h : Fits t attr v G) (name : attr.name = .returns) : ∃ flag, v = .flag flag := by
  cases v with
  | flag flag => exact ⟨flag, rfl⟩
  | _ => simp [Fits, name] at h

/-- The type of a node is free of any declaration. -/
theorem fits_node_type {node : NodeId} {type : Ty} (h : type.Coherent t G) :
    Fits t (typeOf (.node node)) (.type type) G :=
  ⟨rfl, h, by simp [typeOf, AttrName.of]⟩

theorem fits_symbol_type {symbol : SymbolId} {type : Ty} (h : type.Coherent t G)
    (describes : t.Describes symbol type) : Fits t (typeOf (.symbol symbol)) (.type type) G := by
  refine ⟨rfl, h, fun s hs => ?_⟩
  cases hs
  exact describes

/-- Nothing is asked of the type of a variable, a field or a primitive type. -/
theorem describes_of_members?_eq_none {symbol : SymbolId} {kind : SymbolKind}
    (held : t.kind? symbol = some kind) (simple : kind.members? = none) (type : Ty) :
    t.Describes symbol type := by
  rw [SymbolTable.Describes, held]
  cases kind with
  | function members => cases simple
  | method members => cases simple
  | structType members => cases simple
  | classType members superclass => cases simple
  | _ => trivial

theorem describes_callable {symbol : SymbolId} {type : Ty}
    (callable : t.hasKind (·.isCallable) symbol = true) :
    t.Describes symbol type ↔ ∃ params result, type = .function params result := by
  obtain ⟨⟨_, _, kind, _⟩, hs, hk⟩ := hasKind_iff.mp callable
  cases kind <;> simp [SymbolKind.isCallable] at hk <;>
    simp [SymbolTable.Describes, kind?, hs]

theorem describes_class {symbol : SymbolId} {type : Ty}
    (isClass : t.hasKind (·.isClass) symbol = true) :
    t.Describes symbol type ↔ ∃ own supers, type = .object own supers ∧ own.symbol = symbol := by
  obtain ⟨⟨_, _, kind, _⟩, hs, hk⟩ := hasKind_iff.mp isClass
  cases kind <;> simp [SymbolKind.isClass] at hk
  simp [SymbolTable.Describes, kind?, hs]

/-! ### Flows -/

namespace ReturnFlow

theorem fallsThrough_coherent : fallsThrough.Coherent t G := by simp [Coherent, fallsThrough]

theorem returning_coherent {type : Ty} (h : type.Coherent t G) : (returning type).Coherent t G := by
  simpa [Coherent, returning] using h

theorem joinTypes_coherent {a b : Option Ty} (ha : ∀ x, a = some x → x.Coherent t G)
    (hb : ∀ x, b = some x → x.Coherent t G) : ∀ x, joinTypes a b = some x → x.Coherent t G := by
  intro x hx
  match a, b with
  | some a, some b =>
    cases hx
    exact (ha a rfl).join (hb b rfl)
  | some a, none => exact ha x hx
  | none, some b => exact hb x hx
  | none, none => cases hx

theorem sequenceFrom_coherent {flows : List ReturnFlow} {type : Option Ty}
    (first : ∀ x, type = some x → x.Coherent t G) (h : ∀ f ∈ flows, f.Coherent t G) :
    (sequenceFrom type flows).Coherent t G := by
  induction flows generalizing type with
  | nil => exact first
  | cons f flows ih =>
    have joined := joinTypes_coherent first (h f (by simp))
    rw [sequenceFrom]
    split
    · exact joined
    · exact ih joined fun g hg => h g (by simp [hg])

theorem branch_coherent {hasElse : Bool} {a b : ReturnFlow} (ha : a.Coherent t G)
    (hb : b.Coherent t G) : (branch hasElse a b).Coherent t G :=
  joinTypes_coherent ha hb

end ReturnFlow

/-! ### Rules -/

theorem Outlook.Decides.within {rule : Rule} (h : (outlook t G).Decides rule) :
    (outlook t G).Admits rule.tidied :=
  h.admits fun _ _ _ _ _ => trivial

/-- A request that is for a value that fits, or for a rule that computes such values. -/
def Request.Decided (t : SymbolTable) (G : ClassRow → List ClassRow → Prop) : Request → Prop
  | .register rule => (outlook t G).Decides rule
  | q => q.Admitted (outlook t G)

theorem Request.Decided.admitted {q : Request} (h : q.Decided t G) : q.Admitted (outlook t G) := by
  cases q with
  | register rule => exact Outlook.Decides.within h
  | _ => exact h

theorem decides_computing {deps exports : List Attribute}
    {f : View → Except ReactorError (List Effect)}
    (computes : ∀ values : Attribute → Value, (∀ d ∈ deps, Fits t d (values d) G) →
      ∃ effects, (Rule.computing name deps exports f).Computes t values effects ∧
        (writes effects).map Prod.fst = exports ∧
        ∀ attr v, (attr, Output.value v) ∈ writes effects → Fits t attr v G) :
    (outlook t G).Decides (Rule.computing name deps exports f) := by
  refine ⟨⟨f, rfl⟩, fun values held => ?_⟩
  obtain ⟨effects, hcomputes, hexports, fits⟩ := computes values held
  refine ⟨effects, hcomputes, hexports, fun w hw => ?_⟩
  obtain ⟨attr, output⟩ := w
  cases output with
  | value v => exact fits attr v hw
  | error e => trivial

theorem fits_ofResult {result : Except SemanticError Value}
    (fits : ∀ w, result = .ok w → Fits t target w G) :
    ∀ attr v, (attr, Output.value v) ∈ writes [.write target (.ofResult result)] →
      Fits t attr v G := by
  intro attr v hw
  cases result with
  | ok w =>
    cases List.mem_singleton.mp hw
    exact fits v rfl
  | error e => cases List.mem_singleton.mp hw

theorem decides_map {kind : Kind α} {source : Attribute}
    {f : α → SymbolTable → Except SemanticError Value}
    (fits : ∀ v, Fits t source v G → ∃ a, kind.extract v = some a ∧
      ∀ w, f a t = .ok w → Fits t target w G) :
    (outlook t G).Decides (Rule.map name kind source target f) := by
  refine decides_computing fun values held => ?_
  obtain ⟨a, ha, allowed⟩ := fits (values source) (held source (by simp))
  exact ⟨_, Rule.map_computes name ha target f, rfl, fits_ofResult allowed⟩

theorem decides_copy {source : Attribute} (fits : ∀ v, Fits t source v G → Fits t target v G) :
    (outlook t G).Decides (Rule.copy name source target) := by
  refine decides_map fun v hv => ⟨v, rfl, fun w hw => ?_⟩
  cases hw
  exact fits v hv

private theorem exists_mapM {g : Attribute → Option α} {good : α → Prop} {l : List Attribute}
    (h : ∀ d ∈ l, ∃ a, g d = some a ∧ good a) : ∃ as, l.mapM g = some as ∧ ∀ a ∈ as, good a := by
  induction l with
  | nil => exact ⟨[], rfl, by simp⟩
  | cons d l ih =>
    obtain ⟨a, ha, first⟩ := h d (by simp)
    obtain ⟨as, has, rest⟩ := ih fun d hd => h d (by simp [hd])
    exact ⟨a :: as, by simp [List.mapM_cons, ha, has], by simpa using ⟨first, rest⟩⟩

theorem decides_flatMap {kind : Kind α} {sources : List Attribute}
    {f : List α → SymbolTable → Except SemanticError Value} (good : α → Prop)
    (reads : ∀ d ∈ sources, ∀ v, Fits t d v G → ∃ a, kind.extract v = some a ∧ good a)
    (fits : ∀ as, (∀ a ∈ as, good a) → ∀ w, f as t = .ok w → Fits t target w G) :
    (outlook t G).Decides (Rule.flatMap name kind sources target f) := by
  refine decides_computing fun values held => ?_
  obtain ⟨as, has, allGood⟩ := exists_mapM (g := fun d => kind.extract (values d)) fun d hd =>
    reads d hd (values d) (held d hd)
  exact ⟨_, Rule.flatMap_computes name has target f, rfl, fits_ofResult (fits as allGood)⟩

/-! ### Rules about types -/

theorem extract_type (name : attr.name = .type) (v : Value) (h : Fits t attr v G) :
    ∃ type, Kind.type.extract v = some type ∧ type.Coherent t G := by
  obtain ⟨type, rfl, coherent, _⟩ := h.type name
  exact ⟨type, rfl, coherent⟩

theorem extract_flow (name : attr.name = .returnType) (v : Value) (h : Fits t attr v G) :
    ∃ flow, Kind.flow.extract v = some flow ∧ flow.Coherent t G := by
  obtain ⟨flow, rfl, coherent⟩ := h.flow name
  exact ⟨flow, rfl, coherent⟩

theorem extract_flag (name : attr.name = .returns) (v : Value) (h : Fits t attr v G) :
    ∃ flag, Kind.flag.extract v = some flag ∧ True := by
  obtain ⟨flag, rfl⟩ := h.flag name
  exact ⟨flag, rfl, trivial⟩

/-- A rule that reads one type. -/
theorem decides_mapType {owner : Owner} {f : Ty → SymbolTable → Except SemanticError Value}
    (fits : ∀ type, type.Coherent t G → ∀ w, f type t = .ok w → Fits t target w G) :
    (outlook t G).Decides (Rule.map name Kind.type (typeOf owner) target f) := by
  refine decides_map fun v hv => ?_
  obtain ⟨type, extracted, coherent⟩ := extract_type rfl v hv
  exact ⟨type, extracted, fits type coherent⟩

/-- The type of a node may be any that something has. -/
theorem decides_copyType {owner : Owner} {node : NodeId} :
    (outlook t G).Decides (Rule.copy name (typeOf owner) (typeOf (.node node))) := by
  refine decides_copy fun v hv => ?_
  obtain ⟨type, rfl, coherent, _⟩ := hv.type rfl
  exact fits_node_type coherent

end BlFront
