import BlFront.Proofs.Analysis.Veil
import BlFront.Proofs.Syntax.Placing.Reports
import BlFront.Proofs.Text.Positions

/-!
# Places that are printed

All that is pointed at when a text is read and analyzed is a piece of the text: tokens, nodes, reports
and errors.  So each has a position, found by a slice of its line that ends between two characters.
-/

namespace BlFront

/-- The places that tokens, nodes, reports and errors of a text point at. -/
inductive PointedAt (source : List Char) : Span → Prop
  | token {t : Token} (mem : t ∈ (Token.scan source).tokens) : PointedAt source t.span
  | node {span : Span} {children : List Span} (h : (Parser.ofText source).unit.NodeAt span children) :
      PointedAt source span
  | diagnostic {d : Diagnostic} {span : Span} (mem : d ∈ (Parser.ofText source).diagnostics)
      (told : span ∈ d.spans) : PointedAt source span
  | error {last phase : Phase} {errors : List SemanticError} {e : SemanticError}
      (rejected : analyzeUntil (Parser.ofText source).unit last = .error (.rejected phase errors))
      (mem : e ∈ errors) : PointedAt source e.span

/-- What is no piece of a text is seen at its start. -/
noncomputable def Veil.onto (source : List Char) : Veil where
  place := open Classical in fun span => if span.Readable source then span else .dummy
  place_dummy := ite_self _

variable {source : List Char} {span : Span}

theorem Veil.place_onto :
    (onto source).place span = span ↔ span.Readable source := by
  have start : Span.dummy.Readable source := Span.readable_of_cuts .zero .zero (Nat.le_refl _)
  constructor
  · intro same
    by_contra unreadable
    have moved : (onto source).place span = .dummy := if_neg unreadable
    exact unreadable (same ▸ moved ▸ start)
  · exact fun readable => if_pos readable

/-- The nodes of a unit are pieces of the text that it was read from. -/
theorem Parser.ofText_veiled (source : List Char) :
    (ofText source).unit.veiled (.onto source) = (ofText source).unit := by
  have tokens := (Token.scan_readable source).1
  obtain ⟨⟨lo, hi, laid⟩, grounded⟩ := ofText_laid source
  refine CompilationUnit.veiled_eq ?_ fun v mem span told => ?_
  · obtain ⟨bounded, ordered, _⟩ := ofText_nodes source .unit
    exact Veil.place_onto.mpr ((bounded.edged ordered).readable tokens)
  · have bounded := (grounded v mem span told).mono (List.takeWhile_sublist _).subset
    exact Veil.place_onto.mpr ((bounded.edged ((laid.places v mem).2 span told)).readable tokens)

theorem PointedAt.readable (h : PointedAt source span) :
    span.Readable source := by
  have tokens := (Token.scan_readable source).1
  cases h with
  | token mem => exact tokens _ mem
  | node node =>
    obtain ⟨bounded, ordered, _⟩ := Parser.ofText_nodes source node
    exact (bounded.edged ordered).readable tokens
  | diagnostic mem told => exact Parser.ofText_diagnostics source mem span told
  | @error last phase errors e rejected mem =>
    -- The unit is seen as it is, so its errors are.
    have seen := analyzeUntil_veiled (.onto source) (Parser.ofText source).unit last
    rw [Parser.ofText_veiled, rejected] at seen
    have same : errors = errors.map (SemanticError.veiled (.onto source)) :=
      (AnalysisError.rejected.inj (Except.error.inj seen)).2
    have here : e = e.veiled (.onto source) :=
      List.map_inj_left.mp ((List.map_id errors).trans same) e mem
    exact Veil.place_onto.mp (congrArg SemanticError.span here).symm

/-- Spans nest and can be printed.  Whether a text is read without errors or not, each node starts where
a token starts and ends where one ends, and encloses what is right inside it in the order of the text.
All places that are reported are pieces of the text.  And whatever is pointed at has a line that
starts before it; the text between is cut off at characters, and the column is its width. -/
theorem spans_nest_and_print (source : List Char) :
    (∀ span children, (Parser.ofText source).unit.NodeAt span children →
      span.Bounded (Token.scan source).tokens ∧ span.Encloses children) ∧
    (∀ d ∈ (Parser.ofText source).diagnostics, ∀ span ∈ d.spans, span.Readable source) ∧
    ∀ (span : Span) (tabSize : UInt32), PointedAt source span →
      ∃ start before,
        (LineMap.ofText source tabSize).starts[(LineMap.ofText source tabSize).lineOf span.start - 1]? =
          some start ∧
        Text.slice? start span.start source = some before ∧
        (LineMap.ofText source tabSize).position? span.start =
          if (LineMap.ofText source tabSize).lineOf span.start ≤ LineMap.countLimit ∧
              (LineMap.ofText source tabSize).width before + 1 ≤ LineMap.countLimit then
            some ⟨(LineMap.ofText source tabSize).lineOf span.start,
              (LineMap.ofText source tabSize).width before + 1⟩
          else none := by
  refine ⟨fun span children node => ?_, fun d mem => Parser.ofText_diagnostics source mem,
    fun span tabSize pointed => ?_⟩
  · obtain ⟨bounded, _, encloses⟩ := Parser.ofText_nodes source node
    exact ⟨bounded, encloses⟩
  · exact LineMap.position?_of_cuts tabSize pointed.readable.cuts.1

/-- A class whose superclass is unknown, behind a comment and a tab and before a stray letter. -/
def accented : List Char := "/* \u00e9 */\tclass B : A \x7b\x7d \u00e9".toList

/-- Where the errors point that a unit is rejected with. -/
def blamed : Except AnalysisError Analysis → List Span
  | .error (.rejected _ errors) => errors.map (·.span)
  | _ => []

theorem spans_nest_and_print_accented : PointedAt accented ⟨19, 20⟩ ∧
    ∃ start before, Text.slice? start 19 accented = some before := by
  have pointed : PointedAt accented ⟨19, 20⟩ := by
    have spans : blamed (analyzeUntil (Parser.ofText accented).unit .resolveReferences) = [⟨19, 20⟩] := by
      decide +kernel
    cases result : analyzeUntil (Parser.ofText accented).unit .resolveReferences with
    | ok a =>
      rw [result] at spans
      cases spans
    | error e =>
      rw [result] at spans
      cases e with
      | internal e => cases spans
      | rejected phase errors =>
        have spans : errors.map (·.span) = [⟨19, 20⟩] := spans
        have mem : (⟨19, 20⟩ : Span) ∈ errors.map (·.span) := spans ▸ List.mem_singleton_self _
        obtain ⟨e, listed, same⟩ := List.mem_map.mp mem
        exact same ▸ .error result listed
  obtain ⟨start, before, _, cut, _⟩ := (spans_nest_and_print accented).2.2 _ 4 pointed
  exact ⟨pointed, start, before, cut⟩

end BlFront
