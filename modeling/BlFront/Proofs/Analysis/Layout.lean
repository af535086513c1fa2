import BlFront.Proofs.Analysis.Safety
import BlFront.Proofs.Analysis.Veil
import BlFront.Proofs.Syntax.Blindness

/-!
# Layout

Where the tokens of a text stand has no influence on anything but the places that results name.  The
parser reads bare tokens as it reads the tokens themselves, and all phases together say of a bare unit
what they say of the unit.  So two texts that are laid out differently have the same outcome.
-/

namespace BlFront

/-- Both analyses pass and have found the same, or both reject in one phase and for the same
reasons. -/
inductive SameOutcome : Except AnalysisError Analysis → Except AnalysisError Analysis → Prop
  | passed {a b : Analysis} (values : a.reactor.values = b.reactor.values)
      (symbols : a.symbols.bare = b.symbols.bare) : SameOutcome (.ok a) (.ok b)
  | rejected {phase : Phase} {errors errors' : List SemanticError}
      (messages : errors.map (·.message) = errors'.map (·.message)) :
      SameOutcome (.error (.rejected phase errors)) (.error (.rejected phase errors'))

theorem sameOutcome_of_veiledOutcome {x y : Except AnalysisError Analysis}
    (same : Analysis.veiledOutcome .dense x = Analysis.veiledOutcome .dense y)
    (sound : ∀ e, x ≠ .error (.internal e)) : SameOutcome x y := by
  rcases x with e | a
  · cases e with
    | internal error => exact absurd rfl (sound error)
    | rejected phase errors =>
      rcases y with e' | b
      · cases e' with
        | internal error => cases same
        | rejected phase' errors' =>
          obtain ⟨rfl, places⟩ := AnalysisError.rejected.inj (Except.error.inj same)
          refine .rejected ?_
          have messages := congrArg (List.map (·.message)) places
          rwa [List.map_map, List.map_map] at messages
      · cases same
  · rcases y with e' | b
    · cases same
    · have found : a.veiled .dense = b.veiled .dense := Except.ok.inj same
      exact .passed (congrArg (·.reactor.values) found) (congrArg (·.symbols) found)

/-- Lists of tokens that differ in nothing but places are read as units that differ in nothing but
places, with the same reports; and whichever phase is the last, both units pass with the same values
and symbols, or both are rejected by one phase with the same messages. -/
theorem layout_never_matters {tokens tokens' : List Token}
    (same : tokens.map (fun t => (t.kind, t.lexeme)) = tokens'.map fun t => (t.kind, t.lexeme)) :
    (Parser.ofTokens tokens).unit.bare = (Parser.ofTokens tokens').unit.bare ∧
      (Parser.ofTokens tokens).diagnostics.map Diagnostic.bare =
        (Parser.ofTokens tokens').diagnostics.map Diagnostic.bare ∧
      ∀ last, SameOutcome (analyzeUntil (Parser.ofTokens tokens).unit last)
        (analyzeUntil (Parser.ofTokens tokens').unit last) := by
  have bares : tokens.map Token.bare = tokens'.map Token.bare := by
    have rebuilt := congrArg (List.map fun p => Token.mk p.1 p.2 .dummy) same
    rwa [List.map_map, List.map_map] at rebuilt
  have parsed : (⟨(Parser.ofTokens tokens).unit.bare,
        (Parser.ofTokens tokens).diagnostics.map Diagnostic.bare⟩ : Parser.Parsed) =
      ⟨(Parser.ofTokens tokens').unit.bare,
        (Parser.ofTokens tokens').diagnostics.map Diagnostic.bare⟩ := by
    rw [← Parser.ofTokens_bare, ← Parser.ofTokens_bare, bares]
  obtain ⟨units, reports⟩ := Parser.Parsed.mk.inj parsed
  -- Both outcomes are, without places, the outcome of the one bare unit.
  refine ⟨units, reports, fun last => sameOutcome_of_veiledOutcome ?_ ?_⟩
  · rw [← analyzeUntil_veiled, ← analyzeUntil_veiled]
    exact congrArg (analyzeUntil · last) units
  · exact analyzeUntil_ne_internal_of_wellNumbered (Parser.ofTokens_wellNumbered tokens) last

/-- The tokens of a function on one line. -/
def onOneLine : List Token :=
  (Token.scan "fun f(n: Int) -> Int \x7b if (n < 1) \x7b return n; \x7d \x7d".toList).tokens

/-- The same tokens on many lines, with a comment between them. -/
def onManyLines : List Token :=
  (Token.scan ("fun f(n: Int)\n    -> Int // a comment\n\x7b\n  if (n < 1)\n  \x7b\n    return n;\n" ++
    "  \x7d\n\x7d\n").toList).tokens

theorem layout_never_matters_on_many_lines :
    onOneLine ≠ onManyLines ∧
      (analyzeUntil (Parser.ofTokens onOneLine).unit .checkTypes).isOk = true ∧
      (analyze (Parser.ofTokens onOneLine).unit).isOk = false ∧
      onOneLine.map (fun t => (t.kind, t.lexeme)) = onManyLines.map (fun t => (t.kind, t.lexeme)) ∧
      ∀ last, SameOutcome (analyzeUntil (Parser.ofTokens onOneLine).unit last)
        (analyzeUntil (Parser.ofTokens onManyLines).unit last) := by
  have same : onOneLine.map (fun t => (t.kind, t.lexeme)) =
      onManyLines.map fun t => (t.kind, t.lexeme) := by
    decide +kernel
  exact ⟨by decide +kernel, by decide +kernel, by decide +kernel, same,
    (layout_never_matters same).2.2⟩

end BlFront
