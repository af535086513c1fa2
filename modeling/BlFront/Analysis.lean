import BlFront.Analysis.Checks
import BlFront.Analysis.Inferred
import BlFront.Analysis.Names
import BlFront.Analysis.Returns
import BlFront.Analysis.Types
import BlFront.Phase

/-!
# Analysis

The phases share one reactor.  A phase that leaves errors ends the analysis with all of its
errors, and no later phase runs.
-/

namespace BlFront

/-- A unit that passed, with all that is known about it. -/
structure Analysis where
  unit : CompilationUnit
  symbols : SymbolTable
  reactor : Reactor

inductive AnalysisError where
  /-- The first phase that found errors, and these. -/
  | rejected (phase : Phase) (errors : List SemanticError)
  | internal (error : ReactorError)

namespace AnalysisError

def message : AnalysisError → String
  | .rejected phase errors =>
    phase.name ++ " rejected the program with " ++ toString errors.length ++ " error(s)"
  | .internal error => "internal analysis error: " ++ error.message

def diagnostics : AnalysisError → List Diagnostic
  | .rejected _ errors => errors.map (·.toDiagnostic)
  | .internal error => [⟨.error, error.message, none, [], none⟩]

end AnalysisError

namespace Analysis

def get? (a : Analysis) (owner : Owner) (name : AttrName) : Option Value :=
  a.reactor.get? (name.of owner)

def typeOf? (a : Analysis) (owner : Owner) : Option Ty := a.reactor.getAs? Kind.type (typeOf owner)

def symbolOf? (a : Analysis) (node : NodeId) : Option SymbolId :=
  a.reactor.getAs? Kind.symbol (AttrName.symbol.of node)

def scopeOf? (a : Analysis) (node : NodeId) : Option ScopeId :=
  a.reactor.getAs? Kind.scope (AttrName.scope.of node)

def summary (a : Analysis) : String :=
  "Analysis \x7b symbols: " ++ toString a.symbols.symbols.length ++ ", reactor: "
    ++ a.reactor.summary ++ " \x7d"

/-- Before the first phase only the types of the builtin symbols are known. -/
def start (unit : CompilationUnit) : Except ReactorError Analysis := do
  let seeds := SymbolTable.builtinTypes.map fun (symbol, type) =>
    Request.seed (typeOf symbol) (.type type)
  return ⟨unit, .initial, ← Reactor.empty.performRequests seeds⟩

/-- The table after a phase, and what the phase asks of the reactor. -/
def plan (a : Analysis) : Phase → SymbolTable × List Request
  | .resolveReferences => Names.plan a.unit a.symbols
  | .resolveTypes => (a.symbols, Types.plan a.unit a.symbols a.reactor)
  | .checkInferred => (a.symbols, Inferred.plan a.unit a.reactor)
  | .checkTypes => (a.symbols, Checks.plan a.unit a.symbols a.reactor)
  | .checkReturns => (a.symbols, Returns.plan a.unit a.reactor)

/-- Runs one phase, whatever errors it leaves. -/
def advance (a : Analysis) (phase : Phase) : Except ReactorError Analysis :=
  let (symbols, requests) := a.plan phase
  (a.reactor.runPass symbols requests).map fun reactor => { a with symbols, reactor }

/-- Runs one phase, which must leave no errors. -/
def step (a : Analysis) (phase : Phase) : Except AnalysisError Analysis :=
  match a.advance phase with
  | .error e => .error (.internal e)
  | .ok a =>
    if a.reactor.rootErrors.isEmpty then .ok a
    else .error (.rejected phase a.reactor.rootErrors)

end Analysis

def analyzeUntil (unit : CompilationUnit) (last : Phase) : Except AnalysisError Analysis :=
  match Analysis.start unit with
  | .error e => .error (.internal e)
  | .ok a => last.upTo.foldlM Analysis.step a

def analyze (unit : CompilationUnit) : Except AnalysisError Analysis :=
  analyzeUntil unit .checkReturns

end BlFront
