import BlFront.Attribute
import BlFront.Diagnostic

/-!
# Errors of an analysis

A semantic error is a mistake in the analysed text.  A reactor error is a misuse of the
engine by those who register rules, and never the fault of a text.
-/

namespace BlFront

structure SemanticError where
  span : Span
  message : String
  deriving DecidableEq, Repr

namespace SemanticError

instance : ToString SemanticError where
  toString e := e.message ++ " at " ++ toString e.span

def toDiagnostic (e : SemanticError) : Diagnostic := .errorAt e.message e.span

end SemanticError

inductive ReactorError where
  | alreadyRunning
  | redefined (attr : Attribute)
  | missingExports (rule : String) (attributes : List Attribute)
  | undeclaredDependency (rule : String) (attr : Attribute)
  | undeclaredExport (rule : String) (attr : Attribute)
  | unexpectedValue (attr : Attribute) (expected : String)
  deriving DecidableEq, Repr

namespace ReactorError

def message : ReactorError → String
  | .alreadyRunning => "cannot pre-seed attributes while the reactor is running"
  | .redefined attr => "attempting to redefine " ++ toString attr
  | .missingExports rule attributes =>
    "rule '" ++ rule ++ "' did not export " ++ ", ".intercalate (attributes.map toString)
  | .undeclaredDependency rule attr =>
    "rule '" ++ rule ++ "' read undeclared dependency " ++ toString attr
  | .undeclaredExport rule attr =>
    "rule '" ++ rule ++ "' wrote undeclared export " ++ toString attr
  | .unexpectedValue attr expected => toString attr ++ " does not hold a " ++ expected

end ReactorError

end BlFront
