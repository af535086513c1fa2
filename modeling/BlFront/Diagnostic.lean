import BlFront.LineMap

/-!
# Diagnostics

A diagnostic is a message about a source text: how bad it is, where it is, what else has
to do with it, and what may help.
-/

namespace BlFront

inductive Severity where
  | error
  | warning
  deriving DecidableEq, Repr

def Severity.name : Severity → String
  | .error => "error"
  | .warning => "warning"

structure Related where
  span : Span
  message : String
  deriving DecidableEq, Repr

structure Diagnostic where
  severity : Severity
  message : String
  span : Option Span
  related : List Related
  suggestion : Option String
  deriving DecidableEq, Repr

namespace Diagnostic

def errorAt (message : String) (span : Span) : Diagnostic :=
  ⟨.error, message, some span, [], none⟩

def warningAt (message : String) (span : Span) : Diagnostic :=
  ⟨.warning, message, some span, [], none⟩

def isError (d : Diagnostic) : Bool := d.severity == .error

def headline (d : Diagnostic) : String := d.severity.name ++ ": " ++ d.message

/-- The text for a reader without the source: the place is a byte range. -/
instance : ToString Diagnostic where
  toString d := match d.span with
    | some span => d.headline ++ "\n  --> " ++ toString span
    | none => d.headline

/-- The text for a reader with the source; `none` if a span starts at no position. -/
def render? (d : Diagnostic) (lines : LineMap) (file : String) : Option String := do
  let place ← match d.span with
    | some span => (lines.describe? file span).map ("\n  --> " ++ ·)
    | none => some ""
  let notes ← d.related.mapM fun r =>
    (lines.describe? file r.span).map fun there => "\n  note: " ++ r.message ++ " at " ++ there
  let help := match d.suggestion with
    | some s => "\n   = help: " ++ s
    | none => ""
  return d.headline ++ place ++ String.join notes ++ help

end Diagnostic

def hasErrors (ds : List Diagnostic) : Bool := ds.any Diagnostic.isError

end BlFront
