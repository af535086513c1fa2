import BlFront.Diagnostic
import BlFront.Text.Quoted

/-!
# Data exchange

Diagnostics as data, laid out with one entry a line and two blanks for each level.
-/

namespace BlFront.Output

inductive Json where
  | null
  | number (n : Nat)
  | string (text : String)
  | array (elements : List Json)
  | object (entries : List (String × Json))

namespace Json

def indent (depth : Nat) : String := String.ofList (List.replicate (2 * depth) ' ')

/-- Entries on lines of their own between brackets; without entries nothing is between. -/
def bracket (opening closing : String) (depth : Nat) (entries : List String) : String :=
  if entries.isEmpty then opening ++ closing
  else opening ++ "\n" ++ ",\n".intercalate (entries.map (indent (depth + 1) ++ ·))
    ++ "\n" ++ indent depth ++ closing

mutual

def pretty (depth : Nat) : Json → String
  | .null => "null"
  | .number n => toString n
  | .string text => Text.quoteJson text
  | .array elements => bracket "[" "]" depth (prettyAll (depth + 1) elements)
  | .object entries => bracket "\x7b" "\x7d" depth (prettyEntries (depth + 1) entries)

def prettyAll (depth : Nat) : List Json → List String
  | [] => []
  | j :: js => pretty depth j :: prettyAll depth js

def prettyEntries (depth : Nat) : List (String × Json) → List String
  | [] => []
  | (key, j) :: entries =>
    (Text.quoteJson key ++ ": " ++ pretty depth j) :: prettyEntries depth entries

end

def ofSpan (s : Span) : Json := .object [("start", .number s.start), ("end", .number s.stop)]

def ofRelated (r : Related) : Json :=
  .object [("span", ofSpan r.span), ("message", .string r.message)]

/-- A diagnostic and the position at which it starts; `none` if it starts at no position.
Related places and a suggestion are left out where there are none. -/
def ofDiagnostic? (lines : LineMap) (d : Diagnostic) : Option Json := do
  let position ← match d.span with
    | some span => (lines.position? span.start).map some
    | none => some none
  return .object <|
    [("severity", .string d.severity.name), ("message", .string d.message),
     ("span", (d.span.map ofSpan).getD .null)]
    ++ (if d.related.isEmpty then [] else [("related", .array (d.related.map ofRelated))])
    ++ (d.suggestion.map fun s => ("suggestion", .string s)).toList
    ++ [("line", (position.map fun p => Json.number p.line).getD .null),
        ("column", (position.map fun p => Json.number p.column).getD .null)]

end Json

/-- Diagnostics as data; `none` if one of them starts at no position. -/
def diagnosticsText? (lines : LineMap) (ds : List Diagnostic) : Option String :=
  (ds.mapM (Json.ofDiagnostic? lines)).map fun entries => Json.pretty 0 (.array entries)

end BlFront.Output
