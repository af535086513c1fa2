import BlFront.Analysis.Progress
import BlFront.Command.Arguments
import BlFront.Log.Filter
import BlFront.Manifest
import BlFront.Output.Json
import BlFront.Syntax.Outline
import BlFront.Syntax.Parser.Stmt

/-!
# The command

One run of the command on a tree of files: it reads a source file, looks for the manifest
of its project, and takes the source through tokens, syntax and analysis as far as the flags
ask for.
-/

namespace BlFront.Command

structure Outcome where
  exitCode : Nat
  stdout : String
  stderr : String
  deriving DecidableEq, Repr

namespace Outcome

def success (stdout : String) : Outcome := ⟨0, stdout, ""⟩

/-- A run that cannot go on, with what it had written by then. -/
def brokenOff (stdout reason : String) : Outcome := ⟨101, stdout, "error: " ++ reason ++ "\n"⟩

def ofText? (exitCode : Nat) (reason : String) : Option String → Outcome
  | some text => ⟨exitCode, text, ""⟩
  | none => brokenOff "" reason

def after (o : Outcome) (stderr : String) : Outcome := { o with stderr := stderr ++ o.stderr }

end Outcome

def unlines (lines : List String) : String := String.join (lines.map (· ++ "\n"))

structure Session where
  flags : List Flag
  input : String
  fileName : String
  source : List Char
  lines : LineMap
  stopAfter : Phase
  filter : Log.Filter

namespace Session

def has (s : Session) (flag : Flag) : Bool := s.flags.contains flag

/-! ### Reports -/

def report (s : Session) (ds : List Diagnostic) : String :=
  unlines (ds.map fun d => (d.render? s.lines s.fileName).getD d.headline ++ "\n")

def noPosition : String := "a column does not fit 32 bits"

def exchange (s : Session) (exitCode : Nat) (ds : List Diagnostic) : Outcome :=
  .ofText? exitCode noPosition ((Output.diagnosticsText? s.lines ds).map (· ++ "\n"))

def fail (s : Session) (ds : List Diagnostic) : Outcome :=
  if s.has .json then s.exchange 1 ds else ⟨1, "", s.report ds⟩

def log (s : Session) (events : List Log.Event) : String :=
  unlines ((events.filter s.filter.shows).map (·.text))

/-! ### Listings -/

def padLeft (width : Nat) (text : String) : String :=
  String.ofList (List.replicate (width - text.length) ' ') ++ text

def padRight (width : Nat) (text : String) : String :=
  text ++ String.ofList (List.replicate (width - text.length) ' ')

def tokenLine? (s : Session) (t : Token) : Option String := do
  let p ← s.lines.position? t.span.start
  return padLeft 4 (toString p.line) ++ ":" ++ padRight 3 (toString p.column) ++ " "
    ++ t.kind.name ++ " " ++ Text.quote t.lexeme

def typeLine? (s : Session) (a : Analysis) (id : SymbolId) (span : Span) : Option String := do
  let p ← s.lines.position? span.start
  return toString p ++ " " ++ a.symbols.qualifiedName id "_" ++ " : "
    ++ ((a.typeOf? id).map toString).getD "?"

/-- Lines, written up to the first that cannot be, and a closing text behind all of them. -/
def listing (lines : List (Option String)) (closing : String) : Outcome :=
  let written := unlines ((lines.takeWhile Option.isSome).filterMap id)
  if lines.all Option.isSome then .success (written ++ closing)
  else .brokenOff written noPosition

def declarations (a : Analysis) : List (SymbolId × Span) :=
  a.symbols.entries.filterMap fun (id, symbol) => symbol.span.map (id, ·)

def summaryLine (s : Session) (a : Analysis) : String :=
  let ending :=
    if s.stopAfter = .checkReturns then "" else " (stopped after " ++ s.stopAfter.name ++ ")"
  "Analyzed " ++ s.input ++ ": " ++ toString (declarations a).length ++ " declarations, "
    ++ toString a.reactor.values.length ++ " attributes" ++ ending

/-! ### Stages -/

def present (s : Session) (warnings : List Diagnostic) (a : Analysis) : Outcome :=
  if s.has .json then s.exchange 0 warnings
  else if s.has .emitTypes then
    listing ((declarations a).map fun (id, span) => s.typeLine? a id span) ""
  else if s.has .check then .success "No errors found.\n"
  else .success (s.summaryLine a ++ "\n")

def analysisStage (s : Session) (unit : CompilationUnit) (warnings : List Diagnostic) : Outcome :=
  let (events, result) := watchUntil unit s.stopAfter
  let outcome : Outcome := match result with
    | .ok a => s.present warnings a
    | .error e => s.fail e.diagnostics
  outcome.after (s.log events)

def syntaxStage (s : Session) (tokens : List Token) : Outcome :=
  let parsed := Parser.ofTokens tokens
  if hasErrors parsed.diagnostics then s.fail parsed.diagnostics
  else
    let warnings := parsed.diagnostics.filter fun d => !d.isError
    let outcome : Outcome :=
      if s.has .emitAst then .success ((Outline.ofUnit parsed.unit).text ++ "\n")
      else s.analysisStage parsed.unit warnings
    if s.has .quiet || s.has .json then outcome else outcome.after (s.report warnings)

def tokenStage (s : Session) : Outcome :=
  let scan := Token.scan s.source
  if hasErrors scan.diagnostics then s.fail scan.diagnostics
  else if s.has .emitTokens then
    let closing := if s.has .check then "\nNo lexer errors.\n" else ""
    listing (scan.tokens.map s.tokenLine?) closing
  else s.syntaxStage scan.tokens

end Session

/-! ### Runs -/

/-- The filter in a text, and a warning where the text has no meaning.  A text that cannot be
cut into names gives none. -/
def filterOf? (text : String) : Option (Log.Filter × String) :=
  match Log.Filter.parse text with
  | .ok filter => some (filter, "")
  | .error .meaningless =>
    some (.warnings, "warning: invalid log filter '" ++ text ++ "': invalid filter directive\n")
  | .error .splitCharacter => none

def manifestEvent : Option Manifest → Log.Event
  | some m => ⟨.debug, "blc", "loaded manifest", [("project", m.name), ("root", m.rootDir)]⟩
  | none => ⟨.debug, "blc", "no Blc.toml found, using defaults", []⟩

/-- A run on a source text, below a manifest if there is one. -/
def runSource (flags : List Flag) (input : String) (place : Path) (source : String)
    (manifest : Option Manifest) : Outcome :=
  let tabSize := (manifest.map (·.tabSize)).getD LineMap.defaultTabSize
  let filterText := (manifest.map (·.filter)).getD Manifest.defaultFilter
  match filterOf? filterText with
  | none => .brokenOff "" ("log filter '" ++ filterText ++ "' is cut inside a character")
  | some (filter, warning) =>
    let session : Session :=
      { flags := flags
        input := input
        fileName := place.getLast?.getD ""
        source := source.toList
        lines := .ofText source.toList tabSize
        stopAfter := (manifest.bind (·.stopAfter)).getD .checkReturns
        filter := filter }
    session.tokenStage.after (warning ++ session.log [manifestEvent manifest])

def runInput (files : FileTree) (flags : List Flag) (input : String) : Outcome :=
  match files.readText input with
  | .error fault => ⟨1, "", "error: could not read '" ++ input ++ "': " ++ fault.message ++ "\n"⟩
  | .ok (place, source) =>
    match Manifest.loadFor files place with
    | .ok manifest => runSource flags input place source (some manifest)
    | .error (.notFound _) => runSource flags input place source none
    | .error e => ⟨1, "", "error: " ++ e.message ++ "\n"⟩

def usage : String :=
  "Usage: blc [--check] [-q|--quiet] [--emit-tokens] [--emit-ast] [--emit-types] [--json] <INPUT>"

def versionText : String := "blc 0.1.0"

def run (files : FileTree) (words : List String) : Outcome :=
  match Request.ofWords words with
  | .ok .help => .success (usage ++ "\n")
  | .ok .version => .success (versionText ++ "\n")
  | .ok (.run flags input) => runInput files flags input
  | .error e => ⟨2, "", "error: " ++ e.message ++ "\n\n" ++ usage ++ "\n"⟩

end BlFront.Command
