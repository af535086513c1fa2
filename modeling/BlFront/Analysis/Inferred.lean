import BlFront.Analysis.Request
import BlFront.Syntax.Tour

/-!
# Missing types

A type stays open if its rule never became ready, as in a function whose return type depends
on a call of itself.  Each open type is reported once: for a symbol where it is declared or
first used, else at the node.
-/

namespace BlFront.Inferred

/-- What is found so far: the symbols reported as open, and the requests. -/
structure Findings where
  reported : List SymbolId
  requests : List Request

def isOpen (r : Reactor) (owner : Owner) : Bool := (r.get? (typeOf owner)).isNone

def report (f : Findings) (span : Span) (what : String) : Findings :=
  { f with requests := f.requests ++ [.reject ⟨span, "unable to infer type for " ++ what⟩ []] }

/-- Reports a symbol that is open, unless that is done. -/
def expectSymbol (r : Reactor) (f : Findings) (symbol : SymbolId) (span : Span) (name : String) :
    Findings :=
  if f.reported.contains symbol then f
  else if isOpen r symbol then
    report { f with reported := symbol :: f.reported } span name
  else f

def expectDeclared (r : Reactor) (f : Findings) (tag : Tag) (name : String) : Findings :=
  let attr := AttrName.symbol.of tag.id
  match r.getAs? Kind.symbol attr with
  | some symbol => expectSymbol r f symbol tag.span name
  | none =>
    { f with requests := f.requests ++ [.abort (.unexpectedValue attr Kind.symbol.name)] }

def expectNode (r : Reactor) (f : Findings) (tag : Tag) (what : String) : Findings :=
  if isOpen r tag.id then report f tag.span what else f

/-- A use of an open symbol repeats the error of the symbol. -/
def expectUse (r : Reactor) (f : Findings) (tag : Tag) (name : String) : Findings :=
  match r.getAs? Kind.symbol (AttrName.symbol.of tag.id) with
  | some symbol =>
    if isOpen r symbol then expectSymbol r f symbol tag.span name else expectNode r f tag name
  | none => expectNode r f tag name

def inspect (r : Reactor) (f : Findings) : Part → Findings
  | .function decl => expectDeclared r f decl.tag decl.name
  | .structDecl decl => expectDeclared r f decl.tag decl.name
  | .classDecl decl => expectDeclared r f decl.tag decl.name
  | .varDecl decl => expectDeclared r f decl.tag decl.name
  | .expr (.reference tag name) _ => expectUse r f tag name
  | .expr (.array tag _) _ => expectNode r f tag "array literal"
  | .type (.named tag name) => expectUse r f tag name
  | _ => f

def plan (unit : CompilationUnit) (r : Reactor) : List Request :=
  (unit.entered.foldl (inspect r) ⟨[], []⟩).requests

end BlFront.Inferred
