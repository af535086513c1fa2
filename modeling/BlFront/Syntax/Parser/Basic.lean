import BlFront.Diagnostic
import BlFront.Syntax.Basic

/-!
# Reading tokens

A parse function takes the tokens it needs from the front of the rest.  It may fail, and
then it has reported why; what it consumed and reported before stays so.
-/

namespace BlFront.Parser

structure State where
  /-- The tokens to come; the end of the text is not among them. -/
  rest : List Token
  /-- The token that stands for the end of the text. -/
  last : Token
  /-- The token that was consumed last; before that, the first one. -/
  previous : Token
  nextId : Nat
  /-- The identities given out, the latest first, each with the tokens that were to come then. -/
  drawn : List (NodeId × List Token)
  diagnostics : List Diagnostic
  /-- Whether a recursion or a loop has come to the end of its bound. -/
  exhausted : Bool

namespace State

/-- The first token that ends the text; if the last token does not, one behind it does. -/
def lastToken (tokens : List Token) : Token :=
  match tokens.find? (·.kind == .eof) with
  | some token => token
  | none => .eofAt ((tokens.getLast?.map (·.span.stop)).getD 0)

/-- The state before the first token.  What follows the end of the text is never read. -/
def ofTokens (tokens : List Token) : State :=
  let last := lastToken tokens
  { rest := tokens.takeWhile (·.kind != .eof)
    last := last
    previous := (tokens.head?).getD last
    nextId := 0
    drawn := []
    diagnostics := []
    exhausted := false }

def current (s : State) : Token := s.rest.head?.getD s.last

/-- The state when the next identity is given out. -/
def draw (s : State) : State :=
  { s with nextId := s.nextId + 1, drawn := (⟨s.nextId⟩, s.rest) :: s.drawn }

end State

/-- A parse function: a value or none, and the state behind it in both cases. -/
def Parse (α : Type) : Type := State → Option α × State

namespace Parse

instance : Monad Parse where
  pure a := fun s => (some a, s)
  bind p f := fun s => match p s with
    | (some a, s') => f a s'
    | (none, s') => (none, s')

@[simp] theorem pure_apply (a : α) (s : State) : (pure a : Parse α) s = (some a, s) := rfl

@[simp] theorem bind_apply (p : Parse α) (f : α → Parse β) (s : State) :
    (p >>= f) s = match p s with
      | (some a, s') => f a s'
      | (none, s') => (none, s') := rfl

def stop : Parse α := fun s => (none, s)

/-- The end of a bound, which is no failure to read something: the state keeps it for good. -/
def exhaust : Parse α := fun s => (none, { s with exhausted := true })

def attempt (p : Parse α) : Parse (Option α) := fun s =>
  let (a, s') := p s
  (some a, s')

/-- A parse function that is given one more than the number of tokens to come. -/
def sized (p : Nat → Parse α) : Parse α := fun s => p (s.rest.length + 1) s

end Parse

def current : Parse Token := fun s => (some s.current, s)

def peek : Parse TokenKind := fun s => (some s.current.kind, s)

def currentSpan : Parse Span := fun s => (some s.current.span, s)

def previous : Parse Token := fun s => (some s.previous, s)

def previousSpan : Parse Span := fun s => (some s.previous.span, s)

/-- Consumes one token.  At the end of the text it stays there. -/
def advance : Parse Token := fun s => match s.rest with
  | [] => (some s.previous, s)
  | token :: rest => (some token, { s with rest := rest, previous := token })

def report (d : Diagnostic) : Parse Unit := fun s =>
  (some (), { s with diagnostics := s.diagnostics ++ [d] })

def freshId : Parse NodeId := fun s => (some ⟨s.nextId⟩, s.draw)

def freshTag (span : Span) : Parse Tag := do return ⟨← freshId, span⟩

def unexpected (expected : String) (found : Token) : Diagnostic :=
  .errorAt ("expected " ++ expected ++ ", found " ++ found.kind.describe) found.span

def refuse (expected : String) : Parse α := do
  report (unexpected expected (← current))
  .stop

/-- What is said where a token is missing.  A missing semicolon belongs behind the token before. -/
def missing (kind : TokenKind) (found : Token) (before : Span) : Diagnostic :=
  let d := unexpected kind.describe found
  if kind = .semicolon then
    { d with
      related := [⟨.point before.stop, "statement ends here"⟩]
      suggestion := some "add ';' after the statement" }
  else d

def expect (kind : TokenKind) : Parse Token := do
  if (← peek) = kind then advance
  else
    report (missing kind (← current) (← previousSpan))
    .stop

def expectName : Parse Ident := do
  let token ← expect .identifier
  return ⟨token.lexeme, token.span⟩

def eat (kind : TokenKind) : Parse Bool := do
  if (← peek) = kind then
    let _ ← advance
    return true
  else return false

def spanFrom (start : Span) : Parse Span := do return start.merge (← previousSpan)

/-! ### Recovery -/

/-- The tokens with which a statement starts, and the end of a block. -/
def isBoundary : TokenKind → Bool
  | .kwFun | .kwVar | .kwStruct | .kwClass | .kwIf | .kwWhile | .kwReturn | .rightBrace => true
  | _ => false

/-- Skips to the next boundary, or past the next semicolon; `behind` is the token consumed last. -/
def skipToBoundary (behind : Token) : List Token → Token × List Token
  | [] => (behind, [])
  | token :: rest =>
    if behind.kind = .semicolon ∨ isBoundary token.kind = true then (behind, token :: rest)
    else skipToBoundary token rest

/-- Skips at least one token and then to where a statement may start. -/
def synchronize : Parse Unit := fun s => match s.rest with
  | [] => (some (), s)
  | token :: rest =>
    let (previous, rest) := skipToBoundary token rest
    (some (), { s with previous := previous, rest := rest })

/-! ### Lists -/

def commaSeparated (item : Parse α) : Nat → Parse (List α)
  | 0 => .exhaust
  | fuel + 1 => do
      let x ← item
      if ← eat .comma then return x :: (← commaSeparated item fuel)
      else return [x]

/-- Items up to a closing token, which is consumed; there may be none. -/
def listUntil (close : TokenKind) (item : Parse α) : Parse (List α) := do
  let items ← if (← peek) = close then pure [] else .sized (commaSeparated item)
  let _ ← expect close
  return items

end BlFront.Parser
