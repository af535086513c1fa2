import BlFront.Diagnostic
import BlFront.Text.Blank
import BlFront.Token.Basic
import BlFront.Token.Cursor

/-!
# From text to tokens

Between two tokens stands a gap of white space and comments.  A scan alternates between
skipping a gap and cutting one token off the rest; each token is at least one character
long, so the scan ends.
-/

namespace BlFront.Token

/-! ### Gaps -/

/-- Where a gap is: between its parts, in a line comment, or in a block comment that starts
at an offset. -/
inductive GapMode where
  | plain
  | line
  | block (start : Nat)

structure Gap where
  text : List Char
  rest : List Char
  /-- The start of a block comment that the end of the text leaves open. -/
  unclosed : Option Nat

def Gap.cons (c : Char) (g : Gap) : Gap := { g with text := c :: g.text }

/-- The longest gap that a text at an offset starts with.  Block comments do not nest. -/
def gap : GapMode → Nat → List Char → Gap
  | .plain, _, [] => ⟨[], [], none⟩
  | .plain, offset, '/' :: '/' :: cs => ((gap .line (offset + 2) cs).cons '/').cons '/'
  | .plain, offset, '/' :: '*' :: cs => ((gap (.block offset) (offset + 2) cs).cons '*').cons '/'
  | .plain, offset, c :: cs =>
    if Text.isBlank c then (gap .plain (offset + c.utf8Size) cs).cons c else ⟨[], c :: cs, none⟩
  | .line, _, [] => ⟨[], [], none⟩
  | .line, offset, c :: cs =>
    (gap (if c = '\n' then .plain else .line) (offset + c.utf8Size) cs).cons c
  | .block start, _, [] => ⟨[], [], some start⟩
  | .block _, offset, '*' :: '/' :: cs => ((gap .plain (offset + 2) cs).cons '/').cons '*'
  | .block start, offset, c :: cs => (gap (.block start) (offset + c.utf8Size) cs).cons c

theorem gap_append (mode : GapMode) (offset : Nat) (cs : List Char) :
    (gap mode offset cs).text ++ (gap mode offset cs).rest = cs := by
  fun_induction gap mode offset cs <;> simp_all [Gap.cons]

/-! ### Pieces -/

/-- A complaint about the first `length` bytes of a piece. -/
structure Problem where
  length : Nat
  message : String

structure Piece where
  kind : TokenKind
  lexeme : List Char
  text : List Char
  rest : List Char
  problems : List Problem

def Piece.plain (kind : TokenKind) (text rest : List Char) : Piece := ⟨kind, text, text, rest, []⟩

def unescape? : Char → Option Char
  | 'n' => some '\n'
  | 't' => some '\t'
  | 'r' => some '\r'
  | '\\' => some '\\'
  | '"' => some '"'
  | '0' => some '\x00'
  | _ => none

def Piece.precede (value : Char) (text : List Char) (problems : List Problem) (p : Piece) : Piece :=
  ⟨p.kind, value :: p.lexeme, text ++ p.text, p.rest, problems ++ p.problems⟩

/-- The end of a string literal without a closing quote, `length` bytes behind its start. -/
def unterminated (length : Nat) (text rest : List Char) : Piece :=
  ⟨.stringLiteral, [], text, rest, [⟨length, "unterminated string literal"⟩]⟩

/-- The rest of a string literal, of which `length` bytes are read.  A line feed or the end
of the text ends it too, with a complaint; an unknown escape stands for its character. -/
def stringTail (length : Nat) : List Char → Piece
  | [] => unterminated length [] []
  | ['\\'] => unterminated (length + 1) ['\\'] []
  | '\\' :: c :: cs =>
    let read := length + 1 + c.utf8Size
    match unescape? c with
    | some x => (stringTail read cs).precede x ['\\', c] []
    | none => (stringTail read cs).precede c ['\\', c]
        [⟨read, "unknown escape sequence '\\" ++ c.toString ++ "'"⟩]
  | c :: cs =>
    if c = '"' then ⟨.stringLiteral, [], [c], cs, []⟩
    else if c = '\n' then unterminated (length + 1) [c] cs
    else (stringTail (length + c.utf8Size) cs).precede c [c] []

theorem stringTail_append (length : Nat) (cs : List Char) :
    (stringTail length cs).text ++ (stringTail length cs).rest = cs := by
  fun_induction stringTail length cs <;> simp_all [Piece.precede, unterminated]

def isDigit (c : Char) : Bool := decide ('0' ≤ c ∧ c ≤ '9')

/-- Digits may be grouped by underscores. -/
def isNumberPart (c : Char) : Bool := isDigit c || c == '_'

def isNameStart (c : Char) : Bool :=
  decide ('a' ≤ c ∧ c ≤ 'z') || decide ('A' ≤ c ∧ c ≤ 'Z') || c == '_'

def isNamePart (c : Char) : Bool := isNameStart c || isDigit c

/-- A number that starts with the digit `c`.  A point belongs to it only before a digit, so
that a field of an indexed value can be selected. -/
def number (c : Char) (cs : List Char) : Piece :=
  let whole := c :: cs.takeWhile isNumberPart
  let rest := cs.dropWhile isNumberPart
  match rest with
  | '.' :: d :: ds =>
    if isDigit d then
      .plain .floatLiteral (whole ++ '.' :: (d :: ds).takeWhile isNumberPart)
        ((d :: ds).dropWhile isNumberPart)
    else .plain .intLiteral whole rest
  | _ => .plain .intLiteral whole rest

def word (c : Char) (cs : List Char) : Piece :=
  let text := c :: cs.takeWhile isNamePart
  let kind := (TokenKind.ofKeyword? (String.ofList text)).getD .identifier
  .plain kind text (cs.dropWhile isNamePart)

def pair? : Char → Char → Option TokenKind
  | '-', '>' => some .arrow
  | '=', '=' => some .equalEqual
  | '!', '=' => some .bangEqual
  | '<', '=' => some .lessEqual
  | '>', '=' => some .greaterEqual
  | '&', '&' => some .ampAmp
  | '|', '|' => some .pipePipe
  | _, _ => none

def single? : Char → Option TokenKind
  | '(' => some .leftParen
  | ')' => some .rightParen
  | '{' => some .leftBrace
  | '}' => some .rightBrace
  | '[' => some .leftBracket
  | ']' => some .rightBracket
  | ',' => some .comma
  | ';' => some .semicolon
  | ':' => some .colon
  | '.' => some .dot
  | '+' => some .plus
  | '-' => some .minus
  | '*' => some .star
  | '/' => some .slash
  | '%' => some .percent
  | '=' => some .equal
  | '!' => some .bang
  | '<' => some .less
  | '>' => some .greater
  | _ => none

/-- The tokens of which one half is taken for the whole, with a complaint. -/
def half? : Char → Option (TokenKind × String)
  | '&' => some (.ampAmp, "unexpected character '&'; did you mean '&&'?")
  | '|' => some (.pipePipe, "unexpected character '|'; did you mean '||'?")
  | _ => none

/-- A token that starts with `c` and is no operator or delimiter. -/
def other (c : Char) (cs : List Char) : Piece :=
  if c = '"' then
    let tail := stringTail 1 cs
    { tail with text := c :: tail.text }
  else if isDigit c then number c cs
  else if isNameStart c then word c cs
  else ⟨.invalid, [c], [c], cs, [⟨c.utf8Size, "unexpected character '" ++ c.toString ++ "'"⟩]⟩

/-- The token that starts with `c`, one character long, or longer. -/
def oneOrMore (c : Char) (cs : List Char) : Piece :=
  match single? c, half? c with
  | some kind, _ => .plain kind [c] cs
  | none, some (kind, message) => ⟨kind, [c], [c], cs, [⟨c.utf8Size, message⟩]⟩
  | none, none => other c cs

def piece (c : Char) : List Char → Piece
  | [] => oneOrMore c []
  | d :: ds => match pair? c d with
      | some kind => .plain kind [c, d] ds
      | none => oneOrMore c (d :: ds)

theorem number_append (c : Char) (cs : List Char) :
    (number c cs).text ++ (number c cs).rest = c :: cs := by
  unfold number
  simp only
  split
  · next d ds h =>
    have := List.takeWhile_append_dropWhile (p := isNumberPart) (l := cs)
    split
    · simp only [Piece.plain, List.cons_append, List.append_assoc,
        List.takeWhile_append_dropWhile]
      rw [← h, this]
    · simp [Piece.plain]
  · simp [Piece.plain]

theorem word_append (c : Char) (cs : List Char) :
    (word c cs).text ++ (word c cs).rest = c :: cs := by
  simp [word, Piece.plain]

theorem other_append (c : Char) (cs : List Char) :
    (other c cs).text ++ (other c cs).rest = c :: cs := by
  unfold other
  split
  · simp [stringTail_append]
  · split
    · exact number_append c cs
    · split
      · exact word_append c cs
      · rfl

theorem oneOrMore_append (c : Char) (cs : List Char) :
    (oneOrMore c cs).text ++ (oneOrMore c cs).rest = c :: cs := by
  unfold oneOrMore
  split
  · rfl
  · rfl
  · exact other_append c cs

theorem piece_append (c : Char) (cs : List Char) :
    (piece c cs).text ++ (piece c cs).rest = c :: cs := by
  cases cs with
  | nil => exact oneOrMore_append c []
  | cons d ds =>
    unfold piece
    simp only
    split
    · rfl
    · exact oneOrMore_append c (d :: ds)

theorem other_text_ne_nil (c : Char) (cs : List Char) : (other c cs).text ≠ [] := by
  unfold other
  split
  · simp
  · split
    · unfold number
      simp only
      split
      · split <;> simp [Piece.plain]
      · simp [Piece.plain]
    · split <;> simp [word, Piece.plain]

theorem piece_text_ne_nil (c : Char) (cs : List Char) : (piece c cs).text ≠ [] := by
  have one : ∀ cs, (oneOrMore c cs).text ≠ [] := by
    intro cs
    unfold oneOrMore
    split
    · simp [Piece.plain]
    · simp
    · exact other_text_ne_nil c cs
  cases cs with
  | nil => exact one []
  | cons d ds =>
    unfold piece
    simp only
    split
    · simp [Piece.plain]
    · exact one (d :: ds)

/-! ### Scans -/

structure Scan where
  tokens : List Token
  diagnostics : List Diagnostic

def unclosedComment (unclosed : Option Nat) (stop : Nat) : List Diagnostic :=
  unclosed.toList.map fun start => .errorAt "unterminated block comment" ⟨start, stop⟩

/-- The tokens from a cursor on, closed by one token for the end of the text. -/
def scanFrom (cursor : Cursor) : Scan :=
  let skipped := gap .plain cursor.offset cursor.rest
  let before := cursor.past skipped.text skipped.rest
  let unclosed := unclosedComment skipped.unclosed before.offset
  match h : skipped.rest with
  | [] => ⟨[eofAt before.offset], unclosed⟩
  | c :: cs =>
    let cut := piece c cs
    let behind := before.past cut.text cut.rest
    let token := ⟨cut.kind, String.ofList cut.lexeme, behind.spanFrom before.offset⟩
    let problems := cut.problems.map fun p =>
      .errorAt p.message ⟨before.offset, before.offset + p.length⟩
    let later := scanFrom behind
    ⟨token :: later.tokens, unclosed ++ problems ++ later.diagnostics⟩
termination_by cursor.rest.length
decreasing_by
  have hg := congrArg List.length (gap_append .plain cursor.offset cursor.rest)
  have hp := congrArg List.length (piece_append c cs)
  have hn := List.length_pos_iff.mpr (piece_text_ne_nil c cs)
  simp only [List.length_append, List.length_cons] at hg hp
  have hr : (gap .plain cursor.offset cursor.rest).rest.length = cs.length + 1 := by
    rw [h]; rfl
  simp only [Cursor.past]
  omega

def scan (source : List Char) : Scan := scanFrom (.ofText source)

end BlFront.Token
