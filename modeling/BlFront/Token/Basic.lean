import BlFront.Span

/-!
# Tokens

The words of the language: literals, identifiers, keywords, operators and delimiters.  A
token keeps its lexeme, which for a string literal is the value without quotes and escapes.
-/

namespace BlFront

inductive TokenKind where
  | intLiteral
  | floatLiteral
  | stringLiteral
  | identifier
  | kwFun
  | kwVar
  | kwStruct
  | kwClass
  | kwIf
  | kwElse
  | kwWhile
  | kwReturn
  | kwTrue
  | kwFalse
  | kwUnit
  | kwSelf
  | plus
  | minus
  | star
  | slash
  | percent
  | equalEqual
  | bangEqual
  | less
  | greater
  | lessEqual
  | greaterEqual
  | ampAmp
  | pipePipe
  | bang
  | equal
  | arrow
  | dot
  | leftParen
  | rightParen
  | leftBrace
  | rightBrace
  | leftBracket
  | rightBracket
  | comma
  | semicolon
  | colon
  | invalid
  | eof
  deriving DecidableEq, Repr, Inhabited

namespace TokenKind

def all : List TokenKind :=
  [.intLiteral, .floatLiteral, .stringLiteral, .identifier, .kwFun, .kwVar, .kwStruct,
   .kwClass, .kwIf, .kwElse, .kwWhile, .kwReturn, .kwTrue, .kwFalse, .kwUnit, .kwSelf,
   .plus, .minus, .star, .slash, .percent, .equalEqual, .bangEqual, .less, .greater,
   .lessEqual, .greaterEqual, .ampAmp, .pipePipe, .bang, .equal, .arrow, .dot,
   .leftParen, .rightParen, .leftBrace, .rightBrace, .leftBracket, .rightBracket,
   .comma, .semicolon, .colon, .invalid, .eof]

def name : TokenKind → String
  | .intLiteral => "IntLiteral"
  | .floatLiteral => "FloatLiteral"
  | .stringLiteral => "StringLiteral"
  | .identifier => "Identifier"
  | .kwFun => "Fun"
  | .kwVar => "Var"
  | .kwStruct => "Struct"
  | .kwClass => "Class"
  | .kwIf => "If"
  | .kwElse => "Else"
  | .kwWhile => "While"
  | .kwReturn => "Return"
  | .kwTrue => "True"
  | .kwFalse => "False"
  | .kwUnit => "Unit"
  | .kwSelf => "SelfKw"
  | .plus => "Plus"
  | .minus => "Minus"
  | .star => "Star"
  | .slash => "Slash"
  | .percent => "Percent"
  | .equalEqual => "EqualEqual"
  | .bangEqual => "BangEqual"
  | .less => "Less"
  | .greater => "Greater"
  | .lessEqual => "LessEqual"
  | .greaterEqual => "GreaterEqual"
  | .ampAmp => "AmpAmp"
  | .pipePipe => "PipePipe"
  | .bang => "Bang"
  | .equal => "Equal"
  | .arrow => "Arrow"
  | .dot => "Dot"
  | .leftParen => "LeftParen"
  | .rightParen => "RightParen"
  | .leftBrace => "LeftBrace"
  | .rightBrace => "RightBrace"
  | .leftBracket => "LeftBracket"
  | .rightBracket => "RightBracket"
  | .comma => "Comma"
  | .semicolon => "Semicolon"
  | .colon => "Colon"
  | .invalid => "Error"
  | .eof => "Eof"

/-- The words for a kind in messages of the parser. -/
def describe : TokenKind → String
  | .intLiteral => "integer literal"
  | .floatLiteral => "float literal"
  | .stringLiteral => "string literal"
  | .identifier => "identifier"
  | .kwFun => "'fun'"
  | .kwVar => "'var'"
  | .kwStruct => "'struct'"
  | .kwClass => "'class'"
  | .kwIf => "'if'"
  | .kwElse => "'else'"
  | .kwWhile => "'while'"
  | .kwReturn => "'return'"
  | .kwTrue => "'true'"
  | .kwFalse => "'false'"
  | .kwUnit => "'unit'"
  | .kwSelf => "'self'"
  | .plus => "'+'"
  | .minus => "'-'"
  | .star => "'*'"
  | .slash => "'/'"
  | .percent => "'%'"
  | .equalEqual => "'=='"
  | .bangEqual => "'!='"
  | .less => "'<'"
  | .greater => "'>'"
  | .lessEqual => "'<='"
  | .greaterEqual => "'>='"
  | .ampAmp => "'&&'"
  | .pipePipe => "'||'"
  | .bang => "'!'"
  | .equal => "'='"
  | .arrow => "'->'"
  | .dot => "'.'"
  | .leftParen => "'('"
  | .rightParen => "')'"
  | .leftBrace => "'\x7b'"
  | .rightBrace => "'\x7d'"
  | .leftBracket => "'['"
  | .rightBracket => "']'"
  | .comma => "','"
  | .semicolon => "';'"
  | .colon => "':'"
  | .invalid => "invalid token"
  | .eof => "end of file"

def ofName? (name : String) : Option TokenKind := all.find? (·.name == name)

def keywords : List (String × TokenKind) :=
  [("fun", .kwFun), ("var", .kwVar), ("struct", .kwStruct), ("class", .kwClass), ("if", .kwIf),
   ("else", .kwElse), ("while", .kwWhile), ("return", .kwReturn), ("true", .kwTrue),
   ("false", .kwFalse), ("unit", .kwUnit), ("self", .kwSelf)]

def ofKeyword? (word : String) : Option TokenKind := keywords.lookup word

end TokenKind

structure Token where
  kind : TokenKind
  lexeme : String
  span : Span
  deriving DecidableEq, Repr, Inhabited

namespace Token

def eofAt (offset : Nat) : Token := ⟨.eof, "", .point offset⟩

instance : ToString Token where
  toString t := t.kind.name ++ "(" ++ t.lexeme ++ ")"

end Token

end BlFront
