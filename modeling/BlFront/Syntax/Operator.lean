import BlFront.Token.Basic

/-!
# Operators

The operators of the language, their classes, and how tightly they bind.
-/

namespace BlFront

inductive BinaryOp where
  | add
  | sub
  | mul
  | div
  | mod
  | eq
  | ne
  | lt
  | gt
  | le
  | ge
  | and
  | or
  deriving DecidableEq, Repr

namespace BinaryOp

def all : List BinaryOp := [.add, .sub, .mul, .div, .mod, .eq, .ne, .lt, .gt, .le, .ge, .and, .or]

def symbol : BinaryOp → String
  | .add => "+"
  | .sub => "-"
  | .mul => "*"
  | .div => "/"
  | .mod => "%"
  | .eq => "=="
  | .ne => "!="
  | .lt => "<"
  | .gt => ">"
  | .le => "<="
  | .ge => ">="
  | .and => "&&"
  | .or => "||"

def ofSymbol? (symbol : String) : Option BinaryOp := all.find? (·.symbol == symbol)

def isArithmetic : BinaryOp → Bool
  | .add | .sub | .mul | .div | .mod => true
  | _ => false

def isComparison : BinaryOp → Bool
  | .lt | .gt | .le | .ge => true
  | _ => false

def isEquality : BinaryOp → Bool
  | .eq | .ne => true
  | _ => false

def isLogical : BinaryOp → Bool
  | .and | .or => true
  | _ => false

def ofToken? : TokenKind → Option BinaryOp
  | .plus => some .add
  | .minus => some .sub
  | .star => some .mul
  | .slash => some .div
  | .percent => some .mod
  | .equalEqual => some .eq
  | .bangEqual => some .ne
  | .less => some .lt
  | .greater => some .gt
  | .lessEqual => some .le
  | .greaterEqual => some .ge
  | .ampAmp => some .and
  | .pipePipe => some .or
  | _ => none

end BinaryOp

inductive UnaryOp where
  | neg
  | not
  deriving DecidableEq, Repr

namespace UnaryOp

def all : List UnaryOp := [.neg, .not]

def symbol : UnaryOp → String
  | .neg => "-"
  | .not => "!"

def ofSymbol? (symbol : String) : Option UnaryOp := all.find? (·.symbol == symbol)

def ofToken? : TokenKind → Option UnaryOp
  | .minus => some .neg
  | .bang => some .not
  | _ => none

/-- A unary operator binds tighter than every binary one. -/
def power : Nat := 15

end UnaryOp

/-- How tightly an operator between two operands binds to the left and to the right.  Where the
right number is the greater one, operators of equal rank group to the left. -/
def bindingPower? : TokenKind → Option (Nat × Nat)
  | .equal => some (2, 1)
  | .pipePipe => some (3, 4)
  | .ampAmp => some (5, 6)
  | .equalEqual | .bangEqual => some (7, 8)
  | .less | .greater | .lessEqual | .greaterEqual => some (9, 10)
  | .plus | .minus => some (11, 12)
  | .star | .slash | .percent => some (13, 14)
  | _ => none

end BlFront
