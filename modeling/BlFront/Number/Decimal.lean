import BlFront.Number.Binary64

/-!
# Numbers written in decimal

Reading of signed integers and of decimal fractions.  Underscores are not part of the
grammar: whoever allows them takes them out first.
-/

namespace BlFront.Decimal

def isDigit (c : Char) : Bool := decide ('0' ≤ c ∧ c ≤ '9')

def digitValue (c : Char) : Nat := c.toNat - '0'.toNat

def value (digits : List Char) : Nat := digits.foldl (fun n c => 10 * n + digitValue c) 0

/-- A text without its sign, and whether that was a minus. -/
def splitSign : List Char → Bool × List Char
  | '-' :: cs => (true, cs)
  | '+' :: cs => (false, cs)
  | cs => (false, cs)

/-- One or more digits, and no more. -/
def natural? (cs : List Char) : Option Nat :=
  if !cs.isEmpty && cs.all isDigit then some (value cs) else none

def integer? (cs : List Char) : Option Int :=
  let (negative, digits) := splitSign cs
  (natural? digits).map fun n => if negative then -(n : Int) else (n : Int)

def leastInt64 : Int := -0x8000000000000000

def greatestInt64 : Int := 0x7FFFFFFFFFFFFFFF

def int64? (cs : List Char) : Option Int :=
  (integer? cs).filter fun i => decide (leastInt64 ≤ i ∧ i ≤ greatestInt64)

/-- The exponent behind a mantissa; absent it is zero. -/
def exponent? : List Char → Option Int
  | [] => some 0
  | c :: cs => if c = 'e' ∨ c = 'E' then integer? cs else none

/-- `digits * 10 ^ e`, rounded.  Far out of range the result is known without the power. -/
def ofScientific (negative : Bool) (digits : List Char) (e : Int) : Binary64 :=
  let significant := digits.dropWhile (· = '0')
  let top := (significant.length : Int) + e
  if significant.isEmpty ∨ top < -400 then .ofMagnitude negative 0
  else if 400 < top then .infinity negative
  else match e with
    | .ofNat k => .ofQuotient negative (value digits * Nat.pow 10 k) 1
    | .negSucc k => .ofQuotient negative (value digits) (Nat.pow 10 (k + 1))

/-- Digits, perhaps with a point among them or at one end, perhaps with an exponent. -/
def fraction? (negative : Bool) (cs : List Char) : Option Binary64 := do
  let whole := cs.takeWhile isDigit
  let rest := cs.dropWhile isDigit
  let (places, rest) := match rest with
    | '.' :: ds => (ds.takeWhile isDigit, ds.dropWhile isDigit)
    | _ => ([], rest)
  guard (!(whole ++ places).isEmpty)
  let e ← exponent? rest
  return ofScientific negative (whole ++ places) (e - places.length)

/-- The words for values that have no digits, in any case. -/
def special? (negative : Bool) (cs : List Char) : Option Binary64 :=
  let word := String.ofList (cs.map Char.toLower)
  if word = "inf" ∨ word = "infinity" then some (.infinity negative)
  else if word = "nan" then some (.notANumber negative)
  else none

def float? (cs : List Char) : Option Binary64 :=
  let (negative, body) := splitSign cs
  fraction? negative body <|> special? negative body

end BlFront.Decimal
