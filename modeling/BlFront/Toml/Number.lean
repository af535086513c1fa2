import BlFront.Number.Decimal
import BlFront.Toml.Text

/-!
# Numbers and dates

Integers of 64 bits in four bases, fractions, and dates with or without a time of day.
A single underscore may stand between two digits.
-/

namespace BlFront.Toml

open Reader

/-! ### Digits -/

def digit : Reader Char := satisfy Decimal.isDigit

/-- More digits, perhaps behind an underscore, without the underscores. -/
def moreDigits (isDigit : Char → Bool) : Reader (List Char) :=
  many (satisfy isDigit <|> do
    char '_'
    satisfy isDigit)

def digits (isDigit : Char → Bool) : Reader (List Char) := do
  let first ← satisfy isDigit
  return first :: (← moreDigits isDigit)

def sign : Reader (List Char) := do
  return (← maybe (satisfy fun c => c = '+' || c = '-')).toList

/-- Decimal digits with an optional sign.  A zero in front stands alone. -/
def decimalText : Reader (List Char) := do
  let sign ← sign
  let first ← digit
  if first = '0' then return sign ++ [first]
  return sign ++ first :: (← moreDigits Decimal.isDigit)

/-! ### Integers -/

def radixInteger (mark : String) (radix : Nat) : Reader Int := do
  word mark
  let text ← digits fun c => (hexValue? c).any (· < radix)
  let n := text.foldl (fun n c => radix * n + (hexValue? c).getD 0) 0
  if (n : Int) ≤ Decimal.greatestInt64 then return n else failure

def decimalInteger : Reader Int := do
  match Decimal.int64? (← decimalText) with
  | some i => return i
  | none => failure

def integer : Reader Int :=
  radixInteger "0x" 16 <|> radixInteger "0o" 8 <|> radixInteger "0b" 2 <|> decimalInteger

/-! ### Fractions -/

def exponentText : Reader (List Char) := do
  let mark ← satisfy fun c => c = 'e' || c = 'E'
  let sign ← sign
  return mark :: sign ++ (← digits Decimal.isDigit)

def placesText : Reader (List Char) := do
  char '.'
  let places ← digits Decimal.isDigit
  return '.' :: places ++ ((← maybe exponentText).getD [])

/-- A fraction that is not too large; one far below zero is taken as infinite. -/
def finite : Reader Binary64 := do
  let whole ← decimalText
  let rest ← exponentText <|> placesText
  match Decimal.float? (whole ++ rest) with
  | some x => if x = .infinity false then failure else return x
  | none => failure

def special : Reader Binary64 := do
  let sign ← sign
  let negative := decide (sign = ['-'])
  (do word "inf"; return .infinity negative) <|> (do word "nan"; return .notANumber negative)

def float : Reader Binary64 := finite <|> special

/-! ### Dates -/

def fixed (width : Nat) : Reader Nat := do
  let text ← (List.replicate width ()).mapM fun _ => digit
  return Decimal.value text

def fixedWithin (width low high : Nat) : Reader Nat := do
  let n ← fixed width
  if low ≤ n ∧ n ≤ high then return n else failure

def isLeap (year : Nat) : Bool := year % 4 == 0 && (year % 100 != 0 || year % 400 == 0)

def daysOf (year month : Nat) : Nat :=
  if month = 2 then (if isLeap year then 29 else 28)
  else if month = 4 ∨ month = 6 ∨ month = 9 ∨ month = 11 then 30
  else 31

def date : Reader Unit := do
  let year ← fixed 4
  char '-'
  let month ← fixedWithin 2 1 12
  char '-'
  let _ ← fixedWithin 2 1 (daysOf year month)

/-- A time of day with seconds; the last minute of a day may have one second more. -/
def time : Reader Unit := do
  let _ ← fixedWithin 2 0 23
  char ':'
  let _ ← fixedWithin 2 0 59
  char ':'
  let _ ← fixedWithin 2 0 60
  let _ ← maybe do
    char '.'
    let _ ← digit
    run Decimal.isDigit

def zone : Reader Unit :=
  discard (satisfy fun c => c = 'Z' || c = 'z') <|> do
    let _ ← satisfy fun c => c = '+' || c = '-'
    let _ ← fixedWithin 2 0 23
    char ':'
    let _ ← fixedWithin 2 0 59

/-- A date, a time, or both; only with both may a zone follow. -/
def moment : Reader Unit :=
  (do
    date
    let _ ← maybe do
      let _ ← satisfy fun c => c = 'T' || c = 't' || c = ' '
      time
      maybe zone) <|> time

end BlFront.Toml
