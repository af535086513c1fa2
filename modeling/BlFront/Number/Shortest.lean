import BlFront.Number.Binary64

/-!
# Shortest decimals

A finite number is written with the fewest digits that still read back as it; of two such
texts the nearer one is taken, and of two equally near ones the greater.
-/

namespace BlFront.Binary64

/-- The digits of a number and the place of its point: `0.ddd * 10 ^ point`. -/
structure Digits where
  digits : List Char
  point : Int
  deriving DecidableEq, Repr

namespace Digits

/-- Whether `a / b < c * 10 ^ e`. -/
def ltScaled (a b c : Nat) : Int → Bool
  | .ofNat k => decide (a < c * Nat.pow 10 k * b)
  | .negSucc k => decide (a * Nat.pow 10 (k + 1) < c * b)

/-- Whether `a / b ≤ c * 10 ^ e`. -/
def leScaled (a b c : Nat) : Int → Bool
  | .ofNat k => decide (a ≤ c * Nat.pow 10 k * b)
  | .negSucc k => decide (a * Nat.pow 10 (k + 1) ≤ c * b)

/-- The greatest `c` with `c * 10 ^ e ≤ a / b`. -/
def floorScaled (a b : Nat) : Int → Nat
  | .ofNat k => a / (b * Nat.pow 10 k)
  | .negSucc k => a * Nat.pow 10 (k + 1) / b

/-- A number between the two ends of the interval of reals that round to it.  All three are
quarters of one unit, which is a power of two. -/
structure Interval where
  low : Nat
  value : Nat
  high : Nat
  /-- Whether the ends round to the number, too. -/
  isClosed : Bool

/-- The interval of a number and the exponent of its unit.  Right above a power of two the
neighbour below is nearer than the one above. -/
def interval (x : Binary64) : Interval × Int :=
  let (m, e) := x.significand
  let step := if m = impliedBit ∧ leastExponent < e then 1 else 2
  (⟨4 * m - step, 4 * m, 4 * m + 2, m % 2 == 0⟩, e - 2)

def fraction (n : Nat) : Int → Nat × Nat
  | .ofNat k => (n * Nat.pow 2 k, 1)
  | .negSucc k => (n, Nat.pow 2 (k + 1))

/-- Whether `c * 10 ^ e` lies in an interval with the unit `2 ^ unit`. -/
def contains (i : Interval) (unit : Int) (c : Nat) (e : Int) : Bool :=
  let (low, b) := fraction i.low unit
  let (high, _) := fraction i.high unit
  if i.isClosed then leScaled low b c e && !ltScaled high b c e
  else ltScaled low b c e && !leScaled high b c e

/-- The least `k` with `a / b < 10 ^ k`, for positive numbers. -/
def magnitudeOf (a b : Nat) : Int :=
  let guess := ((a.log2 : Int) - b.log2) * 30103 / 100000
  ([guess - 1, guess, guess + 1].find? fun k => ltScaled a b 1 k).getD (guess + 2)

/-- The better one of the two neighbours on a decimal grid, if one of them reads back. -/
def onGrid? (i : Interval) (unit : Int) (e : Int) : Option Nat :=
  let (a, b) := fraction i.value unit
  let below := floorScaled a b e
  match contains i unit below e, contains i unit (below + 1) e with
  | true, true =>
    let middle := 2 * below + 1
    some (if ltScaled (2 * a) b middle e then below else below + 1)
  | true, false => some below
  | false, true => some (below + 1)
  | false, false => none

/-- Every number reads back from this many digits. -/
def maxCount : Nat := 17

def ofInteger (c : Nat) (e : Int) : Digits :=
  let all := Nat.toDigits 10 c
  ⟨(all.reverse.dropWhile (· = '0')).reverse, e + all.length⟩

def shortest (x : Binary64) : Digits :=
  let (i, unit) := interval x
  let (a, b) := fraction i.value unit
  let top := magnitudeOf a b
  let grids := (List.range maxCount).map fun (n : Nat) => top - (n + 1)
  match grids.findSome? fun e => (onGrid? i unit e).map (·, e) with
  | some (c, e) => ofInteger c e
  | none => ofInteger (floorScaled a b (top - maxCount)) (top - maxCount)

/-- Digits with a point among them, and at least one digit on either side. -/
def positional (d : Digits) : String :=
  let zeros := fun n => List.replicate n '0'
  String.ofList <|
    if d.point ≤ 0 then '0' :: '.' :: zeros (-d.point).toNat ++ d.digits
    else
      let whole := d.point.toNat
      if d.digits.length ≤ whole then d.digits ++ zeros (whole - d.digits.length) ++ ['.', '0']
      else d.digits.take whole ++ '.' :: d.digits.drop whole

/-- One digit in front of the point, and a power of ten behind the digits. -/
def scientific (d : Digits) : String :=
  let rest := d.digits.drop 1
  String.ofList (d.digits.take 1 ++ (if rest.isEmpty then [] else '.' :: rest))
    ++ "e" ++ toString (d.point - 1)

end Digits

/-- Numbers from `0.0001` up to `10 ^ 16` are written without a power of ten. -/
def text (x : Binary64) : String :=
  let sign := if x.isNegative then "-" else ""
  if x.isNotANumber then "NaN"
  else if x.isInfinite then sign ++ "inf"
  else if x.magnitude = 0 then sign ++ "0.0"
  else
    let d := Digits.shortest x
    sign ++ if -3 ≤ d.point ∧ d.point ≤ 16 then d.positional else d.scientific

end BlFront.Binary64
