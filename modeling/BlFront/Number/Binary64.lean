/-!
# Double precision numbers

A number is kept as its 64 bits: sign, eleven bits of exponent, 52 bits of fraction.
Rounding is done once, on an exact quotient of natural numbers.
-/

namespace BlFront

structure Binary64 where
  bits : UInt64
  deriving DecidableEq, Repr, Inhabited

namespace Binary64

/-- The bits of infinity, which is also the least pattern that stands for no finite number. -/
def infinityBits : Nat := 0x7FF0000000000000

def quietBits : Nat := 0x7FF8000000000000

def signBit : Nat := 0x8000000000000000

/-- The weight of the bit in front of the fraction, which is not stored. -/
def impliedBit : Nat := 0x10000000000000

/-- The least exponent: the smallest positive number is `2 ^ (-1074)`. -/
def leastExponent : Int := -1074

/-- `n / d` rounded to the nearest natural number, a half to the even one. -/
def roundQuotient (n d : Nat) : Nat :=
  let q := n / d
  let r := n % d
  if 2 * r < d then q else if d < 2 * r then q + 1 else q + q % 2

/-- `n / d` divided by `2 ^ e`, as a quotient. -/
def scaleDown (n d : Nat) (e : Int) : Nat × Nat :=
  match e with
  | .ofNat k => (n, d * Nat.pow 2 k)
  | .negSucc k => (n * Nat.pow 2 (k + 1), d)

/-- The exponent `e` for which `n / d` divided by `2 ^ e` has 53 bits, where one so small exists. -/
def exponentOf (n d : Nat) : Int :=
  let guess := (n.log2 : Int) - d.log2 - 53
  let (a, b) := scaleDown n d guess
  max leastExponent (if a / b < 2 * impliedBit then guess else guess + 1)

/-- The bits of the number nearest to `n / d`, without sign.  A carry out of the fraction moves
into the exponent, and from the greatest exponent into infinity. -/
def magnitudeBits (n d : Nat) : Nat :=
  if n = 0 then 0 else
    let e := exponentOf n d
    let (a, b) := scaleDown n d e
    min infinityBits ((e - leastExponent).toNat * impliedBit + roundQuotient a b)

def ofMagnitude (negative : Bool) (bits : Nat) : Binary64 :=
  ⟨(if negative then signBit + bits else bits).toUInt64⟩

def ofQuotient (negative : Bool) (n d : Nat) : Binary64 :=
  ofMagnitude negative (magnitudeBits n d)

def infinity (negative : Bool) : Binary64 := ofMagnitude negative infinityBits

def notANumber (negative : Bool) : Binary64 := ofMagnitude negative quietBits

def zero : Binary64 := ⟨0⟩

def isNegative (x : Binary64) : Bool := decide (signBit ≤ x.bits.toNat)

def magnitude (x : Binary64) : Nat := x.bits.toNat % signBit

def isInfinite (x : Binary64) : Bool := x.magnitude == infinityBits

def isNotANumber (x : Binary64) : Bool := decide (infinityBits < x.magnitude)

/-- The integer `m` and the exponent `e` of a finite magnitude `m * 2 ^ e`. -/
def significand (x : Binary64) : Nat × Int :=
  let field : Nat := x.magnitude / impliedBit
  let fraction : Nat := x.magnitude % impliedBit
  if field = 0 then (fraction, leastExponent)
  else (impliedBit + fraction, (field : Int) - 1 + leastExponent)

end Binary64

end BlFront
