/-!
# The double nearest to a decimal

A decimal is a natural number times a power of ten. The double nearest to it is found in exact
arithmetic: the decimal is written as a fraction, the fraction is scaled to a mantissa of 53 bits,
and the mantissa is rounded to nearest, a tie to the even neighbour. Below the least normal double
the mantissa keeps fewer bits; above the greatest the answer is infinite.
-/

namespace CoEdit.Decimal

/-- The natural number nearest to `a / b`; of two, the even one. -/
def roundEven (a b : Nat) : Nat :=
  let q := a / b
  let r := a % b
  if 2 * r < b ∨ 2 * r = b ∧ q % 2 = 0 then q else q + 1

def leastExponent : Int := -1074

def infinityBits : Nat := 0x7FF0000000000000

/-- The bits of the double nearest to `a / b`. A mantissa that rounds up to 54 bits carries into the
exponent. -/
def bitsOfFraction (a b : Nat) : Nat :=
  if a = 0 then 0
  else
    let guess : Int := a.log2 - b.log2 - 53
    let q := max leastExponent <|
      if a * Nat.pow 2 (-(guess + 53)).toNat < b * Nat.pow 2 (guess + 53).toNat then guess
      else guess + 1
    let mantissa := roundEven (a * Nat.pow 2 (-q).toNat) (b * Nat.pow 2 q.toNat)
    min infinityBits ((q - leastExponent).toNat * Nat.pow 2 52 + mantissa)

def width (n : Nat) : Nat := (Nat.toDigits 10 n).length

/-- From here on the nearest double is infinite: half of the last step below `2 ^ 1024`. -/
def infiniteFrom : Nat := Nat.pow 2 1024 - Nat.pow 2 970

/-- Whether the double nearest to `n * 10 ^ e` is finite. Where the size alone decides, the power of
ten is not computed. -/
def isFinite (n : Nat) (e : Int) : Bool :=
  if n = 0 then true
  else if width n + e > 400 then false
  else if width n + e < -400 then true
  else n * Nat.pow 10 e.toNat < infiniteFrom * Nat.pow 10 (-e).toNat

def nearestBits (n : Nat) (e : Int) : Nat :=
  if !isFinite n e then infinityBits
  else if n = 0 ∨ width n + e < -400 then 0
  else bitsOfFraction (n * Nat.pow 10 e.toNat) (Nat.pow 10 (-e).toNat)

def nearest (n : Nat) (e : Int) : Float := Float.ofBits (UInt64.ofNat (nearestBits n e))

def ofNat (n : Nat) : Float := nearest n 0

example : bitsOfFraction 1 10 = 0x3FB999999999999A := by decide +kernel
example : bitsOfFraction 1 1 = 0x3FF0000000000000 := by decide +kernel
example : bitsOfFraction (Nat.pow 2 64 - 1) 1 = 0x43F0000000000000 := by decide +kernel
example : bitsOfFraction 5 (Nat.pow 10 324) = 1 := by decide +kernel
example : bitsOfFraction 2 (Nat.pow 10 324) = 0 := by decide +kernel
example : bitsOfFraction infiniteFrom 1 = infinityBits := by decide +kernel
example : bitsOfFraction (infiniteFrom - 1) 1 = infinityBits - 1 := by decide +kernel

end CoEdit.Decimal
