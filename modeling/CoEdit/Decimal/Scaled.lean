import CoEdit.Decimal.Nearest

/-!
# Decimals by scaling

A quick way to read a decimal as a double. Its leading digits, as many as make a 64-bit number, are
rounded to a double, which is then multiplied or divided by a power of ten, itself a rounded double.
The answer may miss the nearest double by a little, and close to the greatest double it may fall on
the other side of it.
-/

namespace CoEdit.Decimal

/-- Drops digits at the end of `n * 10 ^ e` until what is left of `n` is a 64-bit number. -/
def leading (n : Nat) (e : Int) : Nat × Int :=
  if n < UInt64.size then (n, e) else leading (n / 10) (e + 1)
termination_by n
decreasing_by unfold UInt64.size at *; omega

/-- The nearest number with 53 binary digits in front of its zeros. -/
def rounded (n : Nat) : Nat :=
  let unit := Nat.pow 2 (n.log2 - 52)
  roundEven n unit * unit

def greatestPower : Int := 308

def scalesToFinite (n : Nat) (e : Int) : Bool :=
  let (n, e) := leading n e
  n = 0 || e ≤ 0 || (e ≤ greatestPower && rounded n * rounded (Nat.pow 10 e.toNat) < infiniteFrom)

/-- Multiplies a double by a power of ten, in several steps if the power is too small for one. -/
def scaleBy (x : Float) (e : Int) : Float :=
  if x == 0 then x
  else if e < -greatestPower then scaleBy (x / nearest 1 greatestPower) (e + greatestPower)
  else if e < 0 then x / nearest 1 (-e)
  else x * nearest 1 e
termination_by e.natAbs
decreasing_by unfold greatestPower at *; omega

def scaled (n : Nat) (e : Int) : Float :=
  let (n, e) := leading n e
  scaleBy (ofNat n) e

theorem leading_of_lt {n : Nat} {e : Int} (h : n < UInt64.size) : leading n e = (n, e) := by
  rw [leading, if_pos h]

theorem scalesToFinite_of_lt {n : Nat} (h : n < UInt64.size) : scalesToFinite n 0 := by
  simp [scalesToFinite, leading_of_lt h]

example : scalesToFinite 17976931348623157 292 := by decide +kernel
example : ¬ scalesToFinite 17976931348623158 292 := by decide +kernel
example : isFinite 17976931348623158 292 := by decide +kernel

end CoEdit.Decimal
