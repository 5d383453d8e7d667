import CoEdit.Backoff.Policy
import CoEdit.Decimal.Nearest
import CoEdit.Fault
import CoEdit.Random.Source

/-!
# Backoff

The delays between attempts grow by a constant factor up to a maximum, and each is scaled by a
random factor around one, so that clients that failed together do not come back together. A success
starts over from the first delay. Delays are reckoned in doubles and handed out in whole
milliseconds.
-/

namespace CoEdit

structure Backoff (R : Type) where
  policy : Backoff.Policy
  attempt : Nat := 0
  random : R
deriving Repr

namespace Backoff

def growthLimit : Nat := 63

def attemptLimit : Nat := 4294967295

/-- A power by repeated squaring, from the lowest binary digit of the exponent up. -/
def powerOf (x : Float) (n : Nat) (acc : Float := 1) : Float :=
  let acc := if n % 2 = 1 then acc * x else acc
  if n / 2 = 0 then acc else powerOf (x * x) (n / 2) acc
termination_by n

/-- The lesser of two doubles; a double that is not a number gives way to one that is. -/
def least (x y : Float) : Float :=
  if x.isNaN then y else if y.isNaN then x else if y < x then y else x

variable {R : Type}

def ceiling (b : Backoff R) : Float := Decimal.ofNat b.policy.maxMs

def base (b : Backoff R) : Float :=
  let growth := powerOf b.policy.multiplier (min b.attempt growthLimit)
  least (Decimal.ofNat b.policy.initialMs * growth) b.ceiling

/-- The nearest whole number, a half away from zero, within the range of 64-bit numbers. -/
def whole (x : Float) : Nat :=
  let below := x.toUInt64
  if x - below.toFloat ≥ 0.5 then min (below.toNat + 1) (Checked.limit - 1) else below.toNat

/-- The next delay in milliseconds. Without spread no random number is drawn. -/
def next [RandomSource R] (b : Backoff R) : Checked (Nat × Backoff R) :=
  let attempt := min (b.attempt + 1) attemptLimit
  let jitter := b.policy.jitter
  if jitter > 0 then
    match Random.within (1 - jitter) (1 + jitter) b.random with
    | some (factor, random) =>
      .ok (whole (least (b.base * factor) b.ceiling), { b with attempt, random })
    | none => .error .infiniteRange
  else .ok (whole b.base, { b with attempt })

def reset (b : Backoff R) : Backoff R := { b with attempt := 0 }

end Backoff

end CoEdit
