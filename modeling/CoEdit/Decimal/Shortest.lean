/-!
# The shortest decimal of a double

A positive double `m * 2 ^ q` stands for every real that rounds to it: the interval that reaches
half way to both neighbours, ends included if `m` is even. The shortest decimal is the multiple of
the greatest power of ten that lies in the interval, and of several such multiples the one nearest
to the double; a tie goes up.
-/

namespace CoEdit.Decimal

/-- A positive double: `mantissa * 2 ^ exponent`. -/
structure Binary where
  mantissa : Nat
  exponent : Int
deriving DecidableEq, Repr

namespace Binary

def ofBits (bits : Nat) : Binary :=
  let e : Nat := bits / Nat.pow 2 52
  let m := bits % Nat.pow 2 52
  if e = 0 then ⟨m, -1074⟩ else ⟨m + Nat.pow 2 52, (e : Int) - 1075⟩

/-- The ends of the interval that rounds to a double, in units of `2 ^ (exponent - 2)`. The
neighbour below a power of two is nearer than the one above, unless it is the least normal double.
-/
def low (x : Binary) : Nat :=
  if x.mantissa = Nat.pow 2 52 ∧ x.exponent ≠ -1074 then 4 * x.mantissa - 1 else 4 * x.mantissa - 2

def high (x : Binary) : Nat := 4 * x.mantissa + 2

/-- The multiple of `10 ^ e` in the interval of `x` that is nearest to `x`, as its factor. -/
def onGrid? (x : Binary) (e : Int) : Option Nat :=
  let unit := Nat.pow 2 (2 - x.exponent).toNat * Nat.pow 10 e.toNat
  let scale := Nat.pow 2 (x.exponent - 2).toNat * Nat.pow 10 (-e).toNat
  let holds (c : Nat) : Bool :=
    if x.mantissa % 2 = 0 then x.low * scale ≤ c * unit && c * unit ≤ x.high * scale
    else x.low * scale < c * unit && c * unit < x.high * scale
  let value := 4 * x.mantissa * scale
  let c := value / unit
  match holds c, holds (c + 1) with
  | true, true => if 2 * (value % unit) < unit then some c else some (c + 1)
  | true, false => some c
  | false, true => some (c + 1)
  | false, false => none

def search (x : Binary) : Nat → Int → Nat × Int
  | 0, e => (x.mantissa, e)
  | fuel + 1, e =>
    match x.onGrid? e with
    | some c => (c, e)
    | none => search x fuel (e - 1)

/-- The factor and the exponent of the shortest decimal. No double needs a grid finer than its own
value's last binary digit does. -/
def shortest (x : Binary) : Nat × Int := search x 1400 309

end Binary

example : (Binary.ofBits 0x3FB999999999999A).shortest = (1, -1) := by decide +kernel
example : (Binary.ofBits 1).shortest = (5, -324) := by decide +kernel
example : (Binary.ofBits 0x7FEFFFFFFFFFFFFF).shortest = (17976931348623157, 292) := by decide +kernel

end CoEdit.Decimal
