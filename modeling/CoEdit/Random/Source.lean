/-!
# Random draws

A source of random 32-bit words, and the draws made from it: wide words, whole numbers from an
interval, fractions and coin flips. How many words a draw takes is part of its meaning, since the
next draw goes on from there.
-/

namespace CoEdit

class RandomSource (R : Type) where
  next : R → UInt32 × R

namespace Random

variable {R : Type} [RandomSource R]

def word32 (r : R) : Nat × R :=
  let (w, r) := RandomSource.next r
  (w.toNat, r)

/-- Two words, the low half first. -/
def word64 (r : R) : Nat × R :=
  let (low, r) := word32 r
  let (high, r) := word32 r
  (high * 4294967296 + low, r)

/-- A number from `lo` to `hi`, both included, from draws of numbers below `width`. The draw is
scaled to the size of the interval, and a second one decides whether its low part carries. The whole
range takes a plain draw. -/
def scaled (draw : R → Nat × R) (width lo hi : Nat) (r : R) : Nat × R :=
  let size := (hi + 1 - lo) % width
  let (x, r) := draw r
  if size = 0 then (lo + x, r)
  else
    let (high, low) := (x * size / width, x * size % width)
    if low > width - size then
      let (y, r) := draw r
      (lo + high + (low + y * size / width) / width, r)
    else (lo + high, r)

def between (lo hi : Nat) (r : R) : Nat × R := scaled word64 18446744073709551616 lo hi r

/-- A small lower-case letter. -/
def letter (r : R) : Char × R :=
  let (k, r) := scaled word32 4294967296 0 25 r
  (Char.ofNat ('a'.toNat + k), r)

def fraction (r : R) : Float × R :=
  let (w, r) := word64 r
  (Float.ofNat (w / 2048) / 9007199254740992, r)

/-- A fraction of the way from `lo` to `hi`, with 52 random bits. Nothing is drawn if the way is not
of finite length. -/
def within (lo hi : Float) (r : R) : Option (Float × R) :=
  if !(hi - lo).isFinite then none
  else
    let (w, r) := word64 r
    some (Float.ofNat (w / 4096) / 4503599627370496 * (hi - lo) + lo, r)

/-- True with probability `p`, if `p` is one. Certainty takes no draw. -/
def chance (p : Float) (r : R) : Option (Bool × R) :=
  if p == 1 then some (true, r)
  else if !(0 ≤ p && p < 1) then none
  else
    let (w, r) := word64 r
    some (w < (p * 18446744073709551616).toUInt64.toNat, r)

end Random

end CoEdit
