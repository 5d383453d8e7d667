import CoEdit.Decimal.Shortest

/-!
# Doubles in plain notation

The shortest decimal of a double written out in full, never with an exponent: whole numbers carry no
point, and a number below one starts with a zero. A negative zero keeps its sign.
-/

namespace CoEdit.Decimal

def positional (n : Nat) (e : Int) : String :=
  let digits := toString n
  if e ≥ 0 then digits ++ String.ofList (List.replicate e.toNat '0')
  else
    let places := (-e).toNat
    let padded := List.replicate (places + 1 - digits.length) '0' ++ digits.toList
    let whole := padded.length - places
    String.ofList (padded.take whole ++ '.' :: padded.drop whole)

def plain (x : Float) : String :=
  let bits := x.toBits.toNat
  let sign := if bits / Nat.pow 2 63 = 1 then "-" else ""
  let size := bits % Nat.pow 2 63
  if size > 0x7FF0000000000000 then "NaN"
  else if size = 0x7FF0000000000000 then sign ++ "inf"
  else if size = 0 then sign ++ "0"
  else
    let (n, e) := (Binary.ofBits size).shortest
    sign ++ positional n e

example : positional 12 0 = "12" := by decide +kernel
example : positional 1 2 = "100" := by decide +kernel
example : positional 125 (-2) = "1.25" := by decide +kernel
example : positional 1 (-7) = "0.0000001" := by decide +kernel

end CoEdit.Decimal
