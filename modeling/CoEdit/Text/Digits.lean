/-!
# Decimal digits

Reading a natural number from its decimal digits. Only the ten ASCII digits count.
-/

namespace CoEdit.Text

def isDigit (c : Char) : Bool := '0' ≤ c && c ≤ '9'

def digitValue (c : Char) : Nat := c.toNat - '0'.toNat

/-- The number that a list of digits writes, continuing from `acc`. -/
def digitsValue (cs : List Char) (acc : Nat := 0) : Nat :=
  cs.foldl (fun n c => 10 * n + digitValue c) acc

def natural? (cs : List Char) : Option Nat :=
  if !cs.isEmpty && cs.all isDigit then some (digitsValue cs) else none

/-- A number below `bound` in decimal digits, with at most one plus sign in front. -/
def counter? (bound : Nat) (cs : List Char) : Option Nat :=
  let digits := match cs with
    | '+' :: rest => rest
    | _ => cs
  (natural? digits).filter (· < bound)

end CoEdit.Text
