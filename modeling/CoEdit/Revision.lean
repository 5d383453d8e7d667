import CoEdit.Fault
import CoEdit.Text.Blank
import CoEdit.Text.Digits

/-!
# Revisions

Revision `n` is the document after the first `n` operations of the server's total order, so an
operation applied at revision `n` leads from `n - 1` to `n`. Counting past the largest 64-bit number
is a fault.
-/

namespace CoEdit

@[ext] structure Revision where
  number : Nat
deriving DecidableEq, Repr

namespace Revision

def zero : Revision := ⟨0⟩

instance : Inhabited Revision := ⟨zero⟩

instance : ToString Revision := ⟨fun r => toString r.number⟩

instance : LT Revision := ⟨fun a b => a.number < b.number⟩

instance (a b : Revision) : Decidable (a < b) := inferInstanceAs (Decidable (a.number < b.number))

def next (r : Revision) : Checked Revision := mk <$> Checked.add r.number 1

def advance (r : Revision) (count : Nat) : Checked Revision := mk <$> Checked.add r.number count

/-- How many operations lie between `earlier` and `r`; none if `earlier` is in fact later. -/
def since (r earlier : Revision) : Option Nat :=
  if earlier.number ≤ r.number then some (r.number - earlier.number) else none

/-- Reads a revision from decimal digits, between blanks and after an optional plus sign. -/
def ofText? (s : String) : Option Revision :=
  mk <$> Text.counter? Checked.limit (Text.trim s.toList)

theorem lt_iff {a b : Revision} : a < b ↔ a.number < b.number := Iff.rfl

theorem next_eq_ok_iff {r s : Revision} :
    r.next = .ok s ↔ r.number + 1 < Checked.limit ∧ s.number = r.number + 1 := by
  unfold next Checked.add
  split <;> rename_i h <;> simp [h, Functor.map, Except.map, Revision.ext_iff, eq_comm]

theorem since_eq_some_iff {r e : Revision} {n : Nat} :
    r.since e = some n ↔ r.number = e.number + n := by
  unfold since; split
  · simp only [Option.some.injEq]; omega
  · simp only [reduceCtorEq, false_iff]; omega

end Revision

end CoEdit
