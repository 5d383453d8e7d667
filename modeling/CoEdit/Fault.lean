import CoEdit.Channel.State

/-!
# Faults

A fault ends a run outright: a sum leaves the range of a 64-bit counter or of a span of time, a
random choice has nothing to choose from, or a channel finds its own data inconsistent. It is no
error a caller handles, and nothing is observed after it. Numbers are exact naturals; the checked
operations here are where their range is enforced.
-/

namespace CoEdit

/-- What ends a run outright. -/
inductive Fault where
  | addOverflow
  | subOverflow
  /-- A sum of two spans of time reaches `2 ^ 64` seconds. -/
  | timeOverflow
  /-- A choice from an interval whose lower end is above its upper end. -/
  | emptyRange
  /-- A choice from an interval of doubles that is not of finite length. -/
  | infiniteRange
  /-- A coin flip with a number that is no probability. -/
  | notProbability
  /-- Operations were moved into flight over a batch that is still unacknowledged. -/
  | batchInFlight
  | forbiddenMove (source target : Channel.State)
  | violated (violation : Channel.Violation) (state : Channel.State)
deriving DecidableEq, Repr

def Fault.message : Fault → String
  | addOverflow => "attempt to add with overflow"
  | subOverflow => "attempt to subtract with overflow"
  | timeOverflow => "overflow when adding durations"
  | emptyRange => "cannot sample empty range"
  | infiniteRange => "called `Result::unwrap()` on an `Err` value: NonFinite"
  | notProbability => "p is outside range [0.0, 1.0]"
  | batchInFlight => "pushing queued operations over an unacknowledged batch"
  | forbiddenMove a b => s!"invalid transition {a.name} -> {b.name}"
  | violated v s => s!"{v.message} in {s.name}"

abbrev Checked := Except Fault

namespace Checked

def limit : Nat := 18446744073709551616

def timeLimit : Nat := 1000 * limit

def add (a b : Nat) : Checked Nat := if a + b < limit then .ok (a + b) else .error .addOverflow

def sub (a b : Nat) : Checked Nat := if b ≤ a then .ok (a - b) else .error .subOverflow

def addTime (a b : Nat) : Checked Nat :=
  if a + b < timeLimit then .ok (a + b) else .error .timeOverflow

theorem bind_eq_ok_iff {α β : Type} {a : Checked α} {f : α → Checked β} {b : β} :
    a >>= f = .ok b ↔ ∃ x, a = .ok x ∧ f x = .ok b := by
  cases a <;> simp [bind, Except.bind]

theorem add_eq_ok_iff {a b c : Nat} : add a b = .ok c ↔ a + b < limit ∧ c = a + b := by
  unfold add; split <;> rename_i h <;> simp [h, eq_comm]

theorem sub_eq_ok_iff {a b c : Nat} : sub a b = .ok c ↔ b ≤ a ∧ c = a - b := by
  unfold sub; split <;> rename_i h <;> simp [h, eq_comm]

theorem addTime_eq_ok_iff {a b c : Nat} : addTime a b = .ok c ↔ a + b < timeLimit ∧ c = a + b := by
  unfold addTime; split <;> rename_i h <;> simp [h, eq_comm]

end Checked

end CoEdit
