import CoEdit.Mailbox.Turns
import Mathlib.Logic.Relation

/-!
# Moves at a mailbox

What can happen at a mailbox between the calls of its reader. Who is ready goes on in any order, and
the following three things are all that is relied on.

* Events are read in the order in which they are posted: `Mailbox.post` puts an event behind all
  others, and a reader takes the first.
* A sleep is over at its deadline and not before: `Mailbox.IsPunctual` when it begins,
  `Sleeper.IsOver` when it ends.
* Whoever was woken goes on before the clock moves on: `Mailbox.MayPass`.

Whoever is told to leave at the very moment at which its sleep is over goes either way.
-/

namespace CoEdit.Mailbox

variable {E : Type}

/-- A sleep that begins now ends when the delay is over. -/
def IsPunctual (m : Mailbox E) (delay : Nat) : Prop := m.wakeTime delay = m.now + delay

def Sleeper.IsOver (s : Sleeper E) (m : Mailbox E) : Prop := s.due ≤ m.now

/-- Nobody is ready, and nobody is to wake up before the time. -/
structure MayPass (m : Mailbox E) (time : Nat) : Prop where
  idle : m.ready = []
  le : m.now ≤ time
  due : ∀ s ∈ m.asleep, time ≤ s.due

/-- How a sleeper goes away. -/
inductive Parting (E : Type) where
  | posted (event : E)
  | left (event : E)
deriving DecidableEq

/-- A sleeper goes on. Two of the cases apply to one that is told to leave when its sleep is over. -/
inductive GoesOn (m : Mailbox E) (s : Sleeper E) : Option (Parting E) → Mailbox E → Prop
  | posts (hover : s.IsOver m) : GoesOn m s (some (.posted s.event)) (m.post s.event)
  | leaves (htold : s.isDismissed) : GoesOn m s (some (.left s.event)) m
  | sleeps (hearly : ¬ s.IsOver m) (hkept : ¬ s.isDismissed) :
      GoesOn m s none { m with asleep := place s m.asleep }

inductive Move : Mailbox E → Option (Parting E) → Mailbox E → Prop
  /-- Anyone who is ready goes on. -/
  | goesOn {m m' : Mailbox E} {front rest : List (Sleeper E)} {s : Sleeper E}
      {parting : Option (Parting E)} (hr : m.ready = front ++ s :: rest)
      (h : GoesOn { m with ready := front ++ rest } s parting m') : Move m parting m'
  | passes {m : Mailbox E} {time : Nat} (h : m.MayPass time) : Move m none (m.wakeAt time)
  /-- What decides which move comes next may change. -/
  | draws {m : Mailbox E} (steps : Nat) (draws : List Bool) : Move m none { m with steps, draws }

/-- Any number of moves. -/
def Passes : Mailbox E → Mailbox E → Prop :=
  Relation.ReflTransGen fun m m' => ∃ parting, Move m parting m'

end CoEdit.Mailbox
