import CoEdit.Backoff
import CoEdit.Channel.Effect
import CoEdit.Timeline

/-!
# Agendas

A channel's own side of its effects: the tasks it schedules go on its timeline, and its backoff says
how long a delayed one waits. Every other effect concerns the server or the listener and leaves the
agenda as it is.
-/

namespace CoEdit

structure Agenda (M R : Type) where
  timeline : Timeline M := {}
  backoff : Backoff R
deriving Repr

/-- An effect that was carried out, with the delay that was chosen for it. -/
structure Deed (M : Type) where
  effect : Effect M
  delay : Option Nat := none
deriving DecidableEq, Repr

namespace Agenda

variable {M R : Type} [RandomSource R]

def perform (a : Agenda M R) (effect : Effect M) : Checked (Deed M × Agenda M R) :=
  match effect with
  | .schedule task => .ok (⟨effect, none⟩, { a with timeline := a.timeline.deliver (.task task) })
  | .scheduleAfterDelay task => do
    let (delay, backoff) ← a.backoff.next
    let timeline ← a.timeline.deliverAfter delay (.task task)
    return (⟨effect, some delay⟩, { timeline, backoff })
  | .cancel id => .ok (⟨effect, none⟩, { a with timeline := a.timeline.cancel id })
  | .resetBackoff => .ok (⟨effect, none⟩, { a with backoff := a.backoff.reset })
  | _ => .ok (⟨effect, none⟩, a)

def performAll (a : Agenda M R) : List (Effect M) → Checked (List (Deed M) × Agenda M R)
  | [] => .ok ([], a)
  | e :: es => do
    let (deed, a) ← a.perform e
    let (deeds, a) ← a.performAll es
    return (deed :: deeds, a)

end Agenda

end CoEdit
