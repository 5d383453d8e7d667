import CoEdit.Agenda
import CoEdit.Channel.Basic

/-!
# Endpoints

A channel with its agenda, cut off from any server: requests and subscriptions are only noted, and
whatever the server would answer has to be put on the timeline by hand. Every call answers with what
was done, in order.
-/

namespace CoEdit

structure Endpoint (M R : Type) where
  channel : Channel M := {}
  agenda : Agenda M R
deriving Repr

namespace Endpoint

variable {M R : Type}

def timeline (p : Endpoint M R) : Timeline M := p.agenda.timeline

def withTimeline (p : Endpoint M R) (timeline : Timeline M) : Endpoint M R :=
  { p with agenda := { p.agenda with timeline } }

/-- At most this many events can follow from what is on a timeline: a task schedules no other task,
and any other event at most one. -/
def weight (t : Timeline M) : Nat :=
  t.entries.length + t.entries.countP fun e => e.event.task?.isNone

variable [RandomSource R]

def settle (p : Endpoint M R) (r : Channel.Reaction M) : Checked (List (Deed M) × Endpoint M R) := do
  let (deeds, agenda) ← p.agenda.performAll r.2
  return (deeds, { channel := r.1, agenda })

def call {α : Type} (p : Endpoint M R) (reply : Checked (α × Channel.Reaction M)) :
    Checked (α × List (Deed M) × Endpoint M R) := do
  let (answer, reaction) ← reply
  return (answer, ← p.settle reaction)

def connect (p : Endpoint M R) (revision : Revision) (session : Session) :
    Checked (Except Error Unit × List (Deed M) × Endpoint M R) :=
  p.call (p.channel.connect revision session)

def disconnect (p : Endpoint M R) : Checked (Except Error Unit × List (Deed M) × Endpoint M R) :=
  p.call p.channel.disconnect

def send (x : Transformer M) (p : Endpoint M R) (op : M) :
    Checked (Except Error Unit × List (Deed M) × Endpoint M R) :=
  p.call (p.channel.send x op)

def receive (p : Endpoint M R) : Except Error (Option M) × Endpoint M R :=
  let (op, channel) := p.channel.receive
  (op, { p with channel })

def handle (x : Transformer M) (p : Endpoint M R) (event : Event M) :
    Checked (List (Deed M) × Endpoint M R) := do
  p.settle (← p.channel.handle x event)

def step (x : Transformer M) (p : Endpoint M R) :
    Checked (Option (Event M) × List (Deed M) × Endpoint M R) :=
  match p.timeline.advance with
  | none => .ok (none, [], p)
  | some (event, t) => do return (some event, ← (p.withTimeline t).handle x event)

/-- Hands over events while `due` wants the next one, at most `limit` of them; answers how many. -/
def runWhile (x : Transformer M) (due : Nat → Bool) :
    Nat → Endpoint M R → Checked (Nat × List (Deed M) × Endpoint M R)
  | 0, p => .ok (0, [], p)
  | limit + 1, p =>
    if p.timeline.nextDue.any due then do
      let (_, deeds, p) ← p.step x
      let (handled, more, p) ← runWhile x due limit p
      return (handled + 1, deeds ++ more, p)
    else .ok (0, [], p)

def runUntilIdle (x : Transformer M) (limit : Nat) (p : Endpoint M R) :
    Checked (Nat × List (Deed M) × Endpoint M R) :=
  runWhile x (fun _ => true) limit p

/-- Hands over every event due within `duration` and moves the clock to the end of that time. -/
def runFor (x : Transformer M) (duration : Nat) (p : Endpoint M R) :
    Checked (Nat × List (Deed M) × Endpoint M R) := do
  let deadline ← Checked.addTime p.timeline.now duration
  let (handled, deeds, p) ← runWhile x (· ≤ deadline) (weight p.timeline) p
  return (handled, deeds, p.withTimeline (p.timeline.advanceTo deadline))

end Endpoint

end CoEdit
