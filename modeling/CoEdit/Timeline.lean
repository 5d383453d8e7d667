import CoEdit.Channel.Event

/-!
# Timelines

Events wait on a timeline of virtual time, ordered by when they are due and, among equals, by when
they were put there. Nothing is due before the clock: an event put in the past is due now. Tasks are
also found by their id, which names the place where a task with that id was put last; taking any
task with the id off the timeline forgets the id.
-/

namespace CoEdit

namespace Timeline

structure Slot where
  due : Nat
  serial : Nat
deriving DecidableEq, Repr

structure Entry (M : Type) where
  slot : Slot
  event : Event M
deriving Repr

end Timeline

/-- Events in virtual time, in milliseconds. -/
structure Timeline (M : Type) where
  now : Nat := 0
  /-- How many events were ever put on the timeline. -/
  count : Nat := 0
  /-- What waits, the next event first. -/
  entries : List (Timeline.Entry M) := []
  /-- Where the latest task of each id was put. -/
  tasks : List (Token × Timeline.Slot) := []
deriving Repr

namespace Timeline

variable {M : Type}

def place (e : Entry M) : List (Entry M) → List (Entry M)
  | [] => [e]
  | f :: rest => if e.slot.due < f.slot.due then e :: f :: rest else f :: place e rest

def forget (id : Token) (tasks : List (Token × Slot)) : List (Token × Slot) :=
  tasks.filter (·.1 != id)

/-- Puts an event at time `due`, or now if that has passed. -/
def deliverAt (t : Timeline M) (due : Nat) (event : Event M) : Timeline M :=
  let slot : Slot := ⟨max due t.now, t.count⟩
  { t with
    count := t.count + 1
    entries := place ⟨slot, event⟩ t.entries
    tasks := match event.task? with
      | some task => (task.id, slot) :: forget task.id t.tasks
      | none => t.tasks }

def deliver (t : Timeline M) (event : Event M) : Timeline M := t.deliverAt t.now event

def deliverAfter (t : Timeline M) (delay : Nat) (event : Event M) : Checked (Timeline M) := do
  return t.deliverAt (← Checked.addTime t.now delay) event

/-- Takes the next event off and moves the clock to when it was due. -/
def advance (t : Timeline M) : Option (Event M × Timeline M) :=
  match t.entries with
  | [] => none
  | e :: rest => some (e.event, { t with
      now := max t.now e.slot.due
      entries := rest
      tasks := match e.event.task? with
        | some task => forget task.id t.tasks
        | none => t.tasks })

/-- Moves the clock forward; what was due before stays and runs next. -/
def advanceTo (t : Timeline M) (time : Nat) : Timeline M := { t with now := max t.now time }

/-- Takes the task last put under `id` off the timeline. An unknown id changes nothing. -/
def cancel (t : Timeline M) (id : Token) : Timeline M :=
  match t.tasks.lookup id with
  | none => t
  | some slot => { t with
      entries := t.entries.filter (·.slot != slot)
      tasks := forget id t.tasks }

def nextDue (t : Timeline M) : Option Nat := t.entries.head?.map (·.slot.due)

def pending (t : Timeline M) : Nat := t.entries.length

def isIdle (t : Timeline M) : Bool := t.entries.isEmpty

def scheduled (t : Timeline M) (kind : TaskKind) : Option Nat :=
  (t.entries.find? fun e => e.event.task?.any (·.kind == kind)).map (·.slot.due)

end Timeline

end CoEdit
