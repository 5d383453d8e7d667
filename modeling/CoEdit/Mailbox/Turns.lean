import CoEdit.Mailbox.Basic

/-!
# Turns at a mailbox

The order in which the sleepers and the reader of a mailbox go on. Who was started or woke up first
goes on first. Time passes only when the reader sleeps or waits and nobody is ready, and then
straight to the next moment at which anyone wakes up. At that moment the reader goes on first if it
was to wake up then. While the reader waits, those who are ready go on in batches, and it looks for
an event after each batch.

This is one order of the many that `Mailbox.Move` leaves open.
-/

namespace CoEdit.Mailbox

variable {E : Type}

/-- Puts a sleeper behind everyone due no later. -/
def place (s : Sleeper E) : List (Sleeper E) → List (Sleeper E)
  | [] => [s]
  | t :: rest => if s.due < t.due then s :: t :: rest else t :: place s rest

/-- A sleeper was told to leave and finds that it is due as well. It leaves if the draw says so, or
if there is none. -/
def race (m : Mailbox E) (s : Sleeper E) : Mailbox E :=
  let drawn := { m with draws := m.draws.tail }
  if m.draws.headD true then drawn else drawn.post s.event

/-- A sleeper goes on: it posts if it is due, leaves if it was told to, and goes to sleep otherwise.
-/
def goOn (m : Mailbox E) (s : Sleeper E) : Mailbox E :=
  if s.due ≤ m.now then if s.isDismissed then m.race s else m.post s.event
  else if s.isDismissed then m
  else { m with asleep := place s m.asleep }

@[simp] theorem post_ready (m : Mailbox E) (e : E) : (m.post e).ready = m.ready := by
  unfold post; split <;> rfl

@[simp] theorem race_ready (m : Mailbox E) (s : Sleeper E) : (m.race s).ready = m.ready := by
  unfold race; split
  · rfl
  · exact post_ready ..

@[simp] theorem goOn_ready (m : Mailbox E) (s : Sleeper E) : (m.goOn s).ready = m.ready := by
  unfold goOn; split <;> split <;> simp

theorem foldl_goOn_ready (ss : List (Sleeper E)) (m : Mailbox E) :
    (ss.foldl goOn m).ready = m.ready := by
  induction ss generalizing m with
  | nil => rfl
  | cons s ss ih => simp [ih]

/-- As many go on before the reader may. -/
def batch : Nat := 61

def turn (m : Mailbox E) : Mailbox E :=
  (m.ready.take batch).foldl goOn { m with ready := m.ready.drop batch }

theorem turn_ready (m : Mailbox E) : m.turn.ready = m.ready.drop batch := foldl_goOn_ready ..

/-- Batches go on until nobody is ready or, after some batch, `stop` holds. -/
def turns (stop : Mailbox E → Bool) (m : Mailbox E) : Mailbox E :=
  if m.ready.isEmpty || stop m then m else turns stop m.turn
termination_by m.ready.length
decreasing_by
  have : m.ready ≠ [] := by simp_all
  have := List.length_pos_iff.2 this
  simp [turn_ready, batch]; omega

def wakeAt (time : Nat) (m : Mailbox E) : Mailbox E :=
  { m with
    now := time
    ready := m.ready ++ m.asleep.takeWhile (·.due ≤ time)
    asleep := m.asleep.dropWhile (·.due ≤ time) }

def nextDue (m : Mailbox E) : Option Nat := m.asleep.head?.map (·.due)

/-- Everyone goes on until `stop` holds, at all the moments before `time` at which anyone wakes up
but no more than `limit` of them. -/
def passTo (stop : Mailbox E → Bool) (time : Nat) : Nat → Mailbox E → Mailbox E
  | 0, m => turns stop m
  | limit + 1, m =>
    let m := turns stop m
    if stop m then m
    else match m.nextDue with
      | some due => if due < time then passTo stop time limit (wakeAt (max m.now due) m) else m
      | none => m

/-- Everyone goes on until `stop` holds, at all the moments before `time`. Whoever woke up posts, so
there are no more moments than sleepers. -/
def pass (stop : Mailbox E → Bool) (time : Nat) (m : Mailbox E) : Mailbox E :=
  passTo stop time (m.ready.length + m.asleep.length) m

/-! ## The reader -/

def step (m : Mailbox E) : Mailbox E := { m with steps := m.steps - 1 }

def resume (m : Mailbox E) : Mailbox E := { m with steps := stretch - 1 }

def pause (m : Mailbox E) : Mailbox E := { m.turn with steps := stretch }

def rested (m : Mailbox E) : Mailbox E := if m.steps = 0 then m.pause else m

/-- The reader sleeps. Without a delay it only takes a step. -/
def sleep (m : Mailbox E) (delay : Nat) : Mailbox E :=
  let m := m.rested
  if delay = 0 then m.step
  else
    let time := m.wakeTime delay
    (wakeAt time (pass (fun _ => false) time m)).resume

def hasEvent (m : Mailbox E) : Bool := !m.events.isEmpty

/-- What a wait for an event comes to. -/
inductive Receipt (E : Type) where
  | event (e : E) (m : Mailbox E)
  | timeUp (m : Mailbox E)
deriving Repr

/-- The reader, without an event to take, waits for one. If one comes at the moment `limit`, the
reader has given up before. -/
def await (limit : Nat) (m : Mailbox E) : Receipt E :=
  if limit ≤ m.now then .timeUp m.step
  else
    let m := pass hasEvent limit m
    match m.events with
    | e :: events => .event e { m with events }.resume
    | [] => .timeUp (wakeAt limit m).resume

/-- The reader takes the next event, or gives up when the time is `limit`. If its stretch runs out
in the middle of a wait it gives up when the time is up, and pauses otherwise; a wait that begins
without any steps left begins with a pause. -/
def receive (limit : Nat) (isFirst : Bool) (m : Mailbox E) : Receipt E :=
  if m.steps = 0 ∧ !isFirst ∧ limit ≤ m.now then .timeUp m
  else
    let m := m.rested
    match m.events with
    | e :: events => .event e { m with events }.step
    | [] => m.await limit

end CoEdit.Mailbox
