import CoEdit.Backoff
import CoEdit.Channel.Basic
import CoEdit.Mailbox.Alarms
import CoEdit.Mailbox.Loopback

/-!
# Driving a channel from a mailbox

The reader of a mailbox hands its events to a channel, one after another, until a condition on the
channel holds or a time limit passes. The condition is tested before each event, the first one
included.
-/

namespace CoEdit

structure Drive (M R : Type) where
  channel : Channel M := {}
  backoff : Backoff R
  alarms : Alarms M := {}
  server : Loopback M
deriving Repr

namespace Drive

variable {M R : Type} [RandomSource R]

def now (d : Drive M R) : Nat := d.alarms.mailbox.now

def withMailbox (d : Drive M R) (mailbox : Mailbox (Event M)) : Drive M R :=
  { d with alarms := { d.alarms with mailbox } }

/-- Carries out an effect: on the alarms, by the backoff, or at the server. -/
def perform (d : Drive M R) (effect : Effect M) : Checked (Drive M R) :=
  match effect with
  | .schedule task => .ok { d with alarms := d.alarms.schedule task }
  | .scheduleAfterDelay task => do
    let (delay, backoff) ← d.backoff.next
    return { d with backoff, alarms := d.alarms.scheduleAfter delay task }
  | .cancel id => .ok { d with alarms := d.alarms.cancel id }
  | .resetBackoff => .ok { d with backoff := d.backoff.reset }
  | _ =>
    let (server, mailbox) := d.server.serve d.alarms.mailbox effect
    .ok ({ d with server }.withMailbox mailbox)

def settle (d : Drive M R) (r : Channel.Reaction M) : Checked (Drive M R) :=
  r.2.foldlM perform { d with channel := r.1 }

def call {α : Type} (d : Drive M R) (reply : Checked (α × Channel.Reaction M)) :
    Checked (α × List (Effect M) × Drive M R) := do
  let (answer, reaction) ← reply
  return (answer, reaction.2, ← d.settle reaction)

def applyRemote (d : Drive M R) (session : Session) (op : M) : Drive M R :=
  let (server, mailbox) := d.server.apply session d.alarms.mailbox op
  { d with server }.withMailbox mailbox

def sleep (d : Drive M R) (delay : Nat) : Drive M R := d.withMailbox (d.alarms.mailbox.sleep delay)

/-- The channel handles an event; answers the effects. -/
def handle (x : Transformer M) (event : Event M) (d : Drive M R) :
    Checked (List (Effect M) × Drive M R) := do
  let reaction ← d.channel.handle x event
  return (reaction.2, ← d.settle reaction)

/-- One turn of the loop: hands the next event to the channel, or answers. -/
def turn (x : Transformer M) (done : Channel M → Bool) (limit : Nat) :
    Bool × List (Effect M) × Drive M R →
      Checked ((Bool × List (Effect M) × Drive M R) ⊕ (Bool × List (Effect M) × Drive M R))
  | (isFirst, effects, d) =>
    if done d.channel then .ok (.inr (true, effects, d))
    else
      match d.alarms.mailbox.receive limit isFirst with
      | .timeUp mailbox => .ok (.inr (false, effects, d.withMailbox mailbox))
      | .event event mailbox => do
        let (more, d) ← (d.withMailbox mailbox).handle x event
        return .inl (false, effects ++ more, d)

/-- Hands events to the channel until `done` holds of it; answers whether it came to hold before
`limit`, with all effects from `effects` on. It goes on for as long as events come. -/
def loop (x : Transformer M) (done : Channel M → Bool) (limit : Nat) (isFirst : Bool)
    (effects : List (Effect M)) (d : Drive M R) : Checked (Bool × List (Effect M) × Drive M R) :=
  haveI : Nonempty (Bool × List (Effect M) × Drive M R) := ⟨isFirst, effects, d⟩
  repeatM (turn x done limit) (isFirst, effects, d)

theorem loop_eq (x : Transformer M) (done : Channel M → Bool) (limit : Nat) (isFirst : Bool)
    (effects : List (Effect M)) (d : Drive M R) :
    d.loop x done limit isFirst effects =
      if done d.channel then .ok (true, effects, d)
      else
        match d.alarms.mailbox.receive limit isFirst with
        | .timeUp mailbox => .ok (false, effects, d.withMailbox mailbox)
        | .event event mailbox => (d.withMailbox mailbox).handle x event >>= fun (more, d) =>
          d.loop x done limit false (effects ++ more) := by
  have : Nonempty (Bool × List (Effect M) × Drive M R) := ⟨isFirst, effects, d⟩
  unfold loop
  rw [repeatM_eq_of_monadTail]
  unfold repeatM.body turn
  dsimp only
  split
  · rfl
  · split
    · rfl
    · rw [bind_assoc]
      rfl

def driveFor (x : Transformer M) (done : Channel M → Bool) (duration : Nat) (d : Drive M R) :
    Checked (Bool × List (Effect M) × Drive M R) := d.loop x done (d.now + duration) true []

end Drive

end CoEdit
