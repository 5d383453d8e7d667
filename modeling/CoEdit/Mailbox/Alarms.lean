import CoEdit.Channel.Event
import CoEdit.Mailbox.Turns

/-!
# Alarms

A channel's tasks on a mailbox. A task is posted at once or left with a sleeper as an alarm that can
be cancelled by the task's id until it goes off. An alarm set under an id that is in use hides the
earlier one, which still goes off.
-/

namespace CoEdit

/-- A mailbox and the sleeper that stands behind each id. -/
structure Alarms (M : Type) where
  mailbox : Mailbox (Event M) := {}
  serials : List (Token × Nat) := []
deriving Repr

namespace Alarms

variable {M : Type}

/-- Posts a task at once. It cannot be cancelled. -/
def schedule (a : Alarms M) (task : Task) : Alarms M :=
  { a with mailbox := a.mailbox.post (.task task) }

/-- The ids behind which an alarm is still to go off, and the sleepers that stand behind them. -/
def live (a : Alarms M) : List (Token × Nat) := a.serials.filter fun x => a.mailbox.isPending x.2

/-- Sets an alarm. Ids behind which none is still to go off are forgotten meanwhile. -/
def scheduleAfter (a : Alarms M) (delay : Nat) (task : Task) : Alarms M :=
  let (serial, mailbox) := a.mailbox.start delay (.task task)
  { mailbox, serials := (task.id, serial) :: a.live.filter (·.1 != task.id) }

def cancel (a : Alarms M) (id : Token) : Alarms M :=
  match a.serials.lookup id with
  | none => a
  | some serial =>
    { mailbox := a.mailbox.dismiss serial, serials := a.serials.filter (·.1 != id) }

/-- The owner of the alarms lets go of them. -/
def cancelAll (a : Alarms M) : Alarms M :=
  { mailbox := a.serials.foldl (fun m (_, serial) => m.dismiss serial) a.mailbox, serials := [] }

/-- How many alarms behind ids are still to go off. -/
def pending (a : Alarms M) : Nat := a.live.length

end Alarms

end CoEdit
