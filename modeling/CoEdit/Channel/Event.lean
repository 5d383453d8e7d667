import CoEdit.Delivery
import CoEdit.Token

/-!
# Events

Everything a channel reacts to: a task it scheduled, the outcome of a request, a delivery. Each
carries the token that the channel gave out for it.
-/

namespace CoEdit

inductive TaskKind where
  | maybeSend
  | resync
deriving DecidableEq, Repr

def TaskKind.name : TaskKind → String
  | maybeSend => "maybe_send"
  | resync => "resync"

structure Task where
  id : Token
  kind : TaskKind
deriving DecidableEq, Repr

inductive Event (M : Type) where
  | task (task : Task)
  /-- The outcome of a submit: the revision of its last operation. -/
  | submitResponse (token : Token) (result : Except ServiceError Revision)
  /-- The outcome of a probe: the server's revision. -/
  | probeResponse (token : Token) (result : Except ServiceError Revision)
  | incoming (connection : Token) (message : Except ServiceError (Delivery M))
deriving Repr

def Event.task? {M : Type} : Event M → Option Task
  | task t => some t
  | _ => none

end CoEdit
