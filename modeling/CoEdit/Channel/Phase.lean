import CoEdit.Channel.State
import CoEdit.Revision
import CoEdit.Token

/-!
# Phases

A phase is a state together with the data that only this state carries: the tokens that are live in
it and what is known about the request in flight.
-/

namespace CoEdit.Channel

inductive Phase where
  | uninitialised
  /-- `sendTask` is the scheduled transmission, if any. -/
  | allAcked (sendTask : Option Token)
  /-- A batch of `batch` operations was submitted at `base`; `answered` once its response came
  without confirming it. -/
  | waitingAck (submit : Token) (base : Revision) (batch : Nat) (answered : Bool)
  | delayResync (timer : Token)
  /-- `target` is the revision that the probe reported, once it did. -/
  | waitingSync (probe : Token) (answered : Bool) (target : Option Revision)
deriving DecidableEq, Repr

namespace Phase

def state : Phase → State
  | uninitialised => .uninitialised
  | allAcked _ => .allAcked
  | waitingAck .. => .waitingAck
  | delayResync _ => .delayResync
  | waitingSync .. => .waitingSync

end Phase

end CoEdit.Channel
