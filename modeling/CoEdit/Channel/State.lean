/-!
# States of a channel

What an observer sees of a channel, and which state may follow which. Dropping back to
`uninitialised` is always allowed; `targets` lists the forward moves.
-/

namespace CoEdit.Channel

inductive State where
  | uninitialised
  | allAcked
  | waitingAck
  /-- A submit or probe failed; the next probe waits for its delay to pass. -/
  | delayResync
  | waitingSync
deriving DecidableEq, Repr

namespace State

def name : State → String
  | uninitialised => "uninitialised"
  | allAcked => "all_acked"
  | waitingAck => "waiting_ack"
  | delayResync => "delay_resync"
  | waitingSync => "waiting_sync"

def all : List State := [uninitialised, allAcked, waitingAck, delayResync, waitingSync]

def ofName? (s : String) : Option State := all.find? (·.name == s)

/-- Forward moves out of a state. -/
def targets : State → List State
  | uninitialised => [allAcked]
  | allAcked => [waitingAck]
  | waitingAck => [allAcked, delayResync]
  | delayResync => [allAcked, waitingSync]
  | waitingSync => [allAcked, waitingAck, delayResync]

def canMoveTo (a b : State) : Bool := b == uninitialised || a.targets.contains b

def isConnected (s : State) : Bool := s != uninitialised

end State

inductive Violation where
  | sessionHeld
  | operationsHeld
  | noSession
  | unackedWhileAcked
  | sendWithoutQueue
  | flightWithoutSession
  | flightWithoutBatch
deriving DecidableEq, Repr

def Violation.message : Violation → String
  | sessionHeld => "uninitialised channel holds a session"
  | operationsHeld => "uninitialised channel holds operations"
  | noSession => "all_acked without a session"
  | unackedWhileAcked => "all_acked with unacknowledged operations"
  | sendWithoutQueue => "send scheduled with nothing queued"
  | flightWithoutSession => "in flight without a session"
  | flightWithoutBatch => "in flight with nothing unacknowledged"

end CoEdit.Channel
