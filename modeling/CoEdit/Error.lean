import CoEdit.Delivery

/-!
# Errors

What a caller of a queue or a channel is told, by cause, with the wording of each cause in one
place.
-/

namespace CoEdit

/-- A transformer's refusal to reconcile two lists of operations. -/
structure TransformError where
  reason : String
deriving DecidableEq, Repr

def TransformError.message (e : TransformError) : String := "transform rejected: " ++ e.reason

/-- Something inconsistent with the server's total order was fed to a queue. -/
inductive QueueError where
  | revisionGap (expected actual : Revision)
  | nothingToAck (revision : Revision)
  /-- The echo of an eagerly acknowledged operation with another revision than the next one due. -/
  | unexpectedEcho (expected actual : Revision)
  /-- Another operation while echoes of eagerly acknowledged ones are still due. -/
  | echoesOutstanding (count : Nat) (revision : Revision)
  | transform (cause : TransformError)
deriving DecidableEq, Repr

def QueueError.message : QueueError → String
  | revisionGap expected actual => s!"expected revision {expected}, got {actual}"
  | nothingToAck revision =>
    s!"acknowledgment at revision {revision} with no unacknowledged operations"
  | unexpectedEcho expected actual =>
    s!"expected echo of eagerly acknowledged operation at revision {expected}, got {actual}"
  | echoesOutstanding count revision =>
    s!"{count} eagerly acknowledged echoes still expected at revision {revision}"
  | transform cause => cause.message

inductive Error where
  | notConnected
  | alreadyConnected
  | invalidSession (id : String)
  | invalidRevision (text : String)
  | queue (cause : QueueError)
  | server (message : String)
  | receiveFailed (message : String)
  | config (problem : String)
deriving DecidableEq, Repr

def Error.message : Error → String
  | notConnected =>
    "channel is not connected\n  hint: call connect() with a revision and session id first"
  | alreadyConnected =>
    "channel is already connected\n  hint: disconnect() before connecting again"
  | invalidSession id => s!"invalid session id: '{id}'\n  hint: session ids must be non-empty"
  | invalidRevision text =>
    s!"invalid revision: '{text}'\n  hint: revisions are non-negative integers"
  | queue cause => "queue error: " ++ cause.message
  | server message => "server rejected request: " ++ message
  | receiveFailed message => "receive channel failed: " ++ message
  | config problem => "invalid configuration: " ++ problem

def Revision.ofText (s : String) : Except Error Revision :=
  match ofText? s with
  | some r => .ok r
  | none => .error (.invalidRevision s)

def Session.ofText (id : String) : Except Error Session :=
  match ofText? id with
  | some s => .ok s
  | none => .error (.invalidSession id)

end CoEdit
