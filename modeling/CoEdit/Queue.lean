import CoEdit.Transform

/-!
# The transform queue

The buffers of one connected session and its confirmed revision:

    send → queued → in flight (`unacked`) → confirmed
    server → transformed past `unacked` and `queued` → pending → receive

Buffered local operations are kept relative to the confirmed revision, so a remote operation is
transformed exactly once against whatever is buffered and never replayed against history. An
operation that fails leaves the buffers it had already handed to the transformer empty.
-/

namespace CoEdit

/-- The buffers of one session. -/
structure Queue (M : Type) where
  /-- Every operation up to this revision is reflected in the buffers. -/
  revision : Revision := .zero
  /-- Accepted locally, not yet transmitted. -/
  queued : List M := []
  /-- Transmitted, not yet confirmed. -/
  unacked : List M := []
  /-- Transformed remote operations, not yet received. -/
  pending : List M := []
  /-- Echoes still to come for operations that were acknowledged eagerly. -/
  expectedEchoes : Nat := 0
deriving DecidableEq, Repr

/-- What an operation on a queue answers, and the queue after it. -/
abbrev Queue.Reply (M α : Type) := Except QueueError α × Queue M

namespace Queue

variable {M : Type}

def start (revision : Revision) : Queue M := { revision }

def isClean (q : Queue M) : Bool := q.queued.isEmpty && q.unacked.isEmpty

/-- Stages a local operation. It was made against a document without the pending remote operations,
so those are moved past it. -/
def clientOp (x : Transformer M) (q : Queue M) (op : M) : Checked (Reply M Unit) :=
  if q.pending.isEmpty then .ok (.ok (), { q with queued := q.queued ++ [op] })
  else do
    match ← x.run [op] q.pending with
    | .error e => return (.error (.transform e), { q with pending := [] })
    | .ok t => return (.ok (), { q with queued := q.queued ++ t.client, pending := t.server })

def launch (q : Queue M) : Checked (Queue M) :=
  if q.unacked.isEmpty then .ok { q with queued := [], unacked := q.queued }
  else .error .batchInFlight

def atNext {α : Type} (q : Queue M) (revision : Revision) (k : Checked (Reply M α)) :
    Checked (Reply M α) := do
  let expected ← q.revision.next
  if revision = expected then k else return (.error (.revisionGap expected revision), q)

def withoutEchoes {α : Type} (q : Queue M) (k : Checked (Reply M α)) : Checked (Reply M α) :=
  if q.expectedEchoes = 0 then k
  else .ok (.error (.echoesOutstanding q.expectedEchoes q.revision), q)

/-- Accepts the operation that another session applied at `revision`. It comes before every buffered
local operation, so it is moved past the batch in flight and then past the queued operations. -/
def serverOp (x : Transformer M) (q : Queue M) (revision : Revision) (op : M) :
    Checked (Reply M Unit) :=
  q.withoutEchoes <| q.atNext revision do
    match ← x.past q.unacked [op] with
    | .error e => return (.error (.transform e), { q with unacked := [] })
    | .ok flight =>
      match ← x.past q.queued flight.server with
      | .error e => return (.error (.transform e), { q with unacked := flight.client, queued := [] })
      | .ok rest =>
        return (.ok (), { q with
          revision
          unacked := flight.client
          queued := rest.client
          pending := q.pending ++ rest.server })

/-- Whether the echo at `revision` belongs to an operation acknowledged eagerly; if so the echo is
no longer due. -/
def takeEcho (q : Queue M) (revision : Revision) : Checked (Reply M Bool) :=
  if q.expectedEchoes = 0 then .ok (.ok false, q)
  else do
    let expected : Revision := ⟨← Checked.sub (← Checked.add q.revision.number 1) q.expectedEchoes⟩
    if revision = expected then
      return (.ok true, { q with expectedEchoes := q.expectedEchoes - 1 })
    else return (.error (.unexpectedEcho expected revision), q)

/-- Confirms the oldest operation in flight at `revision`; answers whether the batch is now empty.
-/
def ackOldest (q : Queue M) (revision : Revision) : Checked (Reply M Bool) :=
  q.withoutEchoes <| q.atNext revision <|
    match q.unacked with
    | [] => .ok (.error (.nothingToAck revision), q)
    | _ :: rest => .ok (.ok rest.isEmpty, { q with revision, unacked := rest })

/-- Confirms the whole batch in flight if the server applied it back to back up to `applied`, that
is if it is as long as the way from the confirmed revision to `applied`. Its echoes are then still
due. -/
def ackBatch (q : Queue M) (applied : Revision) : Checked (Option (List M) × Queue M) :=
  if q.unacked.isEmpty || applied.since q.revision != some q.unacked.length then .ok (none, q)
  else do
    let expectedEchoes ← Checked.add q.expectedEchoes q.unacked.length
    return (some q.unacked, { q with revision := applied, unacked := [], expectedEchoes })

def peek (q : Queue M) : Option M := q.pending.head?

def receive (q : Queue M) : Option M × Queue M :=
  (q.pending.head?, { q with pending := q.pending.tail })

def summary (q : Queue M) : String :=
  s!"TransformQueue \x7b revision: Revision({q.revision}), queued: {q.queued.length}, " ++
    s!"unacked: {q.unacked.length}, server_ops: {q.pending.length}, " ++
    s!"expected_acks: {q.expectedEchoes} \x7d"

end Queue

end CoEdit
