import CoEdit.Channel.Effect
import CoEdit.Channel.Phase
import CoEdit.Queue

/-!
# Channels

The client end of a session. Local operations go in through `send`, transformed remote ones come out
of `receive`, and everything asynchronous arrives through `handle`. The channel batches local
operations, confirms a batch from its response or from its echoes, and after a failure that is worth
another attempt waits, asks for the server's revision and resends the batch if deliveries up to that
revision did not confirm it.

A call answers with the channel after it and the effects it asks for. An event whose token is not
live is ignored.
-/

namespace CoEdit

namespace Channel

structure Stats where
  submits : Nat := 0
  /-- Batches submitted again after a resync. -/
  resends : Nat := 0
  probes : Nat := 0
  /-- Submits and probes that failed but are worth another attempt. -/
  retryableFailures : Nat := 0
  /-- Operations confirmed by a submit response. -/
  eagerAcks : Nat := 0
  directAcks : Nat := 0
  /-- Echoes of operations that were already confirmed. -/
  duplicateAcks : Nat := 0
  remoteOps : Nat := 0
deriving DecidableEq, Repr

structure Connection where
  session : Session
  token : Token
deriving DecidableEq, Repr

end Channel

structure Channel (M : Type) where
  queue : Queue M := {}
  connection : Option Channel.Connection := none
  phase : Channel.Phase := .uninitialised
  tokens : TokenSource := {}
  stats : Channel.Stats := {}
deriving DecidableEq, Repr

namespace Channel

variable {M : Type}

abbrev Reaction (M : Type) := Channel M × List (Effect M)

def idle (c : Channel M) : Checked (Reaction M) := .ok (c, [])

def state (c : Channel M) : State := c.phase.state

def isConnected (c : Channel M) : Bool := c.connection.isSome

def isClean (c : Channel M) : Bool := c.queue.isClean

def session? (c : Channel M) : Option Session := c.connection.map (·.session)

/-- The first way in which the channel's data contradict its state. -/
def violation (c : Channel M) : Option Violation :=
  match c.phase with
  | .uninitialised =>
    if c.connection.isSome then some .sessionHeld
    else if !c.isClean || !c.queue.pending.isEmpty then some .operationsHeld
    else none
  | .allAcked sendTask =>
    if c.connection.isNone then some .noSession
    else if !c.queue.unacked.isEmpty then some .unackedWhileAcked
    else if sendTask.isSome && c.queue.queued.isEmpty then some .sendWithoutQueue
    else none
  | .waitingAck .. | .delayResync _ | .waitingSync .. =>
    if c.connection.isNone then some .flightWithoutSession
    else if c.queue.unacked.isEmpty then some .flightWithoutBatch
    else none

/-- Enters a phase, which must be an allowed move and consistent with the channel's data. -/
def enter (c : Channel M) (phase : Phase) : Checked (Channel M) :=
  let c' := { c with phase }
  if c.state.canMoveTo c'.state then
    match c'.violation with
    | none => .ok c'
    | some v => .error (.violated v c'.state)
  else .error (.forbiddenMove c.state c'.state)

/-- Lets go of what the phase waits for: its task is cancelled, an unanswered request disregarded.
-/
def Phase.release : Phase → List (Effect M)
  | .allAcked (some id) => [.cancel id]
  | .waitingAck submit _ _ false => [.disregard submit]
  | .delayResync timer => [.cancel timer]
  | .waitingSync probe false _ => [.disregard probe]
  | _ => []

def shutdown (c : Channel M) : Checked (Reaction M) := do
  let c' ← enter { c with connection := none, queue := {} } .uninitialised
  return (c', c.phase.release ++ [.unsubscribe])

def fail (c : Channel M) (error : Error) : Checked (Reaction M) := do
  let (c, effects) ← c.shutdown
  return (c, effects ++ [.failed error])

/-- Schedules a transmission if operations are queued, nothing is in flight and none is scheduled
yet. -/
def scheduleSend (c : Channel M) : Checked (Reaction M) :=
  match c.phase with
  | .allAcked none =>
    if c.queue.queued.isEmpty || !c.queue.unacked.isEmpty then c.idle
    else do
      let (id, tokens) ← c.tokens.mint
      return ({ c with tokens, phase := .allAcked (some id) }, [.schedule ⟨id, .maybeSend⟩])
  | _ => c.idle

def transmit (c : Channel M) : Checked (Reaction M) := do
  let (submit, tokens) ← c.tokens.mint
  let ops := c.queue.unacked
  let base := c.queue.revision
  let c ← enter { c with tokens } (.waitingAck submit base ops.length false)
  return (c, [.submit submit base ops])

def maybeSend (c : Channel M) (id : Token) : Checked (Reaction M) :=
  match c.phase with
  | .allAcked (some live) =>
    if live ≠ id then c.idle
    else
      let c := { c with phase := .allAcked none }
      if !c.queue.unacked.isEmpty || c.queue.queued.isEmpty then c.idle
      else do
        let queue ← c.queue.launch
        transmit { c with queue, stats := { c.stats with submits := c.stats.submits + 1 } }
  | _ => c.idle

def scheduleResync (c : Channel M) : Checked (Reaction M) := do
  let (timer, tokens) ← c.tokens.mint
  let c ← enter { c with tokens } (.delayResync timer)
  return (c, [.scheduleAfterDelay ⟨timer, .resync⟩])

def startProbe (c : Channel M) (id : Token) : Checked (Reaction M) :=
  match c.phase with
  | .delayResync timer =>
    if timer ≠ id then c.idle
    else do
      let (probe, tokens) ← c.tokens.mint
      let stats := { c.stats with probes := c.stats.probes + 1 }
      let c ← enter { c with tokens, stats } (.waitingSync probe false none)
      return (c, [.probe probe])
  | _ => c.idle

def allAcknowledged (c : Channel M) : Checked (Reaction M) := do
  let (c', effects) ← (← c.enter (.allAcked none)).scheduleSend
  return (c', c.phase.release ++ .resetBackoff :: effects)

/-- Confirms the batch from its response alone if the server applied it right at its base. If
another session came in between, the echoes decide. -/
def acknowledgeEagerly (c : Channel M) (applied base : Revision) (batch : Nat) :
    Checked (Reaction M) :=
  if applied.since base ≠ some batch then c.idle
  else do
    match ← c.queue.ackBatch applied with
    | (none, _) => c.idle
    | (some ops, queue) =>
      let stats := { c.stats with eagerAcks := c.stats.eagerAcks + ops.length }
      let (c, effects) ← allAcknowledged { c with queue, stats }
      return (c, effects ++ ackedAll c.isClean ops)

def onFailure (c : Channel M) : ServiceError → Checked (Reaction M)
  | .retryable _ => scheduleResync
      { c with stats := { c.stats with retryableFailures := c.stats.retryableFailures + 1 } }
  | .fatal message => c.fail (.server message)

def onSubmitResponse (c : Channel M) (token : Token) (result : Except ServiceError Revision) :
    Checked (Reaction M) :=
  match c.phase with
  | .waitingAck submit base batch false =>
    if submit ≠ token then c.idle
    else
      let c := { c with phase := .waitingAck submit base batch true }
      match result with
      | .ok applied => c.acknowledgeEagerly applied base batch
      | .error e => c.onFailure e
  | _ => c.idle

/-- Finishes a resync once every operation up to the probed revision was received: the batch in
flight either came back by then or was never applied. -/
def maybeSynced (c : Channel M) : Checked (Reaction M) :=
  match c.phase with
  | .waitingSync _ _ (some target) =>
    if c.queue.revision < target then c.idle
    else if c.queue.unacked.isEmpty then c.allAcknowledged
    else do
      let stats := { c.stats with resends := c.stats.resends + 1 }
      let (c, effects) ← transmit { c with stats }
      return (c, .resetBackoff :: effects)
  | _ => c.idle

def onProbeResponse (c : Channel M) (token : Token) (result : Except ServiceError Revision) :
    Checked (Reaction M) :=
  match c.phase with
  | .waitingSync probe false _ =>
    if probe ≠ token then c.idle
    else match result with
      | .ok revision => maybeSynced { c with phase := .waitingSync probe true (some revision) }
      | .error e => onFailure { c with phase := .waitingSync probe true none } e
  | _ => c.idle

def onEcho (c : Channel M) (revision : Revision) (op : M) :
    Checked (Except QueueError Unit × Reaction M) := do
  match ← c.queue.takeEcho revision with
  | (.error e, queue) => return (.error e, { c with queue }, [])
  | (.ok true, queue) =>
    let stats := { c.stats with duplicateAcks := c.stats.duplicateAcks + 1 }
    return (.ok (), { c with queue, stats }, [])
  | (.ok false, queue) =>
    match ← queue.ackOldest revision with
    | (.error e, queue) => return (.error e, { c with queue }, [])
    | (.ok emptied, queue) =>
      let stats := { c.stats with directAcks := c.stats.directAcks + 1 }
      let c := { c with queue, stats }
      let (c, effects) ← if emptied then c.allAcknowledged else c.idle
      return (.ok (), c, effects ++ [.acked op c.isClean])

def onRemote (x : Transformer M) (c : Channel M) (revision : Revision) (op : M) :
    Checked (Except QueueError Unit × Reaction M) := do
  match ← c.queue.serverOp x revision op with
  | (.error e, queue) => return (.error e, { c with queue }, [])
  | (.ok (), queue) =>
    let stats := { c.stats with remoteOps := c.stats.remoteOps + 1 }
    return (.ok (), { c with queue, stats }, [.remote op])

def onIncoming (x : Transformer M) (c : Channel M) (connection : Token)
    (message : Except ServiceError (Delivery M)) : Checked (Reaction M) :=
  match c.connection with
  | none => c.idle
  | some live =>
    if live.token ≠ connection then c.idle
    else match message with
      | .error e => c.fail (.receiveFailed e.text)
      | .ok d => do
        let (result, c, effects) ←
          if d.session = live.session then c.onEcho d.revision d.op
          else c.onRemote x d.revision d.op
        let (c, more) ← match result with
          | .ok () => c.maybeSynced
          | .error e => c.fail (.queue e)
        return (c, effects ++ more)

def handle (x : Transformer M) (c : Channel M) : Event M → Checked (Reaction M)
  | .task ⟨id, .maybeSend⟩ => c.maybeSend id
  | .task ⟨id, .resync⟩ => c.startProbe id
  | .submitResponse token result => c.onSubmitResponse token result
  | .probeResponse token result => c.onProbeResponse token result
  | .incoming connection message => c.onIncoming x connection message

/-! ## Calls -/

def connect (c : Channel M) (revision : Revision) (session : Session) :
    Checked (Except Error Unit × Reaction M) :=
  if c.isConnected then .ok (.error .alreadyConnected, c, [])
  else do
    let (token, tokens) ← c.tokens.mint
    let connection := some ⟨session, token⟩
    let c ← enter { c with tokens, connection, queue := .start revision } (.allAcked none)
    return (.ok (), c, [.resetBackoff, .subscribe token revision])

def disconnect (c : Channel M) : Checked (Except Error Unit × Reaction M) :=
  if c.isConnected then do return (.ok (), ← c.shutdown)
  else .ok (.error .notConnected, c, [])

/-- Stages an operation that the caller already applied to its own document. Transmission is
deferred, so several calls in a row end up in one batch. An operation that cannot be reconciled with
what is pending ends the session. -/
def send (x : Transformer M) (c : Channel M) (op : M) : Checked (Except Error Unit × Reaction M) :=
  if c.isConnected then do
    match ← c.queue.clientOp x op with
    | (.error e, queue) => return (.error (.queue e), ← shutdown { c with queue })
    | (.ok (), queue) => return (.ok (), ← scheduleSend { c with queue })
  else .ok (.error .notConnected, c, [])

def revision (c : Channel M) : Except Error Revision :=
  if c.isConnected then .ok c.queue.revision else .error .notConnected

def peek (c : Channel M) : Except Error (Option M) :=
  if c.isConnected then .ok c.queue.peek else .error .notConnected

def receive (c : Channel M) : Except Error (Option M) × Channel M :=
  if c.isConnected then
    let (op, queue) := c.queue.receive
    (.ok op, { c with queue })
  else (.error .notConnected, c)

def receiveAll (c : Channel M) : List M × Channel M :=
  if c.isConnected then (c.queue.pending, { c with queue := { c.queue with pending := [] } })
  else ([], c)

def summary (c : Channel M) : String :=
  let session := c.session?.elim "-" (·.id)
  s!"[{session}] {c.state.name} rev={c.queue.revision} queued={c.queue.queued.length} " ++
    s!"unacked={c.queue.unacked.length} pending={c.queue.pending.length}"

end Channel

end CoEdit
