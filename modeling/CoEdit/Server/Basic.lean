import CoEdit.Channel.Effect
import CoEdit.Doc.CharOp
import CoEdit.Random.Source
import CoEdit.Server.Faults

/-!
# The server

The server imposes a total order on every client's operations. Its revision is the length of its
history. A submitted batch is transformed past whatever was applied since its base and is applied as
a whole or not at all; every applied operation is relayed to every open connection, its author's
included.

Responses and deliveries arrive after a random latency, deliveries of one connection never out of
order. A request answers with the postings it causes, in the order in which they are put on the
clients' timelines.
-/

namespace CoEdit

namespace Server

structure Stats where
  submits : Nat := 0
  appliedOps : Nat := 0
  droppedBeforeApply : Nat := 0
  droppedAfterApply : Nat := 0
  probes : Nat := 0
  failedProbes : Nat := 0
  rejected : Nat := 0
  /-- Requests whose outcome the client no longer wants. -/
  abandoned : Nat := 0
deriving DecidableEq, Repr

structure Link where
  session : Session
  /-- The open connection, if any. -/
  connection : Option Token := none
  /-- When the latest delivery is due. -/
  lastDelivery : Nat := 0
deriving DecidableEq, Repr

inductive Rejection where
  /-- The batch was made at a revision that the server has not reached. -/
  | ahead (base current : Revision)
  | transform (cause : TransformError)
  /-- An edit of the transformed batch has no place in the document. -/
  | edit (cause : DocError)
deriving DecidableEq, Repr

def Rejection.message : Rejection → String
  | ahead base current => s!"base revision {base} is ahead of server revision {current}"
  | transform cause => cause.message
  | edit cause => cause.message

structure Posting where
  client : Nat
  due : Nat
  event : Event CharOp
deriving Repr

end Server

structure Server (R : Type) where
  history : List (Delivery CharOp) := []
  doc : Doc := {}
  links : List Server.Link := []
  faults : Server.Faults
  random : R
  stats : Server.Stats := {}
deriving Repr

namespace Server

variable {R : Type}

def revision (s : Server R) : Revision := ⟨s.history.length⟩

/-- The batch as it is to be applied and the document after it. Nothing is applied if any edit has
no place. -/
def judge (s : Server R) (base : Revision) (ops : List CharOp) :
    Checked (Except Rejection (List CharOp × Doc)) :=
  if s.revision < base then .ok (.error (.ahead base s.revision))
  else do
    let concurrent := (s.history.drop base.number).map (·.op)
    match ← Transformer.run CharOp.transform ops concurrent with
    | .error e => return .error (.transform e)
    | .ok t =>
      match s.doc.applyAll (edits t.client) with
      | .error e => return .error (.edit e)
      | .ok doc => return .ok (t.client, doc)

variable [RandomSource R]

abbrev Outcome (R : Type) := List Posting × Server R

def latency (s : Server R) : Checked (Nat × Server R) :=
  let (lo, hi) := (s.faults.minLatencyMs, s.faults.maxLatencyMs)
  if lo > hi then .error .emptyRange
  else
    let (ms, random) := Random.between lo hi s.random
    .ok (ms, { s with random })

def respond (s : Server R) (client now : Nat) (event : Event CharOp) : Checked (Outcome R) := do
  let (ms, s) ← s.latency
  return ([⟨client, ← Checked.addTime now ms, event⟩], s)

/-- Relays an operation to a client, behind its earlier deliveries. A client without a connection is
skipped, after its latency was drawn. -/
def relay (s : Server R) (client now : Nat) (d : Delivery CharOp) : Checked (Outcome R) := do
  let (ms, s) ← s.latency
  match s.links[client]? with
  | some { session, connection := some connection, lastDelivery } =>
    let due := max (← Checked.addTime now ms) lastDelivery
    let links := s.links.set client { session, connection := some connection, lastDelivery := due }
    return ([⟨client, due, .incoming connection (.ok d)⟩], { s with links })
  | _ => return ([], s)

def each {α : Type} (step : Server R → α → Checked (Outcome R)) (s : Server R) :
    List α → Checked (Outcome R)
  | [] => .ok ([], s)
  | a :: rest => do
    let (posts, s) ← step s a
    let (more, s) ← each step s rest
    return (posts ++ more, s)

/-- Enters an operation into the history and relays it to every client. -/
def append (s : Server R) (now : Nat) (session : Session) (op : CharOp) : Checked (Outcome R) := do
  let d : Delivery CharOp := ⟨← s.revision.next, session, op⟩
  let stats := { s.stats with appliedOps := s.stats.appliedOps + 1 }
  let s := { s with history := s.history ++ [d], stats }
  s.each (fun s client => s.relay client now d) (List.range s.links.length)

/-- Refuses a submit that would not take effect, and answers with the revision it led to otherwise.
-/
def apply (s : Server R) (now : Nat) (session : Session) (base : Revision) (ops : List CharOp) :
    Checked (Except Rejection Revision × Outcome R) := do
  match ← s.judge base ops with
  | .error e =>
    let stats := { s.stats with rejected := s.stats.rejected + 1 }
    return (.error e, [], { s with stats })
  | .ok (ops, doc) =>
    let (posts, s) ← each (fun s op => s.append now session op) { s with doc } ops
    return (.ok s.revision, posts, s)

def requestLost : ServiceError := .retryable "request lost"

def responseLost : ServiceError := .retryable "response lost"

def probeTimedOut : ServiceError := .retryable "probe timed out"

/-- A client submits a batch. One random fraction decides whether the request or else the response
is lost; a refusal is never lost on its way back. -/
def submit (s : Server R) (client now : Nat) (session : Session) (token : Token) (base : Revision)
    (ops : List CharOp) : Checked (Outcome R) := do
  let (roll, random) := Random.fraction s.random
  let stats := { s.stats with submits := s.stats.submits + 1 }
  if roll < s.faults.dropBeforeApply then
    let stats := { stats with droppedBeforeApply := stats.droppedBeforeApply + 1 }
    respond { s with random, stats } client now (.submitResponse token (.error requestLost))
  else
    let (result, posts, s) ← apply { s with random, stats } now session base ops
    let (answer, s) : Except ServiceError Revision × Server R :=
      match result with
      | .error e => (.error (.fatal e.message), s)
      | .ok revision =>
        if roll < s.faults.dropBeforeApply + s.faults.dropAfterApply then
          let stats := { s.stats with droppedAfterApply := s.stats.droppedAfterApply + 1 }
          (.error responseLost, { s with stats })
        else (.ok revision, s)
    let (answers, s) ← s.respond client now (.submitResponse token answer)
    return (posts ++ answers, s)

def probe (s : Server R) (client now : Nat) (token : Token) : Checked (Outcome R) :=
  let (roll, random) := Random.fraction s.random
  let stats := { s.stats with probes := s.stats.probes + 1 }
  if roll < s.faults.probeFailure then
    let stats := { stats with failedProbes := stats.failedProbes + 1 }
    respond { s with random, stats } client now (.probeResponse token (.error probeTimedOut))
  else respond { s with random, stats } client now (.probeResponse token (.ok s.revision))

/-- A client opens a connection, replacing the one it had, and is sent what was applied after
`revision`. -/
def subscribe (s : Server R) (client now : Nat) (session : Session) (connection : Token)
    (revision : Revision) : Checked (Outcome R) :=
  let links := s.links.set client { session, connection := some connection, lastDelivery := now }
  each (fun s d => s.relay client now d) { s with links } (s.history.drop revision.number)

def unsubscribe (s : Server R) (client : Nat) : Server R :=
  { s with links := s.links.modify client fun l => { l with connection := none } }

/-- Serves an effect of a client's channel. What does not concern the server changes nothing. -/
def serve (s : Server R) (client now : Nat) (effect : Effect CharOp) : Checked (Outcome R) :=
  match s.links[client]?, effect with
  | some l, .submit token base ops => s.submit client now l.session token base ops
  | some _, .probe token => s.probe client now token
  | some _, .disregard _ =>
    .ok ([], { s with stats := { s.stats with abandoned := s.stats.abandoned + 1 } })
  | some l, .subscribe connection revision => s.subscribe client now l.session connection revision
  | some _, .unsubscribe => .ok ([], s.unsubscribe client)
  | _, _ => .ok ([], s)

def start (faults : Faults) (sessions : List Session) (random : R) : Server R :=
  { links := sessions.map fun session => { session }, faults, random }

end Server

end CoEdit
