import CoEdit.Server.Basic
import CoEdit.Timeline

/-!
# Networks

A server and one timeline per client, on which everything for the client waits: the server's
responses and deliveries and the client's own tasks.
-/

namespace CoEdit

structure Network (R : Type) where
  server : Server R
  timelines : List (Timeline CharOp)
deriving Repr

namespace Network

variable {R : Type}

def start (faults : Server.Faults) (sessions : List Session) (random : R) : Network R where
  server := Server.start faults sessions random
  timelines := sessions.map fun _ => {}

def now (n : Network R) (client : Nat) : Nat := n.timelines[client]?.elim 0 (·.now)

def modify (n : Network R) (client : Nat) (f : Timeline CharOp → Timeline CharOp) : Network R :=
  { n with timelines := n.timelines.modify client f }

def post (n : Network R) (p : Server.Posting) : Network R :=
  n.modify p.client (·.deliverAt p.due p.event)

def serve [RandomSource R] (n : Network R) (client : Nat) (effect : Effect CharOp) :
    Checked (Network R) := do
  let (posts, server) ← n.server.serve client (n.now client) effect
  return posts.foldl post { n with server }

/-- Takes the next event off a client's timeline, with the time it was due. -/
def advance (n : Network R) (client : Nat) : Option ((Nat × Event CharOp) × Network R) := do
  let t ← n.timelines[client]?
  let due ← t.nextDue
  let (event, t) ← t.advance
  return ((due, event), { n with timelines := n.timelines.set client t })

def advanceMany (client : Nat) : Nat → Network R → List (Nat × Event CharOp) × Network R
  | 0, n => ([], n)
  | limit + 1, n =>
    match n.advance client with
    | none => ([], n)
    | some (e, n) =>
      let (es, n) := advanceMany client limit n
      (e :: es, n)

def pending (n : Network R) (client : Nat) : Nat := n.timelines[client]?.elim 0 (·.pending)

def drain (n : Network R) (client : Nat) : List (Nat × Event CharOp) × Network R :=
  advanceMany client (n.pending client) n

end Network

end CoEdit
