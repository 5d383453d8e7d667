import CoEdit.Channel.Effect
import CoEdit.Mailbox.Basic

/-!
# A scripted server

A server for one channel, with a script that says how each submit and each probe fares. Deliveries
are posted at once and answers after a fixed latency. It does not transform: a batch has to be based
on the current revision.
-/

namespace CoEdit

namespace Loopback

inductive Fate where
  | served
  /-- It takes effect, but its response is lost. -/
  | lost
  | failed (error : ServiceError)
deriving DecidableEq, Repr

end Loopback

structure Loopback (M : Type) where
  session : Session
  history : List M := []
  connection : Option Token := none
  submits : List Loopback.Fate := []
  probes : List Loopback.Fate := []
  latency : Nat
deriving Repr

namespace Loopback

variable {M : Type}

def revision (s : Loopback M) : Revision := ⟨s.history.length⟩

def apply (session : Session) (s : Loopback M) (m : Mailbox (Event M)) (op : M) :
    Loopback M × Mailbox (Event M) :=
  let s := { s with history := s.history ++ [op] }
  match s.connection with
  | some connection => (s, m.post (.incoming connection (.ok ⟨s.revision, session, op⟩)))
  | none => (s, m)

def applyAll (session : Session) (s : Loopback M) (m : Mailbox (Event M)) (ops : List M) :
    Loopback M × Mailbox (Event M) :=
  ops.foldl (fun (s, m) op => s.apply session m op) (s, m)

def answer (s : Loopback M) (m : Mailbox (Event M)) (event : Event M) : Mailbox (Event M) :=
  (m.start s.latency event).2

def staleBase (base : Revision) : ServiceError := .fatal s!"stale base {base}"

def responseLost : ServiceError := .retryable "response lost"

def submit (s : Loopback M) (m : Mailbox (Event M)) (token : Token) (base : Revision)
    (ops : List M) : Loopback M × Mailbox (Event M) :=
  let fate := s.submits.head?.getD .served
  let s := { s with submits := s.submits.tail }
  match fate with
  | .failed e => (s, s.answer m (.submitResponse token (.error e)))
  | .lost =>
    let (s, m) := s.applyAll s.session m ops
    (s, s.answer m (.submitResponse token (.error responseLost)))
  | .served =>
    if base = s.revision then
      let (s, m) := s.applyAll s.session m ops
      (s, s.answer m (.submitResponse token (.ok s.revision)))
    else (s, s.answer m (.submitResponse token (.error (staleBase base))))

def probe (s : Loopback M) (m : Mailbox (Event M)) (token : Token) :
    Loopback M × Mailbox (Event M) :=
  let fate := s.probes.head?.getD .served
  let s := { s with probes := s.probes.tail }
  match fate with
  | .failed e => (s, s.answer m (.probeResponse token (.error e)))
  | _ => (s, s.answer m (.probeResponse token (.ok s.revision)))

/-- Serves an effect of the channel. What does not concern the server changes nothing. -/
def serve (s : Loopback M) (m : Mailbox (Event M)) : Effect M → Loopback M × Mailbox (Event M)
  | .submit token base ops => s.submit m token base ops
  | .probe token => s.probe m token
  | .subscribe connection _ => ({ s with connection := some connection }, m)
  | .unsubscribe => ({ s with connection := none }, m)
  | _ => (s, m)

end Loopback

end CoEdit
