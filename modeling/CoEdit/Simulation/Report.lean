import CoEdit.Channel.Basic
import CoEdit.Json.Form
import CoEdit.Server.Basic

/-!
# Reports

The outcome of a simulation, in words and as JSON. A run succeeds if it came to rest, every client
ended with the server's document, and every edit was acknowledged once and in order without any
error.
-/

namespace CoEdit

namespace Simulation

structure ClientReport where
  site : Nat
  session : String
  document : String
  state : Channel.State
  edits : Nat := 0
  acked : Nat := 0
  /-- Every edit was acknowledged exactly once, in the order in which it was made. -/
  acksInOrder : Bool
  remoteOps : Nat := 0
  errors : List String
  stats : Channel.Stats := {}
deriving Repr

structure Report where
  seed : Nat := 0
  elapsedMs : Nat := 0
  events : Nat := 0
  /-- The run came to rest before the limit on events. -/
  settled : Bool
  revision : Revision := .zero
  document : String
  server : Server.Stats := {}
  clients : List ClientReport
  /-- Every client is at rest with the server's document. -/
  converged : Bool
deriving Repr

inductive Verdict where
  | converged
  | unsettled
  | diverged
deriving DecidableEq, Repr

def Verdict.text : Verdict → String
  | converged => "converged"
  | unsettled => "did not settle"
  | diverged => "DIVERGED"

def ClientReport.lines (c : ClientReport) : List String :=
  let order := if c.acksInOrder then "" else " OUT OF ORDER"
  (s!"  {c.session} [{c.state.name}] acked {c.acked}/{c.edits} resends={c.stats.resends} " ++
      s!"eager={c.stats.eagerAcks} direct={c.stats.directAcks} dup={c.stats.duplicateAcks}{order}") ::
    c.errors.map ("    error: " ++ ·)

namespace Report

def isSuccess (r : Report) : Bool :=
  r.settled && r.converged && r.clients.all fun c => c.acksInOrder && c.errors.isEmpty

def verdict (r : Report) : Verdict :=
  if r.isSuccess then .converged else if !r.settled then .unsettled else .diverged

def lines (r : Report) : List String :=
  [s!"seed {r.seed}: {r.events} events over {r.elapsedMs}ms, revision {r.revision}",
    s!"server: {r.server.submits} submits, {r.server.droppedBeforeApply} dropped before apply, " ++
      s!"{r.server.droppedAfterApply} dropped after apply, {r.server.probes} probes " ++
      s!"({r.server.failedProbes} failed)"] ++
    r.clients.flatMap ClientReport.lines ++
    [s!"{r.verdict.text}: {r.document.length} characters"]

def text (r : Report) : String := "\n".intercalate r.lines

end Report

end Simulation

open Json Simulation

def Server.Stats.json (s : Server.Stats) : Json := .object
  [("submits", .natural s.submits), ("applied_ops", .natural s.appliedOps),
    ("dropped_before_apply", .natural s.droppedBeforeApply),
    ("dropped_after_apply", .natural s.droppedAfterApply), ("probes", .natural s.probes),
    ("failed_probes", .natural s.failedProbes), ("rejected", .natural s.rejected),
    ("abandoned", .natural s.abandoned)]

def Channel.Stats.json (s : Channel.Stats) : Json := .object
  [("submits", .natural s.submits), ("resends", .natural s.resends), ("probes", .natural s.probes),
    ("retryable_failures", .natural s.retryableFailures), ("eager_acks", .natural s.eagerAcks),
    ("direct_acks", .natural s.directAcks), ("duplicate_acks", .natural s.duplicateAcks),
    ("remote_ops", .natural s.remoteOps)]

def Simulation.ClientReport.json (c : ClientReport) : Json := .object
  [("site", .natural c.site), ("session", .string c.session), ("document", .string c.document),
    ("state", ofValue c.state), ("edits", .natural c.edits), ("acked", .natural c.acked),
    ("acks_in_order", .bool c.acksInOrder), ("remote_ops", .natural c.remoteOps),
    ("errors", .array (c.errors.map .string)), ("stats", c.stats.json)]

def Simulation.Report.json (r : Report) : Json := .object
  [("seed", .natural r.seed), ("elapsed_ms", .natural r.elapsedMs), ("events", .natural r.events),
    ("settled", .bool r.settled), ("revision", ofValue r.revision), ("document", .string r.document),
    ("server", r.server.json), ("clients", .array (r.clients.map (·.json))),
    ("converged", .bool r.converged)]

end CoEdit
