import CoEdit.Backoff.Policy
import CoEdit.Server.Faults

/-!
# Scenarios

What a simulation runs: how much its editors do, which faults its server has, and how its channels
back off.
-/

namespace CoEdit.Simulation

structure Workload where
  clients : Nat := 3
  editsPerClient : Nat := 50
  seed : Nat := 0
  /-- The mean pause between the edits of one client, in milliseconds. -/
  editIntervalMs : Nat := 20
  /-- The chance that a client takes in pending remote edits before it makes one. -/
  drainProbability : Float := 0.5
deriving Repr

namespace Workload

def problem (w : Workload) : Option Settings.Problem :=
  if w.clients = 0 then some .noClients
  else if w.clients ≥ 4294967296 then some (.manyClients w.clients)
  else if !(0 ≤ w.drainProbability && w.drainProbability ≤ 1) then
    some (.drainProbability w.drainProbability)
  else none

end Workload

structure Scenario where
  workload : Workload := {}
  faults : Server.Faults := {}
  backoff : Backoff.Policy := {}
deriving Repr

def Scenario.problem (s : Scenario) : Option Settings.Problem :=
  s.workload.problem <|> s.faults.problem <|> s.backoff.problem

end CoEdit.Simulation
