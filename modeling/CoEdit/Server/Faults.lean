import CoEdit.Settings.Problem

/-!
# Faults of a simulated server

How often the server loses a submit or a probe, and how long a message travels.
-/

namespace CoEdit.Server

structure Faults where
  /-- The chance that a submit is lost before it is applied. -/
  dropBeforeApply : Float := 0.05
  /-- The chance that a submit is applied and its response is lost. -/
  dropAfterApply : Float := 0.05
  probeFailure : Float := 0.1
  minLatencyMs : Nat := 5
  maxLatencyMs : Nat := 50
deriving Repr

namespace Faults

/-- Whether a rate leaves a request some chance. -/
def isRate (p : Float) : Bool := 0 ≤ p && p < 1

def problem (f : Faults) : Option Settings.Problem :=
  if !isRate f.dropBeforeApply then some (.rate .dropBeforeApply f.dropBeforeApply)
  else if !isRate f.dropAfterApply then some (.rate .dropAfterApply f.dropAfterApply)
  else if !isRate f.probeFailure then some (.rate .probeFailure f.probeFailure)
  else if f.dropBeforeApply + f.dropAfterApply ≥ 1 then some .dropsCertain
  else if f.minLatencyMs > f.maxLatencyMs then some (.latencies f.minLatencyMs f.maxLatencyMs)
  else none

end Faults

end CoEdit.Server
