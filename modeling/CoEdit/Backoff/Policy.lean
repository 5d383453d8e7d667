import CoEdit.Settings.Problem

/-!
# Backoff policies

How long a channel waits before it asks for the server's revision after a failure.
-/

namespace CoEdit.Backoff

structure Policy where
  initialMs : Nat := 100
  maxSecs : Nat := 30
  multiplier : Float := 2
  jitter : Float := 0.5
deriving Repr

namespace Policy

def maxMs (p : Policy) : Nat := p.maxSecs * 1000

def problem (p : Policy) : Option Settings.Problem :=
  if p.initialMs = 0 then some .noInitialDelay
  else if p.initialMs > p.maxMs then some (.initialDelayAboveMax p.initialMs p.maxSecs)
  else if !p.multiplier.isFinite || p.multiplier < 1 then some (.multiplier p.multiplier)
  else if !(0 ≤ p.jitter && p.jitter ≤ 1) then some (.jitter p.jitter)
  else none

end Policy

end CoEdit.Backoff
