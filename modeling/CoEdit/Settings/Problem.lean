import CoEdit.Decimal.Plain
import CoEdit.Error

/-!
# Problems of settings

What can be wrong with the parameters of a backoff, of a server's faults or of a workload, with its
wording.
-/

namespace CoEdit.Settings

inductive Rate where
  | dropBeforeApply
  | dropAfterApply
  | probeFailure
deriving DecidableEq, Repr

def Rate.name : Rate → String
  | dropBeforeApply => "drop_before_apply"
  | dropAfterApply => "drop_after_apply"
  | probeFailure => "probe_failure"

inductive Problem where
  | noInitialDelay
  | initialDelayAboveMax (initialMs maxSecs : Nat)
  | multiplier (value : Float)
  | jitter (value : Float)
  | rate (rate : Rate) (value : Float)
  /-- A submit is certain to be dropped, before it is applied or after. -/
  | dropsCertain
  | latencies (minMs maxMs : Nat)
  | noClients
  | manyClients (count : Nat)
  | drainProbability (value : Float)
deriving Repr

def Problem.message : Problem → String
  | noInitialDelay => "backoff.initial_delay_ms must be positive\n  hint: try 100"
  | initialDelayAboveMax initial max =>
    s!"backoff.initial_delay_ms ({initial}) exceeds backoff.max_delay_secs ({max})"
  | multiplier x => "backoff.multiplier must be at least 1.0, got " ++ Decimal.plain x
  | jitter x => "backoff.jitter must be within [0, 1], got " ++ Decimal.plain x
  | rate r x =>
    s!"faults.{r.name} must be within [0, 1), got " ++ Decimal.plain x ++
      "\n  hint: a rate of 1 never lets the channel recover"
  | dropsCertain => "faults.drop_before_apply + faults.drop_after_apply must be below 1"
  | latencies min max => s!"faults.min_latency_ms ({min}) exceeds faults.max_latency_ms ({max})"
  | noClients => "workload.clients must be positive\n  hint: try 3"
  | manyClients count => s!"workload.clients ({count}) is too large"
  | drainProbability x => "workload.drain_probability must be within [0, 1], got " ++ Decimal.plain x

def Problem.error (p : Problem) : Error := .config p.message

def accept {α : Type} (problem : α → Option Problem) (settings : α) : Except Error α :=
  match problem settings with
  | some p => .error p.error
  | none => .ok settings

theorem accept_eq_ok_iff {α : Type} {problem : α → Option Problem} {s t : α} :
    accept problem s = .ok t ↔ problem s = none ∧ t = s := by
  unfold accept; split <;> simp_all [eq_comm]

end CoEdit.Settings
