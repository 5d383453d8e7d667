import CoEdit.Simulation.Scenario
import CoEdit.Toml.Reader

/-!
# Reading settings

Settings are tables with a default for every entry; entries of other names are ignored. A structure
is also read from an array of its fields in order, of which the last may be missing or more may
follow.
-/

namespace CoEdit

namespace Settings

open Toml

inductive LoadError where
  | unreadable
  | malformed
  | refused (error : Error)
deriving DecidableEq, Repr

/-- A counter is an integer in the range of 64-bit numbers. -/
def counter? : Value → Option Nat
  | .scalar (.integer n) => if 0 ≤ n && n < Checked.limit then some n.toNat else none
  | _ => none

/-- A measure is a float, or an integer in the range of 64-bit numbers with or without sign. -/
def measure? : Value → Option Float
  | .scalar (.float x) => some x
  | .scalar (.integer n) =>
    if n < Checked.limit && 2 * n ≥ -(Checked.limit : Int) then
      some (if n < 0 then -Decimal.ofNat n.natAbs else Decimal.ofNat n.toNat)
    else none
  | _ => none

class Readable (α : Type) where
  read? : Value → Option α

instance : Readable Nat := ⟨counter?⟩

instance : Readable Float := ⟨measure?⟩

/-- The values that a structure has for its fields, in the order of their names. A table may have
entries of other names, whose numbers are in range, and an array further elements. A date or time
stands for a structure without any of the fields. -/
def fields? (names : List String) : Value → Option (List (Option Value))
  | .table es => do
    guard (es.all fun (k, x) => names.contains k || x.isInRange)
    return names.map (List.lookup · es)
  | .array xs => some (names.mapIdx fun i _ => xs[i]?)
  | .scalar .moment => some (names.map fun _ => none)
  | _ => none

def field? {α : Type} [Readable α] (default : α) : Option Value → Option α
  | some x => Readable.read? x
  | none => some default

end Settings

open Settings

instance : Readable Backoff.Policy where
  read? v := do
    let d : Backoff.Policy := {}
    match ← fields? ["initial_delay_ms", "max_delay_secs", "multiplier", "jitter"] v with
    | [initialMs, maxSecs, multiplier, jitter] => return {
        initialMs := ← field? d.initialMs initialMs
        maxSecs := ← field? d.maxSecs maxSecs
        multiplier := ← field? d.multiplier multiplier
        jitter := ← field? d.jitter jitter }
    | _ => none

def Server.Faults.names : List String :=
  ["drop_before_apply", "drop_after_apply", "probe_failure", "min_latency_ms", "max_latency_ms"]

instance : Readable Server.Faults where
  read? v := do
    let d : Server.Faults := {}
    match ← fields? Server.Faults.names v with
    | [dropBeforeApply, dropAfterApply, probeFailure, minLatencyMs, maxLatencyMs] => return {
        dropBeforeApply := ← field? d.dropBeforeApply dropBeforeApply
        dropAfterApply := ← field? d.dropAfterApply dropAfterApply
        probeFailure := ← field? d.probeFailure probeFailure
        minLatencyMs := ← field? d.minLatencyMs minLatencyMs
        maxLatencyMs := ← field? d.maxLatencyMs maxLatencyMs }
    | _ => none

def Simulation.Workload.names : List String :=
  ["clients", "edits_per_client", "seed", "edit_interval_ms", "drain_probability"]

instance : Readable Simulation.Workload where
  read? v := do
    let d : Simulation.Workload := {}
    match ← fields? Simulation.Workload.names v with
    | [clients, editsPerClient, seed, editIntervalMs, drainProbability] => return {
        clients := ← field? d.clients clients
        editsPerClient := ← field? d.editsPerClient editsPerClient
        seed := ← field? d.seed seed
        editIntervalMs := ← field? d.editIntervalMs editIntervalMs
        drainProbability := ← field? d.drainProbability drainProbability }
    | _ => none

namespace Settings

structure ChannelSettings where
  backoff : Backoff.Policy := {}
deriving Repr

def ChannelSettings.problem (s : ChannelSettings) : Option Problem := s.backoff.problem

instance : Readable ChannelSettings where
  read? v := do
    match ← fields? ["backoff"] v with
    | [backoff] => return { backoff := ← field? {} backoff }
    | _ => none

instance : Readable Simulation.Scenario where
  read? v := do
    match ← fields? ["workload", "faults", "channel"] v with
    | [workload, faults, channel] =>
      let channel : ChannelSettings ← field? {} channel
      return { workload := ← field? {} workload, faults := ← field? {} faults,
               backoff := channel.backoff }
    | _ => none

/-- Reads settings from the text of a document and refuses those with a problem. -/
def ofText {α : Type} [Readable α] (problem : α → Option Problem) (text : String) :
    Except LoadError α :=
  match Toml.ofText? text >>= Readable.read? with
  | none => .error .malformed
  | some settings =>
    match accept problem settings with
    | .ok settings => .ok settings
    | .error e => .error (.refused e)

def ofFile {α : Type} [Readable α] (problem : α → Option Problem) (file : Option ByteArray) :
    Except LoadError α :=
  match file >>= String.fromUTF8? with
  | none => .error .unreadable
  | some text => ofText problem text

end Settings

end CoEdit
