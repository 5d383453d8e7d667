import CoEdit.Settings.Reader
import CoEdit.Simulation.Run

/-!
# The command line

A command runs one simulation and prints its report. Its options override the entries of a settings
file. Options have long names, and some of them a letter that may be written together with others;
the value of an option follows it, after a blank or an equals sign or, behind a letter, directly.
Each option is given at most once.
-/

namespace CoEdit.Command

inductive Parameter where
  | clients
  | edits
  | seed
  | config
deriving DecidableEq, Repr

inductive Flag where
  | json
  | verbose
deriving DecidableEq, Repr

def Parameter.ofName? : List Char → Option Parameter
  | ['c', 'l', 'i', 'e', 'n', 't', 's'] => some clients
  | ['e', 'd', 'i', 't', 's'] => some edits
  | ['s', 'e', 'e', 'd'] => some seed
  | ['c', 'o', 'n', 'f', 'i', 'g'] => some config
  | _ => none

def Parameter.ofLetter? : Char → Option Parameter
  | 'c' => some clients
  | 'e' => some edits
  | 's' => some seed
  | _ => none

def Flag.ofName? : List Char → Option Flag
  | ['j', 's', 'o', 'n'] => some json
  | ['v', 'e', 'r', 'b', 'o', 's', 'e'] => some verbose
  | _ => none

def Flag.ofLetter? : Char → Option Flag
  | 'v' => some verbose
  | _ => none

structure Request where
  clients : Option Nat := none
  edits : Option Nat := none
  seed : Option Nat := none
  config : Option String := none
  json : Bool := false
  verbose : Bool := false
deriving DecidableEq, Repr

namespace Request

/-- Gives an option its value, unless it has one or the value does not suit it. -/
def set (r : Request) (p : Parameter) (value : List Char) : Option Request :=
  match p with
  | .clients => if r.clients.isSome then none else do
    return { r with clients := some (← Text.counter? Checked.limit value) }
  | .edits => if r.edits.isSome then none else do
    return { r with edits := some (← Text.counter? Checked.limit value) }
  | .seed => if r.seed.isSome then none else do
    return { r with seed := some (← Text.counter? Checked.limit value) }
  | .config =>
    if r.config.isSome || value.isEmpty then none
    else some { r with config := some (String.ofList value) }

def raise (r : Request) : Flag → Option Request
  | .json => if r.json then none else some { r with json := true }
  | .verbose => if r.verbose then none else some { r with verbose := true }

/-- Reads an option by its name; answers with the option whose value is still to come, if any. -/
def readName (r : Request) (body : List Char) : Option (Request × Option Parameter) :=
  let name := body.takeWhile (· != '=')
  match Flag.ofName? name, Parameter.ofName? name, body.dropWhile (· != '=') with
  | some f, _, [] => do return (← r.raise f, none)
  | none, some p, [] => some (r, some p)
  | none, some p, _ :: value => do return (← r.set p value, none)
  | _, _, _ => none

def readLetters (r : Request) : List Char → Option (Request × Option Parameter)
  | [] => some (r, none)
  | c :: cs =>
    match Flag.ofLetter? c, Parameter.ofLetter? c, cs with
    | some f, _, cs => do readLetters (← r.raise f) cs
    | none, some p, [] => some (r, some p)
    | none, some p, '=' :: value => do return (← r.set p value, none)
    | none, some p, value => do return (← r.set p value, none)
    | none, none, _ => none

def isOption (arg : List Char) : Bool := arg.head? == some '-' && arg.length > 1

/-- Reads arguments, of which the first is the value of `awaited`. Two dashes end the options, and
nothing may follow. -/
def read (r : Request) (awaited : Option Parameter) : List (List Char) → Option Request
  | [] => if awaited.isNone then some r else none
  | arg :: args =>
    match awaited, arg with
    | some p, _ => if isOption arg then none else do read (← r.set p arg) none args
    | none, ['-', '-'] => if args.isEmpty then some r else none
    | none, '-' :: '-' :: body => do
      let (r, awaited) ← r.readName body
      read r awaited args
    | none, '-' :: c :: cs => do
      let (r, awaited) ← r.readLetters (c :: cs)
      read r awaited args
    | none, _ => none

def ofArgs? (args : List String) : Option Request := read {} none (args.map String.toList)

open Settings Simulation

def scenario (r : Request) (file : String → Option ByteArray) : Except LoadError Scenario := do
  let c : Scenario ← match r.config with
    | some path => ofFile Scenario.problem (file path)
    | none => pure {}
  let w := c.workload
  return { c with workload := { w with
    clients := r.clients.getD w.clients
    editsPerClient := r.edits.getD w.editsPerClient
    seed := r.seed.getD w.seed } }

end Request

structure Outcome where
  status : Nat
  stdout : String := ""
deriving DecidableEq, Repr

def Outcome.misused : Outcome := ⟨2, ""⟩

def Outcome.refused : Outcome := ⟨1, ""⟩

def Outcome.broken : Outcome := ⟨101, ""⟩

/-- The report is printed, and a run without success is a failure. -/
def Outcome.ofReport (json : Bool) (r : Simulation.Report) : Outcome where
  status := if r.isSuccess then 0 else 1
  stdout := (if json then r.json.indented else r.text) ++ "\n"

def run (file : String → Option ByteArray) (args : List String) : Outcome :=
  match Request.ofArgs? args with
  | none => .misused
  | some r =>
    match r.scenario file with
    | .error _ => .refused
    | .ok c =>
      match c.run with
      | .error _ => .refused
      | .ok (.error _) => .broken
      | .ok (.ok report) => .ofReport r.json report

end CoEdit.Command
