import CoEdit.Agenda
import CoEdit.Random.ChaCha
import CoEdit.Server.Network
import CoEdit.Simulation.Editor
import CoEdit.Simulation.Scenario

/-!
# Runs

Several editors against one server, in one order of virtual time: whatever is due first happens
first, whether it is an event on a client's timeline or an edit; of what is due at one time, the
client with the least number goes first, and its events go before its edit. A run ends when nothing
is left to do, or after a set number of steps. Its outcome depends on nothing but the scenario.
-/

namespace CoEdit

structure Simulation (R : Type) where
  workload : Simulation.Workload
  network : Network R
  editors : List (Simulation.Editor R)
  random : R
deriving Repr

namespace Simulation

structure Item where
  due : Nat
  client : Nat
  isEdit : Bool
deriving DecidableEq, Repr

/-- The item that is due first, the foremost of several. -/
def earliest : List Item → Option Item
  | [] => none
  | i :: rest =>
    match earliest rest with
    | some j => if j.due < i.due then some j else some i
    | none => some i

variable {R : Type}

def items (s : Simulation R) : List Item :=
  (s.network.timelines.zip s.editors).zipIdx.flatMap fun ((t, e), client) =>
    (t.nextDue.map fun due => ⟨due, client, false⟩).toList ++
      (e.nextEdit.map fun due => ⟨due, client, true⟩).toList

def next (s : Simulation R) : Option Item := earliest s.items

def withEditor (s : Simulation R) (client : Nat) (e : Editor R) : Simulation R :=
  { s with editors := s.editors.set client e }

variable [RandomSource R]

def perform (s : Simulation R) (client : Nat) (effect : Effect CharOp) : Checked (Simulation R) :=
  match s.network.timelines[client]?, s.editors[client]? with
  | some timeline, some e => do
    let (_, agenda) ← Agenda.perform { timeline, backoff := e.backoff } effect
    let network := s.network.modify client fun _ => agenda.timeline
    let network ← network.serve client effect
    return { s with network }.withEditor client { e.hear effect with backoff := agenda.backoff }
  | _, _ => .ok s

def settle (s : Simulation R) (client : Nat) (e : Editor R) (r : Channel.Reaction CharOp) :
    Checked (Simulation R) :=
  let s := s.withEditor client { e with channel := r.1 }
  r.2.foldlM (fun s effect => s.perform client effect) s

def event (s : Simulation R) (client : Nat) : Checked (Simulation R) :=
  match s.editors[client]?, s.network.advance client with
  | some e, some ((_, event), network) => do
    let reaction ← e.channel.handle CharOp.transform event
    settle { s with network } client e reaction
  | _, _ => .ok s

structure Choice where
  drain : Bool
  insert : Bool
  place : Nat
  letter : Char
  gap : Nat
deriving DecidableEq, Repr

def insertChance : Float := 0.7

/-- Puts a choice together from draws that are made one after another. -/
def Choice.drawBy (drain insert : R → Option (Bool × R)) (place : R → Nat × R) (letter : R → Char × R)
    (gap : R → Nat × R) (r : R) : Option (Choice × R) := do
  let (drain, r) ← drain r
  let (insert, r) ← insert r
  let (place, r) := place r
  let (letter, r) := letter r
  let (gap, r) := gap r
  return ({ drain, insert, place, letter, gap }, r)

/-- Draws a choice whose pause is from `shortest` to `longest`. -/
def Choice.draw (drainProbability : Float) (shortest longest : Nat) (r : R) : Option (Choice × R) :=
  drawBy (Random.chance drainProbability) (Random.chance insertChance)
    (Random.between 0 (Checked.limit / 2 - 1)) Random.letter (Random.between shortest longest) r

/-- Draws a choice. The pause is the mean one, give or take a half. -/
def choose (s : Simulation R) : Checked (Choice × Simulation R) := do
  let mean := s.workload.editIntervalMs
  let longest ← Checked.add mean (mean / 2)
  match Choice.draw s.workload.drainProbability (mean / 2) longest s.random with
  | some (choice, random) => return (choice, { s with random })
  | none => .error .notProbability

/-- The client's editor `e` makes an edit and sends it; an edit that its document has no place for is
not sent. -/
def author (s : Simulation R) (client : Nat) (e : Editor R) (edit : Edit) : Checked (Simulation R) :=
  let op : CharOp := { id := e.made, site := e.site, edit }
  let e := { e with made := e.made + 1 }
  match e.doc.apply edit with
  | .error error => .ok (s.withEditor client (e.complain error.message))
  | .ok doc => do
    let (answer, reaction) ← e.channel.send CharOp.transform op
    let s ← s.settle client { e with doc } reaction
    match answer, s.editors[client]? with
    | .error error, some e => return s.withEditor client (e.complain error.message)
    | _, _ => return s

/-- The client's editor makes an edit at random and decides on the time of its next one. -/
def edit (s : Simulation R) (client time : Nat) : Checked (Simulation R) := do
  let (choice, s) ← s.choose
  match s.editors[client]? with
  | none => return s
  | some e =>
    let s := { s with network := s.network.modify client (·.advanceTo time) }
    let e := if choice.drain then e.drain else e
    let edit := e.choose choice.insert choice.place choice.letter
    let following ← Checked.addTime time choice.gap
    let nextEdit := if e.made + 1 < s.workload.editsPerClient then some following else none
    s.author client { e with nextEdit } edit

def step (s : Simulation R) (i : Item) : Checked (Simulation R) :=
  if i.isEdit then s.edit i.client i.due else s.event i.client

structure Progress (R : Type) where
  simulation : Simulation R
  events : Nat := 0
  time : Nat := 0
deriving Repr

/-- Does what is due first, at most `limit` times. -/
def runFor : Nat → Progress R → Checked (Progress R)
  | 0, p => .ok p
  | limit + 1, p =>
    match p.simulation.next with
    | none => .ok p
    | some i => do
      let simulation ← p.simulation.step i
      runFor limit { simulation, events := p.events + 1, time := max p.time i.due }

def stepLimit : Nat := 1000000

def Progress.report (p : Progress R) : Report :=
  let server := p.simulation.network.server
  let clients := p.simulation.editors.map fun e => e.drain.report
  let document := server.doc.text
  { seed := p.simulation.workload.seed
    elapsedMs := min p.time (Checked.limit - 1)
    events := p.events
    settled := p.simulation.next.isNone
    revision := server.revision
    document
    server := server.stats
    clients
    converged := clients.all fun c => c.document == document && c.state == .allAcked }

def sessionOf (site : Nat) : Session := ⟨s!"client-{site}", by simp [String.append_eq_empty_iff]⟩

/-- The editors of a scenario. Sites count from one; each backoff has a stream of random numbers of
its own. -/
def Scenario.editors (seeded : Nat → R) (c : Scenario) : List (Editor R) :=
  (List.range c.workload.clients).map fun i =>
    let site := i + 1
    { site
      session := sessionOf site
      backoff := { policy := c.backoff, random := seeded (c.workload.seed ^^^ site <<< 32) }
      nextEdit := if c.workload.editsPerClient > 0 then some 0 else none }

def connect (s : Simulation R) (client : Nat) : Checked (Simulation R) :=
  match s.editors[client]? with
  | none => .ok s
  | some e => do
    let (_, reaction) ← e.channel.connect .zero e.session
    s.settle client e reaction

def start (seeded : Nat → R) (c : Scenario) : Checked (Simulation R) :=
  let editors := c.editors seeded
  let s : Simulation R :=
    { workload := c.workload
      network := .start c.faults (editors.map (·.session)) (seeded c.workload.seed)
      editors
      random := seeded ((c.workload.seed + 1) % Checked.limit) }
  (List.range editors.length).foldlM connect s

def run (seeded : Nat → R) (c : Scenario) : Checked Report := do
  let simulation ← start seeded c
  return (← runFor stepLimit { simulation }).report

/-- Refuses a scenario with a problem and runs any other. -/
def Scenario.run (c : Scenario) : Except Error (Checked Report) := do
  let c ← Settings.accept problem c
  return Simulation.run ChaCha.ofSeed c

end Simulation

end CoEdit
