/-!
# Mailboxes

Events wait in a mailbox until one reader takes them, first come, first served. Besides being posted
at once an event can be left with a sleeper, which posts it after a delay unless it is told to leave
before. A sleeper is either ready to go on, and does so when the reader lets go of the mailbox, or it
is asleep. The reader has a number of steps that it takes in a stretch before it has to let go.
-/

namespace CoEdit

namespace Mailbox

/-- Someone who posts an event later. -/
structure Sleeper (E : Type) where
  due : Nat
  serial : Nat
  event : E
  /-- It was told to leave. -/
  isDismissed : Bool := false
deriving DecidableEq, Repr

namespace Sleeper

variable {E : Type}

def isPending (serial : Nat) (s : Sleeper E) : Bool := s.serial == serial && !s.isDismissed

/-- Tells the sleeper with the serial number to leave. -/
def dismiss (serial : Nat) (s : Sleeper E) : Sleeper E :=
  if s.serial = serial then { s with isDismissed := true } else s

end Sleeper

def stretch : Nat := 128

end Mailbox

/-- Events in order of arrival, and those still to come. -/
structure Mailbox (E : Type) where
  now : Nat := 0
  started : Nat := 0
  /-- Whoever goes on when the reader lets go. -/
  ready : List (Mailbox.Sleeper E) := []
  asleep : List (Mailbox.Sleeper E) := []
  events : List E := []
  isOpen : Bool := true
  steps : Nat := Mailbox.stretch
  /-- How long a sleep lasts at most, if there is a limit: by default thirty years of 365 days, in
  milliseconds. -/
  longest : Option Nat := some 946080000000
  /-- How the next races between a deadline and a dismissal end. -/
  draws : List Bool := []
deriving Repr

namespace Mailbox

variable {E : Type}

def post (m : Mailbox E) (e : E) : Mailbox E :=
  if m.isOpen then { m with events := m.events ++ [e] } else m

def close (m : Mailbox E) : Mailbox E := { m with isOpen := false, events := [] }

def takeAll (m : Mailbox E) : List E × Mailbox E := (m.events, { m with events := [] })

/-- When a sleep that begins now ends. -/
def wakeTime (m : Mailbox E) (delay : Nat) : Nat := m.now + m.longest.elim delay (min delay)

/-- Leaves an event with a sleeper; answers the sleeper's serial number. -/
def start (m : Mailbox E) (delay : Nat) (event : E) : Nat × Mailbox E :=
  let s : Sleeper E := { due := m.wakeTime delay, serial := m.started, event }
  (m.started, { m with started := m.started + 1, ready := m.ready ++ [s] })

/-- Tells a sleeper to leave. One that sleeps is woken for it. -/
def dismiss (m : Mailbox E) (serial : Nat) : Mailbox E :=
  let (gone, asleep) := m.asleep.partition (·.serial == serial)
  { m with ready := m.ready.map (·.dismiss serial) ++ gone.map (·.dismiss serial), asleep }

def isPending (m : Mailbox E) (serial : Nat) : Bool :=
  m.ready.any (·.isPending serial) || m.asleep.any (·.isPending serial)

end Mailbox

end CoEdit
