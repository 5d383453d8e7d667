import CoEdit.Backoff
import CoEdit.Channel.Basic
import CoEdit.Doc.CharOp
import CoEdit.Simulation.Report

/-!
# Editors

A simulated editor has a copy of the document, which it changes at once, and a channel that keeps
the copy in step with the server. It takes in what the channel received from others when it chooses
to, and keeps a record of what the channel told it.
-/

namespace CoEdit.Simulation

structure Editor (R : Type) where
  site : Nat
  session : Session
  channel : Channel CharOp := {}
  backoff : Backoff R
  doc : Doc := {}
  /-- How many edits it made, which is also the number of the next one. -/
  made : Nat := 0
  nextEdit : Option Nat
  /-- The numbers of its acknowledged edits, the first one first. -/
  acked : List Nat := []
  remoteOps : Nat := 0
  errors : List String := []
deriving Repr

namespace Editor

variable {R : Type}

def complain (e : Editor R) (message : String) : Editor R :=
  { e with errors := e.errors ++ [message] }

def hear (e : Editor R) : Effect CharOp → Editor R
  | .remote _ => { e with remoteOps := e.remoteOps + 1 }
  | .acked op _ => { e with acked := e.acked ++ [op.id] }
  | .failed error => e.complain error.message
  | _ => e

def change (e : Editor R) (edit : Edit) : Editor R :=
  match e.doc.apply edit with
  | .ok doc => { e with doc }
  | .error error => e.complain error.message

def drain (e : Editor R) : Editor R :=
  let (ops, channel) := e.channel.receiveAll
  (edits ops).foldl change { e with channel }

/-- The edit that an editor makes at a random place: an insert, unless a delete is asked for and
possible. -/
def choose (e : Editor R) (insert : Bool) (place : Nat) (ch : Char) : Edit :=
  let len := e.doc.length
  if insert || len = 0 then .insert (place % (len + 1)) ch else .delete (place % len)

/-- The numbers of the acknowledged edits are those of all edits, in order. -/
def acksInOrder (e : Editor R) : Bool := e.acked == List.range e.made

def report (e : Editor R) : ClientReport where
  site := e.site
  session := e.session.id
  document := e.doc.text
  state := e.channel.state
  edits := e.made
  acked := e.acked.length
  acksInOrder := e.acksInOrder
  remoteOps := e.remoteOps
  errors := e.errors
  stats := e.channel.stats

end Editor

end CoEdit.Simulation
