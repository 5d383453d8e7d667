import CoEdit.Error

/-!
# Transformers

Two lists of operations made against the same document, one by a client and one by the server, are
changed so that each applies after the other:

    base —server→ S —client'→ D
    base —client→ C —server'→ D

What an operation means is left to the transformer.
-/

namespace CoEdit

/-- Both sides of a transform, each changed to follow the other. -/
structure Transformed (M : Type) where
  /-- The client's operations, to be applied after the server's. -/
  client : List M
  /-- The server's operations, to be applied after the client's. -/
  server : List M
deriving DecidableEq, Repr

namespace Transformer

/-- Why a transform yields nothing. -/
inductive Failure where
  | rejected (cause : TransformError)
  /-- A changed operation leaves the range of its numbers. -/
  | overflow
deriving DecidableEq, Repr

end Transformer

/-- Moves a client's and the server's concurrent operations, in this order, past one another. -/
abbrev Transformer (M : Type) := List M → List M → Except Transformer.Failure (Transformed M)

namespace Transformer

variable {M : Type}

/-- Runs the transformer; a number out of range is a fault, a rejection is an answer. -/
def run (x : Transformer M) (client server : List M) :
    Checked (Except TransformError (Transformed M)) :=
  match x client server with
  | .ok t => .ok (.ok t)
  | .error (.rejected e) => .ok (.error e)
  | .error .overflow => .error .addOverflow

/-- As `run`, except that an empty client side leaves the server's operations as they are. -/
def past (x : Transformer M) (client server : List M) :
    Checked (Except TransformError (Transformed M)) :=
  if client.isEmpty then .ok (.ok ⟨[], server⟩) else x.run client server

end Transformer

end CoEdit
