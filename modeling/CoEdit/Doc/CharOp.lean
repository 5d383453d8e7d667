import CoEdit.Doc.Basic
import CoEdit.Transform

/-!
# Transforming character edits

Every operation touches one position, so two concurrent ones shift each other by at most one.
Inserts at one position are ordered by the site that made them, and two deletes of one character
both become no-ops. Operations of one site are never concurrent with each other, so a list against
which they turn up is rejected.
-/

namespace CoEdit

/-- An edit with its author and its number among the author's edits. -/
structure CharOp where
  id : Nat
  /-- The author; decides between concurrent inserts at one position. -/
  site : Nat
  edit : Edit
deriving DecidableEq, Repr

namespace CharOp

/-- Sites are numbered below this. -/
def siteLimit : Nat := 4294967296

def after (p : Nat) : Except Transformer.Failure Nat :=
  if p + 1 < Checked.limit then .ok (p + 1) else .error .overflow

/-- Moves client edit `a` and server edit `b`, made against one document, past each other. -/
def transformPair (a b : CharOp) : Except Transformer.Failure (Edit × Edit) :=
  match a.edit, b.edit with
  | .noop, _ | _, .noop => .ok (a.edit, b.edit)
  | .insert p x, .insert q y =>
    if p < q ∨ p = q ∧ a.site < b.site then do return (a.edit, .insert (← after q) y)
    else do return (.insert (← after p) x, b.edit)
  | .insert p x, .delete q =>
    if p ≤ q then do return (a.edit, .delete (← after q)) else .ok (.insert (p - 1) x, b.edit)
  | .delete p, .insert q y =>
    if q ≤ p then do return (.delete (← after p), b.edit) else .ok (a.edit, .insert (q - 1) y)
  | .delete p, .delete q =>
    if p < q then .ok (a.edit, .delete (q - 1))
    else if q < p then .ok (.delete (p - 1), b.edit)
    else .ok (.noop, .noop)

def sameSite (client server : CharOp) : TransformError :=
  ⟨s!"operations {client.id} and {server.id} from site {client.site} are not concurrent"⟩

/-- Moves one server operation past the client's, from the first to the last. -/
def pass : List CharOp → CharOp → Except Transformer.Failure (List CharOp × CharOp)
  | [], s => .ok ([], s)
  | c :: cs, s =>
    if c.site = s.site then .error (.rejected (sameSite c s))
    else do
      let (a, b) ← transformPair c s
      let (cs, s) ← pass cs { s with edit := b }
      return ({ c with edit := a } :: cs, s)

/-- Moves the server's operations past the client's, one after another. -/
def transform : Transformer CharOp
  | cs, [] => .ok ⟨cs, []⟩
  | cs, s :: ss => do
    let (cs, s) ← pass cs s
    let t ← transform cs ss
    return ⟨t.client, s :: t.server⟩

end CharOp

def edits (ops : List CharOp) : List Edit := ops.map CharOp.edit

end CoEdit
