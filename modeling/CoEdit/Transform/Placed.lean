import CoEdit.Transform

/-!
# Placed tags

Inserts that carry a position and a tag. Of two concurrent ones the later position gives way; at one
position the greater tag does.
-/

namespace CoEdit

structure Placed where
  pos : Nat
  tag : String
deriving DecidableEq, Repr

namespace Placed

def limit : Nat := 4294967296

def shift (p : Placed) : Except Transformer.Failure Placed :=
  if p.pos + 1 < limit then .ok { p with pos := p.pos + 1 } else .error .overflow

/-- Whether `c` stays and `s` gives way. -/
def isBefore (c s : Placed) : Bool := c.pos < s.pos || c.pos == s.pos && c.tag < s.tag

def pass : List Placed → Placed → Except Transformer.Failure (List Placed × Placed)
  | [], s => .ok ([], s)
  | c :: cs, s => do
    let (c, s) ← if c.isBefore s then do pure (c, ← s.shift) else do pure (← c.shift, s)
    let (cs, s) ← pass cs s
    return (c :: cs, s)

def transform : Transformer Placed
  | cs, [] => .ok ⟨cs, []⟩
  | cs, s :: ss => do
    let (cs, s) ← pass cs s
    let t ← transform cs ss
    return ⟨t.client, s :: t.server⟩

end Placed

end CoEdit
