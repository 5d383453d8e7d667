import CoEdit.Fault

/-!
# Tokens

A token names one request, scheduled task or receive connection. A source hands out each token once,
from #1 upwards, so an answer that carries an old token can be told from an answer to the live one.
-/

namespace CoEdit

structure Token where
  number : Nat
deriving DecidableEq, Repr

def Token.text (t : Token) : String := "#" ++ toString t.number

/-- Hands out tokens in increasing order. -/
structure TokenSource where
  /-- The number of the token to hand out next. -/
  next : Nat := 1
deriving DecidableEq, Repr

namespace TokenSource

/-- The next token and the source that goes on after it. -/
def mint (s : TokenSource) : Checked (Token × TokenSource) := do
  let following ← Checked.add s.next 1
  return (⟨s.next⟩, ⟨following⟩)

def mintMany : Nat → TokenSource → Checked (List Token)
  | 0, _ => return []
  | n + 1, s => do
    let (t, s) ← s.mint
    return t :: (← mintMany n s)

theorem mint_eq_ok_iff {s s' : TokenSource} {t : Token} :
    s.mint = .ok (t, s') ↔ s.next + 1 < Checked.limit ∧ t = ⟨s.next⟩ ∧ s' = ⟨s.next + 1⟩ := by
  unfold mint Checked.add
  split <;> rename_i h <;> simp [h, bind, Except.bind, pure, Except.pure, eq_comm]

end TokenSource

end CoEdit
