/-!
# Sessions

A session identifies one connected channel. The server tags every relayed operation with the session
that submitted it, which is how a channel recognises its own operations. An identifier is any
non-empty text.
-/

namespace CoEdit

structure Session where
  id : String
  nonempty : id ≠ ""
deriving DecidableEq, Repr

namespace Session

/-- The session of an identifier; the empty text identifies none. -/
def ofText? (id : String) : Option Session :=
  if h : id = "" then none else some ⟨id, h⟩

theorem ofText?_id (s : Session) : ofText? s.id = some s := by
  simp [ofText?, s.nonempty]

end Session

end CoEdit
