import CoEdit.Channel.Event
import CoEdit.Error

/-!
# Effects

What a channel asks of the world: requests to the server, its subscription to deliveries, reminders,
the pace of its retries, and news for its listener. A channel lists its effects in the order in
which they are to happen; it never waits for one.
-/

namespace CoEdit

inductive Effect (M : Type) where
  /-- Submit `ops`, made at `base`, as one batch. -/
  | submit (token : Token) (base : Revision) (ops : List M)
  | probe (token : Token)
  /-- The outcome of a request will be ignored. -/
  | disregard (token : Token)
  /-- Deliver every operation applied after `revision`. -/
  | subscribe (connection : Token) (revision : Revision)
  | unsubscribe
  /-- Another session's operation was applied, as it stands in the server's history. -/
  | remote (op : M)
  /-- An own operation was confirmed; `clean` if nothing else is queued or in flight. -/
  | acked (op : M) (clean : Bool)
  | failed (error : Error)
  /-- The next delay starts over from the shortest. -/
  | resetBackoff
  | schedule (task : Task)
  /-- Schedule a task after the next delay. -/
  | scheduleAfterDelay (task : Task)
  | cancel (id : Token)
deriving DecidableEq, Repr

/-- News of operations confirmed together: only the last can leave the channel clean. -/
def ackedAll {M : Type} (clean : Bool) : List M → List (Effect M)
  | [] => []
  | [op] => [.acked op clean]
  | op :: rest => .acked op false :: ackedAll clean rest

end CoEdit
