import CoEdit.Revision
import CoEdit.Session

/-!
# Deliveries and service failures

What reaches a channel from the server: every applied operation in revision order, or a failure that
is either worth another attempt or final.
-/

namespace CoEdit

/-- An operation the server applied. -/
structure Delivery (M : Type) where
  revision : Revision
  session : Session
  /-- The operation as it stands in the server's history. -/
  op : M
deriving DecidableEq, Repr

inductive ServiceError where
  /-- The connection failed; the request may or may not have taken effect. -/
  | retryable (message : String)
  /-- The request was refused; trying again cannot help. -/
  | fatal (message : String)
deriving DecidableEq, Repr

namespace ServiceError

def isRetryable : ServiceError → Bool
  | retryable _ => true
  | fatal _ => false

def message : ServiceError → String
  | retryable m | fatal m => m

def text : ServiceError → String
  | retryable m => "retryable failure: " ++ m
  | fatal m => "fatal failure: " ++ m

end ServiceError

end CoEdit
