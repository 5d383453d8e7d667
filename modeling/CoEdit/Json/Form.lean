import CoEdit.Channel.State
import CoEdit.Doc.CharOp
import CoEdit.Json.Reader
import CoEdit.Json.Writer
import CoEdit.Token
import CoEdit.Transform.Placed

/-!
# JSON forms

How the values that travel between a channel and a server are written and read. A structure is
written as an object with its fields in order. It is read from an object with these fields in any
order, among others, or from an array of just its fields.
-/

namespace CoEdit

/-- A type with a JSON form. Reading is told how many containers the value stands in. -/
class JsonForm (α : Type) where
  encode : α → Json
  decode? : Nat → Json → Option α

namespace Json

variable {α : Type} [JsonForm α]

def ofValue (a : α) : Json := JsonForm.encode a

def value (j : Json) : Option α := JsonForm.decode? 0 j

def write (a : α) : String := compact (ofValue a)

def read? (s : String) : Option α := ofText? s >>= value

/-- A value taken in before it is known what it is for may lie in at most this many containers. -/
def nestingLimit : Nat := 127

end Json

open Json

instance : JsonForm String := ⟨.string, fun _ j => j.text?⟩

instance : JsonForm Revision :=
  ⟨fun r => .natural r.number, fun _ j => Revision.mk <$> j.below? Checked.limit⟩

instance : JsonForm Token :=
  ⟨fun t => .natural t.number, fun _ j => Token.mk <$> j.below? Checked.limit⟩

instance : JsonForm Session := ⟨fun s => .string s.id, fun _ j => j.text? >>= Session.ofText?⟩

instance : JsonForm Channel.State :=
  ⟨fun s => .string s.name, fun _ j => j.name? >>= Channel.State.ofName?⟩

def Delivery.names : List String := ["revision", "session", "op"]

instance {M : Type} [JsonForm M] : JsonForm (Delivery M) where
  encode d := .object (Delivery.names.zip [ofValue d.revision, ofValue d.session, ofValue d.op])
  decode? level j := do
    match ← j.fields? Delivery.names with
    | [r, s, op] =>
      return ⟨← JsonForm.decode? level r, ← JsonForm.decode? level s, ← JsonForm.decode? (level + 1) op⟩
    | _ => none

namespace ServiceError

def kind : ServiceError → String
  | retryable _ => "retryable"
  | fatal _ => "fatal"

def ofKind? (kind message : String) : Option ServiceError :=
  if kind == "retryable" then some (retryable message)
  else if kind == "fatal" then some (fatal message)
  else none

theorem ofKind?_kind (e : ServiceError) : ofKind? e.kind e.message = some e := by
  cases e <;> rfl

end ServiceError

/-- In an array the kind is a string; in an object it has any form of a name. -/
instance : JsonForm ServiceError where
  encode e := .object [("kind", .string e.kind), ("message", .string e.message)]
  decode? _ j := do
    match j, ← j.fields? ["kind", "message"] with
    | .array _, [k, m] => ServiceError.ofKind? (← k.text?) (← m.text?)
    | _, [k, m] => ServiceError.ofKind? (← k.name?) (← m.text?)
    | _, _ => none

namespace Edit

def pos? (j : Json) : Option Nat := j.below? Checked.limit

def char? (j : Json) : Option Char := do
  match (← j.text?).toList with
  | [c] => some c
  | _ => none

def ofKind? (kind : String) (body : Json) : Option Edit :=
  if kind == "insert" then do
    match ← body.fields? ["pos", "ch"] with
    | [p, c] => return insert (← pos? p) (← char? c)
    | _ => none
  else if kind == "delete" then do
    match ← body.fields? ["pos"] with
    | [p] => return delete (← pos? p)
    | _ => none
  else if kind == "noop" then
    match body with
    | .array (_ :: _) => none
    | _ => some noop
  else none

end Edit

/-- An edit names its kind among its fields, or before them in an array. Since the kind may come
last, all its fields are taken in first. -/
instance : JsonForm Edit where
  encode
    | .insert pos ch =>
      .object [("kind", .string "insert"), ("pos", .natural pos),
        ("ch", .string (String.singleton ch))]
    | .delete pos => .object [("kind", .string "delete"), ("pos", .natural pos)]
    | .noop => .object [("kind", .string "noop")]
  decode? level j := do
    guard (j.isReadable && j.depth + level ≤ nestingLimit)
    match j with
    | .object ms =>
      let kind ← unique? "kind" ms
      Edit.ofKind? (← kind.text?) (.object (ms.filter (·.1 != "kind")))
    | .array (kind :: rest) => Edit.ofKind? (← kind.text?) (.array rest)
    | _ => none

def CharOp.names : List String := ["id", "site", "edit"]

instance : JsonForm CharOp where
  encode op := .object (CharOp.names.zip [.natural op.id, .natural op.site, ofValue op.edit])
  decode? level j := do
    match ← j.fields? CharOp.names with
    | [i, s, e] =>
      return ⟨← i.below? Checked.limit, ← s.below? CharOp.siteLimit, ← JsonForm.decode? (level + 1) e⟩
    | _ => none

instance : JsonForm Placed where
  encode p := .object [("pos", .natural p.pos), ("tag", .string p.tag)]
  decode? _ j := do
    match ← j.fields? ["pos", "tag"] with
    | [p, t] => return ⟨← p.below? Placed.limit, ← t.text?⟩
    | _ => none

end CoEdit
