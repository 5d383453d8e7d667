import CoEdit.Decimal.Scaled

/-!
# JSON values

A number that is written as a bare natural number is kept apart from every other number, because
only the former counts things. A text can be well-formed and still stand for no value: a string with
an unpaired surrogate, or an object with such a key. It may appear where values are skipped and
nowhere else.
-/

namespace CoEdit

inductive Json where
  | null
  | bool (b : Bool)
  | natural (n : Nat)
  /-- The number `n * 10 ^ e` or its negative. -/
  | decimal (negative : Bool) (n : Nat) (e : Int)
  | string (text : String)
  | array (elements : List Json)
  | object (members : List (String × Json))
  /-- Well-formed, but no value. -/
  | unreadable
deriving Repr, Inhabited

namespace Json

mutual

/-- Whether a value can be taken in without knowing what it is for. -/
def isReadable : Json → Bool
  | natural n => Decimal.scalesToFinite n 0
  | decimal _ n e => Decimal.scalesToFinite n e
  | array xs => areReadable xs
  | object ms => haveReadable ms
  | unreadable => false
  | _ => true

def areReadable : List Json → Bool
  | [] => true
  | x :: xs => x.isReadable && areReadable xs

def haveReadable : List (String × Json) → Bool
  | [] => true
  | (_, x) :: ms => x.isReadable && haveReadable ms

end

mutual

def depth : Json → Nat
  | array xs => depthOfElements xs + 1
  | object ms => depthOfMembers ms + 1
  | _ => 0

def depthOfElements : List Json → Nat
  | [] => 0
  | x :: xs => max x.depth (depthOfElements xs)

def depthOfMembers : List (String × Json) → Nat
  | [] => 0
  | (_, x) :: ms => max x.depth (depthOfMembers ms)

end

def double? : Json → Option Float
  | natural n => if Decimal.scalesToFinite n 0 then some (Decimal.scaled n 0) else none
  | decimal negative n e =>
    if Decimal.scalesToFinite n e then
      some (if negative then -Decimal.scaled n e else Decimal.scaled n e)
    else none
  | _ => none

def below? (bound : Nat) : Json → Option Nat
  | natural n => if n < bound then some n else none
  | _ => none

def text? : Json → Option String
  | string s => some s
  | _ => none

def unique? (key : String) (members : List (String × Json)) : Option Json :=
  match members.filter (·.1 == key) with
  | [(_, x)] => some x
  | _ => none

/-- The values of named fields, in order: from an object that has each of them once, and whatever
else besides, or from an array of just these values. -/
def fields? (names : List String) : Json → Option (List Json)
  | object ms => names.mapM (unique? · ms)
  | array xs => if xs.length = names.length then some xs else none
  | _ => none

/-- A name is written as a string or as the only key of an object with nothing under it. -/
def name? : Json → Option String
  | string s => some s
  | object [(k, null)] => some k
  | _ => none

end Json

end CoEdit
