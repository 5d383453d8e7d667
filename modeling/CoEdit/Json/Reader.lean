import CoEdit.Json.Basic
import CoEdit.Text.Digits

/-!
# Reading JSON

A strict reader: blanks may stand around any value or sign, numbers have no superfluous zeros,
strings hold no raw control characters, nothing follows the last element of a container and nothing
but blanks follows the value.
-/

namespace CoEdit.Json

def isBlank (c : Char) : Bool := c == ' ' || c == '\t' || c == '\n' || c == '\r'

def skip (cs : List Char) : List Char := cs.dropWhile isBlank

/-! ## Numbers -/

def digits? (cs : List Char) : Option (List Char × List Char) :=
  let ds := cs.takeWhile Text.isDigit
  if ds.isEmpty then none else some (ds, cs.dropWhile Text.isDigit)

def fraction? : List Char → Option (List Char × List Char)
  | '.' :: cs => digits? cs
  | cs => some ([], cs)

def exponent? : List Char → Option (Option Int × List Char)
  | e :: cs =>
    if e == 'e' || e == 'E' then do
      let (negative, cs) := match cs with
        | '-' :: cs => (true, cs)
        | '+' :: cs => (false, cs)
        | cs => (false, cs)
      let (ds, cs) ← digits? cs
      let n : Int := Text.digitsValue ds
      return (some (if negative then -n else n), cs)
    else some (none, e :: cs)
  | [] => some (none, [])

def number? (cs : List Char) : Option (Json × List Char) := do
  let (negative, cs) := match cs with
    | '-' :: cs => (true, cs)
    | cs => (false, cs)
  let (whole, cs) ← digits? cs
  if whole.head? == some '0' && whole.length > 1 then none
  else
    let (fraction, cs) ← fraction? cs
    let (exponent, cs) ← exponent? cs
    let n := Text.digitsValue (whole ++ fraction)
    if !negative && fraction.isEmpty && exponent.isNone then return (natural n, cs)
    else return (decimal negative n (exponent.getD 0 - fraction.length), cs)

/-! ## Strings -/

inductive Piece where
  | char (c : Char)
  | unit (n : Nat)
deriving DecidableEq, Repr

def hexValue? (c : Char) : Option Nat :=
  if '0' ≤ c && c ≤ '9' then some (c.toNat - '0'.toNat)
  else if 'a' ≤ c && c ≤ 'f' then some (c.toNat - 'a'.toNat + 10)
  else if 'A' ≤ c && c ≤ 'F' then some (c.toNat - 'A'.toNat + 10)
  else none

def codeUnit? (a b c d : Char) : Option Nat := do
  return (((← hexValue? a) * 16 + (← hexValue? b)) * 16 + (← hexValue? c)) * 16 + (← hexValue? d)

def unescape? : Char → Option Char
  | '"' => some '"'
  | '\\' => some '\\'
  | '/' => some '/'
  | 'b' => some '\x08'
  | 'f' => some '\x0c'
  | 'n' => some '\n'
  | 'r' => some '\r'
  | 't' => some '\t'
  | _ => none

def pieces? : List Char → Option (List Piece × List Char)
  | '"' :: cs => some ([], cs)
  | '\\' :: 'u' :: a :: b :: c :: d :: cs => do
    let n ← codeUnit? a b c d
    let (ps, cs) ← pieces? cs
    return (.unit n :: ps, cs)
  | '\\' :: e :: cs => do
    let c ← unescape? e
    let (ps, cs) ← pieces? cs
    return (.char c :: ps, cs)
  | c :: cs =>
    if c.toNat < 0x20 then none
    else do
      let (ps, cs) ← pieces? cs
      return (.char c :: ps, cs)
  | [] => none

def isHigh (n : Nat) : Bool := 0xD800 ≤ n && n < 0xDC00

def isLow (n : Nat) : Bool := 0xDC00 ≤ n && n < 0xE000

/-- The text of a string, unless a surrogate lacks its partner. -/
def join? : List Piece → Option (List Char)
  | [] => some []
  | .char c :: ps => (c :: ·) <$> join? ps
  | .unit h :: .unit l :: ps =>
    if isHigh h && isLow l then
      (Char.ofNat (0x10000 + (h - 0xD800) * 0x400 + (l - 0xDC00)) :: ·) <$> join? ps
    else if isHigh h || isLow h then none
    else (Char.ofNat h :: ·) <$> join? (.unit l :: ps)
  | .unit n :: ps => if isHigh n || isLow n then none else (Char.ofNat n :: ·) <$> join? ps

def quoted? (cs : List Char) : Option (Option String × List Char) := do
  let (ps, cs) ← pieces? cs
  return (String.ofList <$> join? ps, cs)

/-! ## Values -/

def ofMembers (ms : List (Option String × Json)) : Json :=
  match ms.mapM fun (k, x) => (·, x) <$> k with
  | some ms => object ms
  | none => unreadable

mutual

def value? : Nat → List Char → Option (Json × List Char)
  | 0, _ => none
  | fuel + 1, cs =>
    match skip cs with
    | 'n' :: 'u' :: 'l' :: 'l' :: cs => some (null, cs)
    | 't' :: 'r' :: 'u' :: 'e' :: cs => some (bool true, cs)
    | 'f' :: 'a' :: 'l' :: 's' :: 'e' :: cs => some (bool false, cs)
    | '"' :: cs => do
      let (s, cs) ← quoted? cs
      return (s.elim unreadable string, cs)
    | '[' :: cs =>
      match skip cs with
      | ']' :: cs => some (array [], cs)
      | cs => do
        let (xs, cs) ← elements? fuel cs
        return (array xs, cs)
    | '{' :: cs =>
      match skip cs with
      | '}' :: cs => some (object [], cs)
      | cs => do
        let (ms, cs) ← members? fuel cs
        return (ofMembers ms, cs)
    | cs => number? cs

def elements? : Nat → List Char → Option (List Json × List Char)
  | 0, _ => none
  | fuel + 1, cs => do
    let (x, cs) ← value? fuel cs
    match skip cs with
    | ',' :: cs => do
      let (xs, cs) ← elements? fuel cs
      return (x :: xs, cs)
    | ']' :: cs => return ([x], cs)
    | _ => none

def members? : Nat → List Char → Option (List (Option String × Json) × List Char)
  | 0, _ => none
  | fuel + 1, cs =>
    match skip cs with
    | '"' :: cs => do
      let (k, cs) ← quoted? cs
      match skip cs with
      | ':' :: cs => do
        let (x, cs) ← value? fuel cs
        match skip cs with
        | ',' :: cs => do
          let (ms, cs) ← members? fuel cs
          return ((k, x) :: ms, cs)
        | '}' :: cs => return ([(k, x)], cs)
        | _ => none
      | _ => none
    | _ => none

end

/-- The value that a whole text writes. Two steps are taken per character at most. -/
def ofChars? (cs : List Char) : Option Json := do
  let (x, rest) ← value? (2 * cs.length + 2) cs
  if (skip rest).isEmpty then some x else none

def ofText? (s : String) : Option Json := ofChars? s.toList

end CoEdit.Json
