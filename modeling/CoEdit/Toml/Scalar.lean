import CoEdit.Decimal.Nearest
import CoEdit.Text.Digits

/-!
# TOML scalars without quotes

Booleans, integers, floats, dates and times. Underscores may stand between digits only, and decimal
integers have no superfluous zeros. An integer of more than 128 bits or a float beyond the range of
doubles is well-formed, but nothing can be read from it.
-/

namespace CoEdit.Toml

/-- A value without parts. The text of a date or time is of no use here beyond being well-formed. -/
inductive Scalar where
  | boolean (b : Bool)
  | integer (n : Int)
  | float (x : Float)
  /-- A number out of range. -/
  | excess
  | moment
deriving Repr

/-- Digits in groups with single underscores between them, without the underscores. -/
def grouped? (isDigit : Char → Bool) : List Char → Option (List Char)
  | [] => none
  | [c] => if isDigit c then some [c] else none
  | c :: '_' :: cs => if isDigit c then (c :: ·) <$> grouped? isDigit cs else none
  | c :: cs => if isDigit c then (c :: ·) <$> grouped? isDigit cs else none

def signed : List Char → Bool × List Char
  | '-' :: cs => (true, cs)
  | '+' :: cs => (false, cs)
  | cs => (false, cs)

def isHexDigit (c : Char) : Bool :=
  Text.isDigit c || ('a' ≤ c && c ≤ 'f') || ('A' ≤ c && c ≤ 'F')

def hexDigitValue (c : Char) : Nat :=
  if Text.isDigit c then c.toNat - '0'.toNat
  else if 'a' ≤ c then c.toNat - 'a'.toNat + 10
  else c.toNat - 'A'.toNat + 10

def basedValue (base : Nat) (ds : List Char) : Nat :=
  ds.foldl (fun n d => base * n + hexDigitValue d) 0

def based? (base : Nat) (isDigit : Char → Bool) (cs : List Char) : Option Int := do
  return basedValue base (← grouped? isDigit cs)

/-- Integers lie from the least signed to the greatest unsigned number of 128 bits. -/
def isBounded (n : Int) : Bool := -Int.pow 2 127 ≤ n && n < Int.pow 2 128

def whole? (cs : List Char) : Option (List Char) := do
  let ds ← grouped? Text.isDigit cs
  if ds.head? == some '0' && ds.length > 1 then none else some ds

def integer? (cs : List Char) : Option Int :=
  match cs with
  | '0' :: 'x' :: cs => based? 16 isHexDigit cs
  | '0' :: 'o' :: cs => based? 8 (fun c => '0' ≤ c && c ≤ '7') cs
  | '0' :: 'b' :: cs => based? 2 (fun c => c == '0' || c == '1') cs
  | cs => do
    let (negative, cs) := signed cs
    let n : Int := Text.digitsValue (← whole? cs)
    return if negative then -n else n

/-- The number after an `e`. -/
def exponent? (cs : List Char) : Option Int := do
  let (negative, cs) := signed cs
  let n : Int := Text.digitsValue (← grouped? Text.isDigit cs)
  return if negative then -n else n

def isGroupChar (c : Char) : Bool := Text.isDigit c || c == '_'

/-- What follows the whole part of a float: the digits after its point, and its exponent. At least
one of them is there. -/
def tail? : List Char → Option (List Char × Int)
  | '.' :: cs => do
    let fraction ← grouped? Text.isDigit (cs.takeWhile isGroupChar)
    match cs.dropWhile isGroupChar with
    | [] => return (fraction, 0)
    | e :: cs => if e == 'e' || e == 'E' then return (fraction, ← exponent? cs) else none
  | e :: cs => if e == 'e' || e == 'E' then do return ([], ← exponent? cs) else none
  | [] => none

def float? (cs : List Char) : Option Scalar := do
  let (negative, cs) := signed cs
  let withSign (x : Float) : Scalar := .float (if negative then -x else x)
  if cs = ['i', 'n', 'f'] then return withSign (1 / 0)
  else if cs = ['n', 'a', 'n'] then return withSign (0 / 0)
  else
    let whole ← whole? (cs.takeWhile isGroupChar)
    let (fraction, e) ← tail? (cs.dropWhile isGroupChar)
    let (n, e) := (Text.digitsValue (whole ++ fraction), e - fraction.length)
    return if Decimal.isFinite n e then withSign (Decimal.nearest n e) else .excess

/-- A number of just so many digits from `lo` to `hi`. -/
def clocked (width lo hi : Nat) (cs : List Char) : Bool :=
  cs.length == width && (Text.natural? cs).any fun n => lo ≤ n && n ≤ hi

def isLeap (year : Nat) : Bool := year % 4 == 0 && (year % 100 != 0 || year % 400 == 0)

def daysIn (year month : Nat) : Nat :=
  if month = 2 then if isLeap year then 29 else 28
  else if month = 4 ∨ month = 6 ∨ month = 9 ∨ month = 11 then 30
  else 31

def isDate (cs : List Char) : Bool :=
  let (year, month, day) := (cs.take 4, (cs.drop 5).take 2, cs.drop 8)
  cs[4]? == some '-' && cs[7]? == some '-' && clocked 4 0 9999 year && clocked 2 1 12 month &&
    clocked 2 1 (daysIn (Text.digitsValue year) (Text.digitsValue month)) day

def isSeconds (cs : List Char) : Bool :=
  clocked 2 0 60 (cs.take 2) &&
    match cs.drop 2 with
    | [] => true
    | '.' :: ds => !ds.isEmpty && ds.all Text.isDigit
    | _ => false

def isTime (cs : List Char) : Bool :=
  cs[2]? == some ':' && clocked 2 0 23 (cs.take 2) && clocked 2 0 59 ((cs.drop 3).take 2) &&
    match cs.drop 5 with
    | [] => true
    | ':' :: cs => isSeconds cs
    | _ => false

/-- The distance from universal time: a letter, or hours and minutes. -/
def isOffset (cs : List Char) : Bool :=
  match cs with
  | [c] => c == 'Z' || c == 'z'
  | sign :: cs =>
    (sign == '+' || sign == '-') && cs[2]? == some ':' && clocked 2 0 23 (cs.take 2) &&
      clocked 2 0 59 (cs.drop 3)
  | [] => false

/-- A date, a time, or both with a sign between them and perhaps an offset after them. -/
def isMoment (cs : List Char) : Bool :=
  isTime cs || isDate cs ||
    isDate (cs.take 10) && (cs[10]?.any fun c => c == 'T' || c == 't' || c == ' ') &&
      let rest := cs.drop 11
      let time := rest.takeWhile fun c => Text.isDigit c || c == ':' || c == '.'
      isTime time && (time.length == rest.length || isOffset (rest.drop time.length))

/-- Whether a text goes on after a date and a blank. -/
def isDateAlone (cs : List Char) : Bool := cs.length == 10 && isDate cs

def scalar? (cs : List Char) : Option Scalar :=
  if cs = ['t', 'r', 'u', 'e'] then some (.boolean true)
  else if cs = ['f', 'a', 'l', 's', 'e'] then some (.boolean false)
  else match integer? cs with
    | some n => some (if isBounded n then .integer n else .excess)
    | none => float? cs <|> if isMoment cs then some .moment else none

end CoEdit.Toml
