import CoEdit.Toml.Quoted
import CoEdit.Toml.Table

/-!
# Reading TOML

A document is a sequence of lines, each with a key and its value or with a header in brackets.
Arrays and tables in braces may run over several lines, hold comments and end with a comma. They are
nested to a limited depth, and dotted keys are of limited length. Everything has to be well-formed,
whether or not anything is ever read from it.
-/

namespace CoEdit.Toml

def hasStrayReturn : List Char → Bool
  | '\r' :: '\n' :: cs => hasStrayReturn cs
  | '\r' :: _ => true
  | _ :: cs => hasStrayReturn cs
  | [] => false

def skip (inComment : Bool) : List Char → Option (List Char)
  | [] => some []
  | c :: cs =>
    if c == '\n' then skip false cs
    else if c == '\r' then skip inComment cs
    else if inComment then if isControl c then none else skip true cs
    else if isSpace c then skip false cs
    else if c == '#' then skip true cs
    else some (c :: cs)

/-- What follows a line of which only blanks and a comment may be left. -/
def endLine? (cs : List Char) : Option (List Char) :=
  match skipSpace cs with
  | [] => some []
  | '#' :: cs => skip true cs
  | cs => newline? cs

/-! ## Keys -/

def isBare (c : Char) : Bool := c.isAlphanum || c == '_' || c == '-'

def simpleKey? (cs : List Char) : Option (String × List Char) :=
  match quoted? cs with
  | some r => some r
  | none =>
    let key := cs.takeWhile isBare
    if key.isEmpty then none else some (String.ofList key, cs.dropWhile isBare)

/-- At most `limit` keys with points between them. -/
def path? : (limit : Nat) → List Char → Option (List String × List Char)
  | 0, _ => none
  | limit + 1, cs => do
    let (key, cs) ← simpleKey? cs
    match skipSpace cs with
    | '.' :: cs => do
      let (path, cs) ← path? limit (skipSpace cs)
      return (key :: path, cs)
    | cs => return ([key], cs)

/-- As many keys may stand in a path, and as many containers around a value. -/
def depthLimit : Nat := 80

def key? (cs : List Char) : Option (List String × List Char) := path? depthLimit cs

/-! ## Values -/

def isScalarChar (c : Char) : Bool := isBare c || c == '+' || c == '.' || c == ':'

/-- The characters of a value without quotes. A blank between a date and a time belongs to it. -/
def unquoted (cs : List Char) : List Char × List Char :=
  let first := cs.takeWhile isScalarChar
  match cs.dropWhile isScalarChar with
  | ' ' :: d :: cs =>
    if isDateAlone first && Text.isDigit d then
      (first ++ ' ' :: (d :: cs).takeWhile isScalarChar, (d :: cs).dropWhile isScalarChar)
    else (first, ' ' :: d :: cs)
  | cs => (first, cs)

/-- What may stand between the parts of a pair: in braces also line breaks and comments. -/
def gap (inBraces : Bool) (cs : List Char) : Option (List Char) :=
  if inBraces then skip false cs else some (skipSpace cs)

mutual

/-- A value in which `room` containers may be nested, and what follows it. -/
def value? : Nat → (room : Nat) → List Char → Option (Value × List Char)
  | 0, _, _ => none
  | fuel + 1, room, cs =>
    match cs with
    | '"' :: _ | '\'' :: _ => do
      let (s, cs) ← string? cs
      return (.text s, cs)
    | '[' :: cs => do
      if room = 0 then none
      let (xs, cs) ← elements? fuel (room - 1) cs
      return (.array xs, cs)
    | '{' :: cs => do
      if room = 0 then none
      let (pairs, cs) ← members? fuel (room - 1) cs
      return (← Value.inline? pairs, cs)
    | cs => do
      let (token, cs) := unquoted cs
      return (.scalar (← scalar? token), cs)

def elements? : Nat → (room : Nat) → List Char → Option (List Value × List Char)
  | 0, _, _ => none
  | fuel + 1, room, cs => do
    match ← skip false cs with
    | ']' :: cs => return ([], cs)
    | cs =>
      let (x, cs) ← value? fuel room cs
      match ← skip false cs with
      | ']' :: cs => return ([x], cs)
      | ',' :: cs =>
        let (xs, cs) ← elements? fuel room cs
        return (x :: xs, cs)
      | _ => none

def members? : Nat → (room : Nat) → List Char → Option (List Pair × List Char)
  | 0, _, _ => none
  | fuel + 1, room, cs => do
    match ← skip false cs with
    | '}' :: cs => return ([], cs)
    | cs =>
      let (p, cs) ← pair? fuel room true cs
      match ← skip false cs with
      | '}' :: cs => return ([p], cs)
      | ',' :: cs =>
        let (ps, cs) ← members? fuel room cs
        return (p :: ps, cs)
      | _ => none

def pair? : Nat → (room : Nat) → (inBraces : Bool) → List Char → Option (Pair × List Char)
  | 0, _, _, _ => none
  | fuel + 1, room, inBraces, cs => do
    let (path, cs) ← key? cs
    match ← gap inBraces cs with
    | '=' :: cs =>
      let (value, cs) ← value? fuel room (← gap inBraces cs)
      return (⟨path, value⟩, cs)
    | _ => none

end

/-! ## Documents -/

def header? (cs : List Char) : Option (Header × List Char) := do
  match cs with
  | '[' :: cs =>
    let (path, cs) ← key? (skipSpace cs)
    match cs with
    | ']' :: ']' :: cs => return (.element path, cs)
    | _ => none
  | cs =>
    let (path, cs) ← key? (skipSpace cs)
    match cs with
    | ']' :: cs => return (.table path, cs)
    | _ => none

def statement? (fuel : Nat) (cs : List Char) : Option (Statement × List Char) :=
  match cs with
  | '[' :: cs => do
    let (h, cs) ← header? cs
    return (.header h, cs)
  | cs => do
    let (p, cs) ← pair? fuel depthLimit false cs
    return (.pair p, cs)

def statements? : Nat → List Char → Option (List Statement)
  | 0, _ => none
  | fuel + 1, cs => do
    match ← skip false cs with
    | [] => return []
    | cs =>
      let (s, cs) ← statement? fuel cs
      return s :: (← statements? fuel (← endLine? cs))

/-- The table that a document writes. Three steps are taken per character at most; a mark of the
byte order in front is no part of the document. -/
def ofChars? (cs : List Char) : Option Value :=
  let cs := match cs with
    | '\ufeff' :: cs => cs
    | cs => cs
  if hasStrayReturn cs then none
  else do ofStatements? (← statements? (3 * cs.length + 3) cs)

def ofText? (s : String) : Option Value := ofChars? s.toList

end CoEdit.Toml
