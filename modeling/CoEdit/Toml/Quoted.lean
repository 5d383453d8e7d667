import CoEdit.Toml.Scalar

/-!
# TOML strings

Strings with escapes stand between double quotes, strings without between single ones. Three quotes
instead of one make a string that may run over several lines; a line break right after the opening
quotes is dropped, and so is a backslash at the end of a line with all blanks up to the next text.
-/

namespace CoEdit.Toml

def isControl (c : Char) : Bool := (c.toNat < 0x20 && c != '\t') || c.toNat = 0x7F

def isSpace (c : Char) : Bool := c == ' ' || c == '\t'

def skipSpace (cs : List Char) : List Char := cs.dropWhile isSpace

def newline? : List Char → Option (List Char)
  | '\n' :: cs => some cs
  | '\r' :: '\n' :: cs => some cs
  | _ => none

/-- The character with a code in hexadecimal digits, if the code stands for one. -/
def charOfHex? (ds : List Char) : Option Char :=
  let n := basedValue 16 ds
  if ds.all isHexDigit && n.isValidChar then some (Char.ofNat n) else none

/-- The character of an escape after its backslash, and what follows. -/
def escape? : List Char → Option (Char × List Char)
  | 'b' :: cs => some ('\x08', cs)
  | 'e' :: cs => some ('\x1b', cs)
  | 't' :: cs => some ('\t', cs)
  | 'n' :: cs => some ('\n', cs)
  | 'f' :: cs => some ('\x0c', cs)
  | 'r' :: cs => some ('\r', cs)
  | '"' :: cs => some ('"', cs)
  | '\\' :: cs => some ('\\', cs)
  | 'x' :: cs => if cs.length < 2 then none else (·, cs.drop 2) <$> charOfHex? (cs.take 2)
  | 'u' :: cs => if cs.length < 4 then none else (·, cs.drop 4) <$> charOfHex? (cs.take 4)
  | 'U' :: cs => if cs.length < 8 then none else (·, cs.drop 8) <$> charOfHex? (cs.take 8)
  | _ => none

def push (c : Char) (r : Option (List Char × List Char)) : Option (List Char × List Char) :=
  r.map fun (s, cs) => (c :: s, cs)

def line? (quote : Char) : Nat → List Char → Option (List Char × List Char)
  | 0, _ => none
  | fuel + 1, cs =>
    match cs with
    | [] => none
    | c :: cs =>
      if c == quote then some ([], cs)
      else if c == '\\' && quote == '"' then do
        let (c, cs) ← escape? cs
        push c (line? quote fuel cs)
      else if isControl c then none
      else push c (line? quote fuel cs)

def skipLines (cs : List Char) : List Char :=
  cs.dropWhile fun c => isSpace c || c == '\n' || c == '\r'

/-- The rest of a string of several lines, after its opening quotes. Of more than three quotes in a
row the last three end it. -/
def lines? (quote : Char) : Nat → List Char → Option (List Char × List Char)
  | 0, _ => none
  | fuel + 1, cs =>
    match cs with
    | [] => none
    | c :: rest =>
      if cs.take 3 == [quote, quote, quote] then
        let extra := ((cs.drop 3).takeWhile (· == quote)).length
        if extra ≤ 2 then some (List.replicate extra quote, cs.drop (3 + extra)) else none
      else if c == '\\' && quote == '"' then
        match newline? (skipSpace rest) with
        | some cs => lines? quote fuel (skipLines cs)
        | none => do
          let (c, cs) ← escape? rest
          push c (lines? quote fuel cs)
      else
        match newline? cs with
        | some cs => push '\n' (lines? quote fuel cs)
        | none => if isControl c then none else push c (lines? quote fuel rest)

def quoted? : List Char → Option (String × List Char)
  | [] => none
  | c :: cs =>
    if c == '"' || c == '\'' then do
      let (s, cs) ← line? c (cs.length + 1) cs
      return (String.ofList s, cs)
    else none

def string? (cs : List Char) : Option (String × List Char) :=
  match cs with
  | '"' :: '"' :: '"' :: cs | '\'' :: '\'' :: '\'' :: cs => long cs
  | cs => quoted? cs
where
  long (body : List Char) : Option (String × List Char) := do
    let quote ← cs.head?
    let body := (newline? body).getD body
    let (s, cs) ← lines? quote (body.length + 1) body
    return (String.ofList s, cs)

end CoEdit.Toml
