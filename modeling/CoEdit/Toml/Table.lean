import CoEdit.Toml.Scalar

/-!
# TOML tables

A document assembles its tables piece by piece. How a table came about decides what may still be
added to it: a table only named in the header of another may get a header of its own, a table that
dotted keys opened may get more dotted keys, a table with a header may get further tables but no
keys, and a value that was written out may get nothing. Of an array of tables only the last element
is still open.
-/

namespace CoEdit.Toml

inductive Value where
  | scalar (s : Scalar)
  | text (s : String)
  | array (elements : List Value)
  | table (entries : List (String × Value))
deriving Repr, Inhabited

mutual

def Value.isInRange : Value → Bool
  | .scalar .excess => false
  | .array xs => areInRange xs
  | .table es => haveInRange es
  | _ => true

def areInRange : List Value → Bool
  | [] => true
  | x :: xs => x.isInRange && areInRange xs

def haveInRange : List (String × Value) → Bool
  | [] => true
  | (_, x) :: es => x.isInRange && haveInRange es

end

inductive Origin where
  /-- In the header of a table inside it. -/
  | implied
  /-- In front of the point of a dotted key. -/
  | dotted
  | header
deriving DecidableEq, Repr

inductive Node where
  | closed (value : Value)
  | table (origin : Origin) (entries : List (String × Node))
  | tables (done : List Value) (last : List (String × Node))
deriving Repr

abbrev Entries := List (String × Node)

mutual

def Node.value : Node → Value
  | .closed v => v
  | .table _ es => .table (values es)
  | .tables done last => .array (done ++ [.table (values last)])

def values : List (String × Node) → List (String × Value)
  | [] => []
  | (k, n) :: es => (k, n.value) :: values es

end

/-- A key, with the keys of the tables it lies in, and its value. -/
structure Pair where
  path : List String
  value : Value
deriving Repr

namespace Entries

/-- Changes what stands under a key, or puts something there. -/
def update (key : String) (f : Option Node → Option Node) : Entries → Option Entries
  | [] => do return [(key, ← f none)]
  | (k, n) :: es => do
    if k == key then return (k, ← f (some n)) :: es else return (k, n) :: (← update key f es)

/-- Adds a pair. Its key must be new in its table, and a dotted key's table must have come about by
dotted keys. -/
def insert (value : Value) : List String → Entries → Option Entries
  | [], _ => none
  | [key], es =>
    es.update key fun
      | none => some (.closed value)
      | some _ => none
  | key :: next :: rest, es =>
    es.update key fun
      | none => do return .table .dotted (← insert value (next :: rest) [])
      | some (.table .dotted es) => do return .table .dotted (← insert value (next :: rest) es)
      | some (.table .implied es) =>
        if rest.isEmpty then none else do return .table .implied (← insert value (next :: rest) es)
      | some (.tables done last) =>
        if rest.isEmpty then none else do return .tables done (← insert value (next :: rest) last)
      | some _ => none

def insertAll (es : Entries) (pairs : List Pair) : Option Entries :=
  pairs.foldlM (fun es p => es.insert p.value p.path) es

/-- Goes to the table at a path, opening tables on the way, and changes what stands under the last
key. -/
def atPath (f : Option Node → Option Node) : List String → Entries → Option Entries
  | [], _ => none
  | [key], es => es.update key f
  | key :: next :: rest, es =>
    es.update key fun
      | none => do return .table .implied (← atPath f (next :: rest) [])
      | some (.table origin es) => do return .table origin (← atPath f (next :: rest) es)
      | some (.tables done last) => do return .tables done (← atPath f (next :: rest) last)
      | some (.closed _) => none

def define (pairs : List Pair) : Option Node → Option Node
  | none => do return .table .header (← insertAll [] pairs)
  | some (.table .implied es) => do return .table .header (← insertAll es pairs)
  | some _ => none

def extend (pairs : List Pair) : Option Node → Option Node
  | none => do return .tables [] (← insertAll [] pairs)
  | some (.tables done last) => do
    return .tables (done ++ [.table (values last)]) (← insertAll [] pairs)
  | some _ => none

end Entries

/-- The table of pairs that stand in one pair of braces. -/
def Value.inline? (pairs : List Pair) : Option Value := do
  return .table (values (← Entries.insertAll [] pairs))

inductive Header where
  | table (path : List String)
  | element (path : List String)
deriving DecidableEq, Repr

inductive Statement where
  | pair (p : Pair)
  | header (h : Header)
deriving Repr

/-- The pairs before the first header, and every header with the pairs below it. -/
def sections : List Statement → List Pair × List (Header × List Pair)
  | [] => ([], [])
  | .pair p :: rest =>
    let (pairs, more) := sections rest
    (p :: pairs, more)
  | .header h :: rest =>
    let (pairs, more) := sections rest
    ([], (h, pairs) :: more)

def Entries.add (es : Entries) : Header × List Pair → Option Entries
  | (.table path, pairs) => atPath (define pairs) path es
  | (.element path, pairs) => atPath (extend pairs) path es

def ofStatements? (ss : List Statement) : Option Value := do
  let (pairs, more) := sections ss
  return .table (values (← more.foldlM Entries.add (← Entries.insertAll [] pairs)))

end CoEdit.Toml
