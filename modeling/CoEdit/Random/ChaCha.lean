import CoEdit.Random.Source

/-!
# The ChaCha12 stream

Random words from ChaCha with twelve rounds: the words of block 0, block 1, and so on, under a key
drawn from a 64-bit seed. The sixteen words of a block's state stand in four rows; a double round
works on the columns and then, with the rows shifted against each other, on the diagonals.
-/

namespace CoEdit

namespace ChaCha

structure Row where
  a : UInt32
  b : UInt32
  c : UInt32
  d : UInt32
deriving DecidableEq, Repr

namespace Row

def zip (f : UInt32 → UInt32 → UInt32) (r s : Row) : Row :=
  ⟨f r.a s.a, f r.b s.b, f r.c s.c, f r.d s.d⟩

def add (r s : Row) : Row := zip (· + ·) r s

/-- Mixes `s` into `r` and turns each word left by `n` bits. -/
def turn (r s : Row) (n : UInt32) : Row :=
  zip (fun x y => let z := x ^^^ y; z <<< n ||| z >>> (32 - n)) r s

def shift (r : Row) : Row := ⟨r.b, r.c, r.d, r.a⟩

def toList (r : Row) : List UInt32 := [r.a, r.b, r.c, r.d]

end Row

structure Block where
  r : Row
  s : Row
  t : Row
  u : Row
deriving DecidableEq, Repr

namespace Block

def mixColumns (x : Block) : Block :=
  let r := x.r.add x.s
  let u := x.u.turn r 16
  let t := x.t.add u
  let s := x.s.turn t 12
  let r := r.add s
  let u := u.turn r 8
  let t := t.add u
  let s := s.turn t 7
  ⟨r, s, t, u⟩

def skew (x : Block) : Block := ⟨x.r, x.s.shift, x.t.shift.shift, x.u.shift.shift.shift⟩

def unskew (x : Block) : Block := ⟨x.r, x.s.shift.shift.shift, x.t.shift.shift, x.u.shift⟩

def doubleRound (x : Block) : Block := x.mixColumns.skew.mixColumns.unskew

def rounds : Nat → Block → Block
  | 0, x => x
  | n + 1, x => rounds n x.doubleRound

def words (x : Block) : List UInt32 :=
  let y := rounds 6 x
  (x.r.add y.r).toList ++ (x.s.add y.s).toList ++ (x.t.add y.t).toList ++ (x.u.add y.u).toList

end Block

end ChaCha

structure ChaCha where
  key₁ : ChaCha.Row
  key₂ : ChaCha.Row
  counter : UInt64 := 0
  /-- What is left of the block before. -/
  rest : List UInt32 := []
deriving DecidableEq, Repr

namespace ChaCha

def block (g : ChaCha) : Block :=
  ⟨⟨0x61707865, 0x3320646e, 0x79622d32, 0x6b206574⟩, g.key₁, g.key₂,
    ⟨g.counter.toUInt32, (g.counter >>> 32).toUInt32, 0, 0⟩⟩

def next (g : ChaCha) : UInt32 × ChaCha :=
  match g.rest with
  | w :: rest => (w, { g with rest })
  | [] =>
    match g.block.words with
    | w :: rest => (w, { g with counter := g.counter + 1, rest })
    | [] => (0, g)

instance : RandomSource ChaCha := ⟨next⟩

/-- The next word of a key that grows from a 64-bit state. -/
def keyWord (s : UInt64) : UInt32 × UInt64 :=
  let s := s * 6364136223846793005 + 11634580027462260723
  let x := (((s >>> 18) ^^^ s) >>> 27).toUInt32
  let n := (s >>> 59).toUInt32
  (x >>> n ||| x <<< ((32 - n) % 32), s)

def keyRow (s : UInt64) : Row × UInt64 :=
  let (a, s) := keyWord s
  let (b, s) := keyWord s
  let (c, s) := keyWord s
  let (d, s) := keyWord s
  (⟨a, b, c, d⟩, s)

def ofSeed (seed : Nat) : ChaCha :=
  let (key₁, s) := keyRow (UInt64.ofNat seed)
  let (key₂, _) := keyRow s
  { key₁, key₂ }

end ChaCha

end CoEdit
