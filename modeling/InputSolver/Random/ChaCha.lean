/-
  InputSolver — a stream of random words.

  The words come from the stream cipher ChaCha with 8 rounds: the 16 words of
  block 0, then those of block 1, and so on.  A seed of 64 bits is expanded
  into the key of 8 words.

  * `Generator.ofSeed` starts a stream; `next32` and `next64` draw from it.
-/
namespace InputSolver.Random

/-! ## Blocks -/

/-- The 16 words that a round works on. -/
abbrev Block := Vector UInt32 16

def rotateLeft (x : UInt32) (n : UInt32) : UInt32 := (x <<< n) ||| (x >>> (32 - n))

/-- Adds word `j` to word `i`, then mixes the sum into word `k`. -/
def mix (b : Block) (i j k : Fin 16) (n : UInt32) : Block :=
  let sum := b[i] + b[j]
  let b := b.set i sum
  b.set k (rotateLeft (b[k] ^^^ sum) n)

/-- A quarter round on four words. -/
def quarterRound (i j k l : Fin 16) (b : Block) : Block :=
  let b := mix b i j l 16
  let b := mix b k l j 12
  let b := mix b i j l 8
  mix b k l j 7

/-- A round on the columns, then one on the diagonals. -/
def doubleRound (b : Block) : Block :=
  b |> quarterRound 0 4 8 12 |> quarterRound 1 5 9 13 |> quarterRound 2 6 10 14
    |> quarterRound 3 7 11 15 |> quarterRound 0 5 10 15 |> quarterRound 1 6 11 12
    |> quarterRound 2 7 8 13 |> quarterRound 3 4 9 14

/-- The words before the rounds: four constants, the key, the number of the
    block in two words, and two zeros. -/
def initialBlock (key : Vector UInt32 8) (counter : UInt64) : Block :=
  let constants : Vector UInt32 4 := #v[0x61707865, 0x3320646e, 0x79622d32, 0x6b206574]
  let number : Vector UInt32 4 := #v[counter.toUInt32, (counter >>> 32).toUInt32, 0, 0]
  constants ++ key ++ number

/-- The words of a block of the stream. -/
def streamBlock (key : Vector UInt32 8) (counter : UInt64) : List UInt32 :=
  let start := initialBlock key counter
  let mixed := doubleRound (doubleRound (doubleRound (doubleRound start)))
  (mixed.zipWith (· + ·) start).toList

/-! ## The stream -/

/-- A place in a stream: the key, the number of the next block, and what is
    left of the current one. -/
structure Generator where
  key : Vector UInt32 8
  counter : UInt64
  buffered : List UInt32

namespace Generator

/-- The word of the key that a state of the seed expansion gives. -/
def keyWord (state : UInt64) : UInt32 :=
  let x := (((state >>> 18) ^^^ state) >>> 27).toUInt32
  let n : UInt32 := (state >>> 59).toUInt32
  rotateLeft x (32 - n)

/-- The next state of the seed expansion. -/
def expand (state : UInt64) : UInt64 := state * 6364136223846793005 + 11634580027462260723

/-- The start of the stream of a seed. -/
def ofSeed (seed : UInt64) : Generator :=
  ⟨Vector.ofFn fun i => keyWord (Nat.repeat expand (i.val + 1) seed), 0, []⟩

/-- The next 32 bits. -/
def next32 (g : Generator) : UInt32 × Generator :=
  match g.buffered with
  | x :: rest => (x, { g with buffered := rest })
  | [] =>
    match streamBlock g.key g.counter with
    | x :: rest => (x, { g with counter := g.counter + 1, buffered := rest })
    | [] => (0, g)

/-- The next 64 bits, the low half first. -/
def next64 (g : Generator) : UInt64 × Generator :=
  let (low, g) := g.next32
  let (high, g) := g.next32
  (low.toUInt64 ||| (high.toUInt64 <<< 32), g)

end Generator

end InputSolver.Random
