import Tabula.Random.Source

/-!
The seeded generator: the key stream of the ChaCha cipher with twelve rounds, cut into words of 64 bits. The key
comes from the seed by a small congruential generator. The n-th word depends on the key and on `n` alone, so a
generator is a key and a position.
-/

namespace Tabula

namespace Seed

/-- One step of the congruential generator that stretches a seed. -/
def advance (state : UInt64) : UInt64 := state * 6364136223846793005 + 11634580027462260723

def after (seed : UInt64) : Nat → UInt64
  | 0 => seed
  | n + 1 => advance (after seed n)

def rotateRight (x : UInt32) (n : UInt32) : UInt32 :=
  if n = 0 then x else x >>> n ||| x <<< (32 - n)

def output (state : UInt64) : UInt32 :=
  rotateRight (((state >>> 18) ^^^ state) >>> 27).toUInt32 (state >>> 59).toUInt32

def key (seed : UInt64) : Vector UInt32 8 := Vector.ofFn fun i => output (after seed (i + 1))

end Seed

abbrev Block := Vector UInt32 16

namespace Block

def rotateLeft (x : UInt32) (n : UInt32) : UInt32 := x <<< n ||| x >>> (32 - n)

/-- The word at `target` takes in the one at `other`, and the one at `mixed` is turned with it. -/
def mix (b : Block) (target other mixed : Fin 16) (turn : UInt32) : Block :=
  let b := b.set target (b[target] + b[other])
  b.set mixed (rotateLeft (b[mixed] ^^^ b[target]) turn)

def quarterRound (b : Block) (p : Fin 16 × Fin 16 × Fin 16 × Fin 16) : Block :=
  let (i, j, k, l) := p
  (((b.mix i j l 16).mix k l j 12).mix i j l 8).mix k l j 7

def lanes : List (Fin 16 × Fin 16 × Fin 16 × Fin 16) :=
  [(0, 4, 8, 12), (1, 5, 9, 13), (2, 6, 10, 14), (3, 7, 11, 15),
   (0, 5, 10, 15), (1, 6, 11, 12), (2, 7, 8, 13), (3, 4, 9, 14)]

def doubleRound (b : Block) : Block := lanes.foldl quarterRound b

def rounds : (count : Nat) → Block → Block
  | 0, b => b
  | count + 1, b => rounds count b.doubleRound

/-- The state before the rounds: four constants, the key, the number of the block, and no nonce. -/
def initial (key : Vector UInt32 8) (number : Nat) : Block :=
  #v[0x61707865, 0x3320646e, 0x79622d32, 0x6b206574,
     key[0], key[1], key[2], key[3], key[4], key[5], key[6], key[7],
     number.toUInt32, (number / 2 ^ (32 : Nat)).toUInt32, 0, 0]

def stream (key : Vector UInt32 8) (number : Nat) : Block :=
  let start := initial key number
  Vector.zipWith (· + ·) (rounds 6 start) start

end Block

structure Generator where
  key : Vector UInt32 8
  /-- How many words have been drawn. -/
  position : Nat
deriving DecidableEq

namespace Generator

def ofSeed (seed : UInt64) : Generator := ⟨Seed.key seed, 0⟩

/-- The word at a position of the stream, its low half first. -/
def word (key : Vector UInt32 8) (position : Nat) : UInt64 :=
  let block := Block.stream key (position / 8)
  block[2 * (position % 8)].toUInt64 ||| block[2 * (position % 8) + 1].toUInt64 <<< 32

instance : WordSource Generator where
  next g := (word g.key g.position, { g with position := g.position + 1 })

end Generator

end Tabula
