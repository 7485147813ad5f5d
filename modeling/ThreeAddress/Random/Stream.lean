/-!
# A seeded stream of words

A seed is stretched to a key of eight words by a linear congruential generator
with permuted output. The words of the stream are the output blocks of the
ChaCha cipher with that key, twelve rounds and a counter from zero.
-/

namespace ThreeAddress.Random

def rotateRight (word count : UInt32) : UInt32 :=
  (word >>> count) ||| (word <<< (32 - count))

def rotateLeft (word count : UInt32) : UInt32 :=
  (word <<< count) ||| (word >>> (32 - count))

/-- The next state of the key generator. -/
def nextState (state : UInt64) : UInt64 :=
  state * 6364136223846793005 + 11634580027462260723

/-- The key word that a state gives. -/
def keyWord (state : UInt64) : UInt32 :=
  rotateRight (((state >>> 18) ^^^ state) >>> 27).toUInt32 (state >>> 59).toUInt32

def keyWords : Nat → UInt64 → List UInt32
  | 0, _ => []
  | count + 1, state => keyWord (nextState state) :: keyWords count (nextState state)

/-- The sixteen words that the cipher works on. -/
abbrev Block := Vector UInt32 16

/-- Mixes four words of a block. -/
def quarterRound (block : Block) (a b c d : Fin 16) : Block :=
  let block := block.set a (block[a] + block[b])
  let block := block.set d (rotateLeft (block[d] ^^^ block[a]) 16)
  let block := block.set c (block[c] + block[d])
  let block := block.set b (rotateLeft (block[b] ^^^ block[c]) 12)
  let block := block.set a (block[a] + block[b])
  let block := block.set d (rotateLeft (block[d] ^^^ block[a]) 8)
  let block := block.set c (block[c] + block[d])
  block.set b (rotateLeft (block[b] ^^^ block[c]) 7)

/-- One round over the columns and one over the diagonals. -/
def doubleRound (block : Block) : Block :=
  let block := quarterRound block 0 4 8 12
  let block := quarterRound block 1 5 9 13
  let block := quarterRound block 2 6 10 14
  let block := quarterRound block 3 7 11 15
  let block := quarterRound block 0 5 10 15
  let block := quarterRound block 1 6 11 12
  let block := quarterRound block 2 7 8 13
  quarterRound block 3 4 9 14

def doubleRounds : Nat → Block → Block
  | 0, block => block
  | count + 1, block => doubleRounds count (doubleRound block)

/-- The block that the cipher starts from. -/
def startBlock (key : List UInt32) (counter : UInt64) : Block :=
  let word (index : Nat) := key[index]?.getD 0
  #v[0x61707865, 0x3320646e, 0x79622d32, 0x6b206574,
    word 0, word 1, word 2, word 3, word 4, word 5, word 6, word 7,
    counter.toUInt32, (counter >>> 32).toUInt32, 0, 0]

def outputBlock (key : List UInt32) (counter : UInt64) : Block :=
  let start := startBlock key counter
  (doubleRounds 6 start).zipWith (· + ·) start

/-- A stream and the place where it is read next. -/
structure Stream where
  key : List UInt32
  position : Nat
deriving Repr

namespace Stream

def ofSeed (seed : UInt64) : Stream :=
  ⟨keyWords 8 seed, 0⟩

def word (stream : Stream) : UInt32 :=
  (outputBlock stream.key (UInt64.ofNat (stream.position / 16)))[stream.position % 16]?.getD 0

def advance (stream : Stream) : Stream :=
  { stream with position := stream.position + 1 }

end Stream

end ThreeAddress.Random
