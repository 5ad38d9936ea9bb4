import AuthenticatedMpc.Field.Sampling

/-!
# The keystream of a seed

A seed of 32 bytes keys the ChaCha block function with twelve rounds, a 64-bit block counter from
zero and the zero stream number. The output blocks, word after word, are the source that a party
draws from.
-/

namespace AuthenticatedMpc
namespace Keystream

abbrev Block := Vector UInt32 16

def rotateLeft (word : UInt32) (count : UInt32) : UInt32 :=
  word <<< count ||| word >>> (32 - count)

def quarterRound (i j k l : Fin 16) (block : Block) : Block :=
  let a := block[i] + block[j]
  let d := rotateLeft (block[l] ^^^ a) 16
  let c := block[k] + d
  let b := rotateLeft (block[j] ^^^ c) 12
  let a := a + b
  let d := rotateLeft (d ^^^ a) 8
  let c := c + d
  let b := rotateLeft (b ^^^ c) 7
  (((block.set i a).set j b).set k c).set l d

/-- One round on the columns and one on the diagonals. -/
def doubleRound (block : Block) : Block :=
  let block := quarterRound 0 4 8 12 block
  let block := quarterRound 1 5 9 13 block
  let block := quarterRound 2 6 10 14 block
  let block := quarterRound 3 7 11 15 block
  let block := quarterRound 0 5 10 15 block
  let block := quarterRound 1 6 11 12 block
  let block := quarterRound 2 7 8 13 block
  quarterRound 3 4 9 14 block

def doubleRounds : Nat → Block → Block
  | 0, block => block
  | k + 1, block => doubleRounds k (doubleRound block)

def keyWord (seed : List UInt8) (i : Nat) : UInt32 :=
  ((seed.drop (4 * i)).take 4).foldr (fun byte acc => acc <<< 8 ||| byte.toUInt32) 0

def initial (key : Vector UInt32 8) (counter : UInt64) : Block :=
  #v[0x61707865, 0x3320646e, 0x79622d32, 0x6b206574,
    key[0], key[1], key[2], key[3], key[4], key[5], key[6], key[7],
    counter.toUInt32, (counter >>> 32).toUInt32, 0, 0]

def block (key : Vector UInt32 8) (counter : UInt64) : Block :=
  let start := initial key counter
  Vector.zipWith (· + ·) (doubleRounds 6 start) start

/-- Word `i` of the stream: two block words, the low half first, eight such pairs to a block. -/
def word (key : Vector UInt32 8) (i : Nat) : UInt64 :=
  let out := block key (i / 8).toUInt64
  let low := out[2 * (i % 8)]?.getD 0
  let high := out[2 * (i % 8) + 1]?.getD 0
  high.toUInt64 <<< 32 ||| low.toUInt64

end Keystream

namespace Source

def ofSeed (seed : List UInt8) : Source :=
  let key := Vector.ofFn fun i : Fin 8 => Keystream.keyWord seed i
  ⟨Keystream.word key, 0⟩

end Source
end AuthenticatedMpc
