import AuthenticatedMpc.Traffic

/-!
# The SHA3-256 digest

The Keccak permutation on 25 lanes of 64 bits, each of its steps given lane by lane, and the
sponge of rate 136 bytes around it. A message is closed with the domain bits of the fixed-length
digests and padded to whole blocks; the digest is the first 32 bytes of the final state.
-/

namespace AuthenticatedMpc
namespace Keccak

/-- The lane of column `x` and row `y` stands at `x + 5 * y`. -/
abbrev State := Vector UInt64 25

def lane (state : State) (x y : Nat) : UInt64 := state.get ⟨x % 5 + 5 * (y % 5), by omega⟩

def ofLanes (lane : Nat → Nat → UInt64) : State := Vector.ofFn fun i => lane (i.val % 5) (i.val / 5)

def rotateLeft (word : UInt64) (count : UInt64) : UInt64 :=
  if count = 0 then word else word <<< count ||| word >>> (64 - count)

def rotations : Vector UInt64 25 :=
  #v[0, 1, 62, 28, 27,
    36, 44, 6, 55, 20,
    3, 10, 43, 25, 39,
    41, 45, 15, 21, 8,
    18, 2, 61, 56, 14]

def roundConstants : List UInt64 :=
  [0x0000000000000001, 0x0000000000008082, 0x800000000000808a, 0x8000000080008000,
    0x000000000000808b, 0x0000000080000001, 0x8000000080008081, 0x8000000000008009,
    0x000000000000008a, 0x0000000000000088, 0x0000000080008009, 0x000000008000000a,
    0x000000008000808b, 0x800000000000008b, 0x8000000000008089, 0x8000000000008003,
    0x8000000000008002, 0x8000000000000080, 0x000000000000800a, 0x800000008000000a,
    0x8000000080008081, 0x8000000000008080, 0x0000000080000001, 0x8000000080008008]

def columnParity (state : State) (x : Nat) : UInt64 :=
  lane state x 0 ^^^ lane state x 1 ^^^ lane state x 2 ^^^ lane state x 3 ^^^ lane state x 4

/-- Adds to each lane the parities of two neighbouring columns. -/
def theta (state : State) : State :=
  let parity := Vector.ofFn fun x : Fin 5 => columnParity state x
  let parityAt (x : Nat) : UInt64 := parity.get ⟨x % 5, by omega⟩
  ofLanes fun x y => lane state x y ^^^ parityAt (x + 4) ^^^ rotateLeft (parityAt (x + 1)) 1

def rhoPi (state : State) : State :=
  ofLanes fun x y => rotateLeft (lane state (x + 3 * y) x) (lane rotations (x + 3 * y) x)

def chi (state : State) : State :=
  ofLanes fun x y => lane state x y ^^^ (~~~ lane state (x + 1) y &&& lane state (x + 2) y)

def iota (constant : UInt64) (state : State) : State :=
  state.set 0 (lane state 0 0 ^^^ constant)

def permute (state : State) : State :=
  roundConstants.foldl (fun state constant => iota constant (chi (rhoPi (theta state)))) state

/-! ## The sponge -/

/-- The number of message bytes in a block. -/
def rate : Nat := 136

def laneOfBytes (bytes : List UInt8) : UInt64 :=
  bytes.foldr (fun byte acc => acc <<< 8 ||| byte.toUInt64) 0

def laneBytes (lane : UInt64) : List UInt8 :=
  [lane.toUInt8, (lane >>> 8).toUInt8, (lane >>> 16).toUInt8, (lane >>> 24).toUInt8,
    (lane >>> 32).toUInt8, (lane >>> 40).toUInt8, (lane >>> 48).toUInt8, (lane >>> 56).toUInt8]

/-- Adds a block into the state, eight bytes to a lane. -/
def addBlock (block : List UInt8) (state : State) : State :=
  Vector.ofFn fun i => state.get i ^^^ laneOfBytes ((block.drop (8 * i.val)).take 8)

/-- The message with its domain bits and padding; the last byte carries the closing bit. -/
def pad (message : List UInt8) : List UInt8 :=
  let gap := rate - message.length % rate
  message ++ if gap = 1 then [0x86] else 0x06 :: (List.replicate (gap - 2) 0 ++ [0x80])

def absorb : Nat → List UInt8 → State → State
  | 0, _, state => state
  | blocks + 1, bytes, state =>
    absorb blocks (bytes.drop rate) (permute (addBlock (bytes.take rate) state))

def sha3 (message : List UInt8) : List UInt8 :=
  let padded := pad message
  let state := absorb (padded.length / rate) padded (Vector.replicate 25 0)
  laneBytes (lane state 0 0) ++ laneBytes (lane state 1 0) ++ laneBytes (lane state 2 0) ++
    laneBytes (lane state 3 0)

@[simp] theorem length_sha3 (message : List UInt8) : (sha3 message).length = 32 := rfl

end Keccak
end AuthenticatedMpc
