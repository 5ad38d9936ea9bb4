import AuthenticatedMpc.Field.Modulus

/-!
# Drawing elements and nonces

A generator is a stream of 64-bit words with a reading position. An element is drawn from pairs of
words, masked to the width of the modulus, the first pair below the modulus being taken. A nonce
is the next four words as they are.
-/

namespace AuthenticatedMpc

-- Powers of numbers are those of the core library.
attribute [local instance (high)] instPowNat

/-- A stream of words and the number of words already read. -/
structure Source where
  word : Nat → UInt64
  position : Nat

/-- Reads from a source; `none` stands for a draw that never ends. -/
abbrev Draw := StateT Source Option

namespace Source

instance : Inhabited Source := ⟨⟨fun _ => 0, 0⟩⟩

def ofWords (words : Array UInt64) : Source := ⟨fun i => words[i]?.getD 0, 0⟩

/-- The word `offset` places ahead. -/
def peek (source : Source) (offset : Nat) : UInt64 := source.word (source.position + offset)

def advance (source : Source) (count : Nat) : Source :=
  { source with position := source.position + count }

end Source

namespace Modulus

variable (p : Modulus)

/-- All ones in the positions of limb `i` that the modulus reaches. -/
def limbMask (i : Nat) : UInt64 :=
  let width := min (p.bitLength - 64 * i) 64
  if width = 64 then 0 - 1 else (1 <<< width.toUInt64) - 1

def masked (low high : UInt64) : Element := ⟨[low &&& p.limbMask 0, high &&& p.limbMask 1], rfl⟩

def candidate (source : Source) : Element := p.masked (source.peek 0) (source.peek 1)

/-- The candidate behind `i` skipped pairs, if it is below the modulus. -/
def pick (i : Nat) : Draw Element := fun source =>
  let value := p.candidate (source.advance (2 * i))
  if value < p.value then some (value, source.advance (2 * (i + 1))) else none

/-- Skips pairs, `i` of them to begin with, until one can be picked. Where none ever can, nothing is said
about the result. -/
def search (source : Source) (i : Nat) : Option Nat :=
  repeatM (fun i => some (if (p.pick i source).isSome then .inr i else .inl (i + 1))) i

/-- A uniformly distributed element: the first candidate below the modulus. The next candidate is tried
before the search, so that a draw which succeeds at once reduces by definition. -/
def draw : Draw Element := fun source =>
  p.pick 0 source <|> (p.search source 1).bind fun i => p.pick i source

end Modulus

/-- The secret that hides a committed value. -/
structure Nonce where
  bytes : Payload
  length_bytes : bytes.length = 32
deriving DecidableEq, Repr

namespace Nonce

def ofBytes? (bytes : Payload) : Option Nonce :=
  if h : bytes.length = 32 then some ⟨bytes, h⟩ else none

def wordBytes (word : UInt64) : List UInt8 := (Words.wordBytes word).reverse

def draw : Draw Nonce := fun source =>
  some (⟨wordBytes (source.peek 0) ++ wordBytes (source.peek 1) ++ wordBytes (source.peek 2) ++
    wordBytes (source.peek 3), rfl⟩, source.advance 4)

end Nonce
end AuthenticatedMpc
