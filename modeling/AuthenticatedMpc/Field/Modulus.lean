import AuthenticatedMpc.Limbs.Bytes
import AuthenticatedMpc.Numeral

/-!
# Arithmetic modulo a public modulus

Field elements are integers of two limbs, kept below the modulus. The operations are exact on such
elements; larger operands get no more than the one correction that reduced ones need. A product is
formed in full and reduced either bit by bit or, for `2 ^ 127 - 1`, by one fold of its high part
onto its low part.
-/

namespace AuthenticatedMpc

-- Powers of numbers are those of the core library.
attribute [local instance (high)] instPowNat

/-- A field element; every operation expects and keeps it below the modulus. -/
abbrev Element := Limbs 2

namespace Element

def zero : Element := Limbs.zero 2

def one : Element := Limbs.one 2

def ofNat (v : Nat) : Element := Limbs.ofNat 2 v

/-- The native 128-bit word of an element. -/
def toBits (a : Element) : BitVec 128 := BitVec.ofNat 128 a.toNat

def ofBits (bits : BitVec 128) : Element := ofNat bits.toNat

end Element

/-- The modulus of a computation, at least two. It is expected to be prime, which nothing checks. -/
structure Modulus where
  value : Element
  two_le : 2 ≤ value.toNat

namespace Modulus

instance : DecidableEq Modulus := fun p q =>
  decidable_of_iff (p.value = q.value) ⟨fun h => by cases p; cases q; simp_all, fun h => h ▸ rfl⟩

/-- The Mersenne prime `2 ^ 127 - 1`. -/
def mersenne127 : Modulus :=
  ⟨⟨[0xffffffffffffffff, 0x7fffffffffffffff], rfl⟩, by decide⟩

instance : Inhabited Modulus := ⟨mersenne127⟩

def ofElement (value : Element) : Except ModulusError Modulus :=
  if h : 2 ≤ value.toNat then .ok ⟨value, h⟩ else .error (.tooSmall value.toNat)

def ofNumeral (text : String) : Except ModulusError Modulus :=
  match Numeral.read text with
  | .error error => .error (.numeral error)
  | .ok value => if 2 ^ (128 : Nat) ≤ value then .error (.tooWide value) else ofElement (.ofNat value)

variable (p : Modulus)

def display : String := toString p.value.toNat

def bitLength : Nat := p.value.bitLength

/-! ## Operations -/

/-- Subtracts the modulus once if the sum carries or reaches it. -/
def add (a b : Element) : Element :=
  let (sum, carry) := a.overflowingAdd b
  if carry || decide (p.value ≤ sum) then sum - p.value else sum

/-- Adds the modulus once if the difference borrows. -/
def sub (a b : Element) : Element :=
  let (diff, borrow) := a.overflowingSub b
  if borrow then diff + p.value else diff

def neg (a : Element) : Element :=
  if a.isZero then .zero else p.value - a

/-- Doubles `acc` once per bit, shifting in the lowest `k` bits of `low`, the highest first. -/
def shiftIn (low : Element) : Nat → Element → Element
  | 0, acc => acc
  | k + 1, acc =>
    let doubled := p.add acc acc
    shiftIn low k (if low.bit k then p.add doubled .one else doubled)

/-- Reduces `high * 2 ^ 128 + low`, where `high` is already reduced. -/
def reduceWide (high low : Element) : Element := p.shiftIn low (Limbs.bits 2) high

def lowPart (low : Element) : BitVec 128 := low.toBits &&& mersenne127.value.toBits

/-- What stands above the lowest 127 bits of a double-length product, in a 128-bit word. -/
def highPart (low high : Element) : BitVec 128 := high.toBits <<< 1 ||| low.toBits >>> 127

/-- Reduces a product modulo `2 ^ 127 - 1` by adding its high part to its low part, since
`2 ^ 127` is one more than a multiple of the modulus. -/
def foldMersenne (low high : Element) : Element :=
  let sum := lowPart low + highPart low high
  let prime := mersenne127.value.toBits
  .ofBits (if prime ≤ sum then sum - prime else sum)

def mul (a b : Element) : Element :=
  let (low, high) := a.wideningMul b
  if p.value = mersenne127.value then foldMersenne low high else p.reduceWide high low

def reduce (a : Element) : Element :=
  if a < p.value then a else p.reduceWide .zero a

def reduceNat (v : Nat) : Element := .ofNat (v % p.value.toNat)

def sum (values : List Element) : Element := values.foldl p.add .zero

/-! ## Byte encoding -/

/-- An element as sixteen big-endian bytes. -/
def encode (a : Element) : Payload := a.toBytes

/-- Accepts exactly the sixteen-byte strings of values below the modulus. -/
def decode (bytes : Payload) : Except EncodingError Element :=
  match Limbs.ofBytesExact 2 bytes with
  | .error error => .error error
  | .ok value => if p.value ≤ value then .error .outOfRange else .ok value

end Modulus
end AuthenticatedMpc
