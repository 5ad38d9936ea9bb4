import AuthenticatedMpc.Field.Sampling
import AuthenticatedMpc.Keccak

/-!
# Hash commitments to field elements

A commitment is the digest of the sixteen bytes of a value followed by a nonce of 32 bytes.
Revealing value and nonce opens it.
-/

namespace AuthenticatedMpc

structure Commitment where
  digest : Payload
  length_digest : digest.length = 32
deriving Repr

namespace Commitment

theorem eq_iff {a b : Commitment} : a.digest = b.digest ↔ a = b := by
  constructor
  · intro h
    cases a
    cases b
    cases h
    rfl
  · intro h
    rw [h]

instance : DecidableEq Commitment := fun _ _ => decidable_of_iff _ eq_iff

/-- The number of bytes that open a commitment: the value, then the nonce. -/
def revealLength : Nat := Limbs.byteLength 2 + 32

def reveal (value : Element) (nonce : Nonce) : Payload := value.toBytes ++ nonce.bytes

def commit (value : Element) (nonce : Nonce) : Commitment :=
  ⟨Keccak.sha3 (reveal value nonce), Keccak.length_sha3 _⟩

def verify (commitment : Commitment) (value : Element) (nonce : Nonce) : Bool :=
  commit value nonce == commitment

def ofBytes (bytes : Payload) : Except EncodingError Commitment :=
  if h : bytes.length = 32 then .ok ⟨bytes, h⟩ else .error (.invalidLength 32 bytes.length)

end Commitment
end AuthenticatedMpc
