import AuthenticatedMpc.Error
import AuthenticatedMpc.Limbs.Basic

/-!
# Big-endian byte encoding of limb integers

An integer of `n` limbs is written as exactly `8 * n` bytes, the most significant first. Reading
accepts shorter strings as if they were padded with zeros on the left, or, in the exact form, only
strings of the full length.
-/

namespace AuthenticatedMpc

namespace Words

def wordBytes (word : UInt64) : List UInt8 :=
  [(word >>> 56).toUInt8, (word >>> 48).toUInt8, (word >>> 40).toUInt8, (word >>> 32).toUInt8,
    (word >>> 24).toUInt8, (word >>> 16).toUInt8, (word >>> 8).toUInt8, word.toUInt8]

/-- The big-endian word of a byte string; of more than eight bytes the last eight count. -/
def wordOfBytes (bytes : List UInt8) : UInt64 :=
  bytes.foldl (fun acc byte => acc <<< 8 ||| byte.toUInt64) 0

def ofBytes : Nat → List UInt8 → List UInt64
  | 0, _ => []
  | n + 1, bytes => ofBytes n (bytes.drop 8) ++ [wordOfBytes (bytes.take 8)]

@[simp] theorem length_ofBytes (n : Nat) (bytes : List UInt8) : (ofBytes n bytes).length = n := by
  induction n generalizing bytes with
  | zero => rfl
  | succ n ih => simp [ofBytes, ih]

end Words

namespace Limbs

variable {n : Nat}

def toBytes (a : Limbs n) : List UInt8 := a.words.reverse.flatMap Words.wordBytes

/-- Reads at most `8 * n` bytes, padded with zeros on the left. -/
def ofBytes (n : Nat) (bytes : List UInt8) : Except EncodingError (Limbs n) :=
  if byteLength n < bytes.length then
    .error (.invalidLength (byteLength n) bytes.length)
  else
    .ok ⟨Words.ofBytes n (List.replicate (byteLength n - bytes.length) 0 ++ bytes), by simp⟩

def ofBytesExact (n : Nat) (bytes : List UInt8) : Except EncodingError (Limbs n) :=
  if bytes.length = byteLength n then ofBytes n bytes
  else .error (.invalidLength (byteLength n) bytes.length)

end Limbs
end AuthenticatedMpc
