import AuthenticatedMpc.Proofs.Field.Arithmetic

/-!
# Byte encodings are canonical

An integer has exactly one encoding of its full length, and reading a shorter string is reading it with
zeros in front. An element is decoded from its sixteen bytes and from nothing else, so every string of
bytes is either the encoding of one reduced element or refused.
-/

namespace AuthenticatedMpc
namespace Modulus

variable {p : Modulus} {bytes : Payload} {value : Element}

theorem decode_of_length_ne (hlen : bytes.length ≠ 16) :
    p.decode bytes = .error (.invalidLength 16 bytes.length) := by
  rw [decode, Limbs.ofBytesExact_of_ne hlen]
  rfl

theorem decode_of_lt (hlen : bytes.length = 16) (hlt : bigEndian bytes < p.value.toNat) :
    ∃ value, p.decode bytes = .ok value ∧ value.toNat = bigEndian bytes := by
  obtain ⟨value, hread, hvalue⟩ := @Limbs.exists_ofBytesExact 2 _ hlen
  rw [← hvalue, ← Limbs.lt_iff] at hlt
  exact ⟨value, decode_eq_ok_iff.mpr ⟨Limbs.ofBytesExact_eq_ok_iff.mp hread, hlt⟩, hvalue⟩

theorem decode_of_le (hlen : bytes.length = 16) (hle : p.value.toNat ≤ bigEndian bytes) :
    p.decode bytes = .error .outOfRange := by
  obtain ⟨value, hread, hvalue⟩ := @Limbs.exists_ofBytesExact 2 _ hlen
  rw [← hvalue, ← Limbs.le_iff] at hle
  rw [decode, hread]
  exact if_pos hle

theorem decode_encode (h : p.Reduced value) : p.decode (encode value) = .ok value :=
  decode_eq_ok_iff.mpr ⟨rfl, reduced_iff.mp h⟩

theorem encode_of_decode (h : p.decode bytes = .ok value) : p.Reduced value ∧ encode value = bytes := by
  obtain ⟨hbytes, hlt⟩ := decode_eq_ok_iff.mp h
  exact ⟨reduced_iff.mpr hlt, hbytes.symm⟩

/-- Integers of any number of limbs and reduced elements are encoded as their big-endian bytes, and
decoding undoes this: it accepts exactly what is said here, and tells what is wrong with anything else. -/
theorem encoding_canonical (n : ℕ) (p : Modulus) :
    ((∀ a : Limbs n, a.toBytes.length = 8 * n) ∧
      (∀ bytes : Payload, bytes.length ≤ 8 * n →
        ∃ a : Limbs n, Limbs.ofBytes n bytes = .ok a ∧ a.toNat = bigEndian bytes ∧
          a.toBytes = List.replicate (8 * n - bytes.length) 0 ++ bytes) ∧
      (∀ bytes : Payload, 8 * n < bytes.length →
        Limbs.ofBytes n bytes = .error (.invalidLength (8 * n) bytes.length))) ∧
    ((∀ a : Limbs n, Limbs.ofBytesExact n a.toBytes = .ok a) ∧
      (∀ bytes : Payload, bytes.length = 8 * n →
        ∃ a : Limbs n, Limbs.ofBytesExact n bytes = .ok a ∧ a.toBytes = bytes) ∧
      (∀ bytes : Payload, bytes.length ≠ 8 * n →
        Limbs.ofBytesExact n bytes = .error (.invalidLength (8 * n) bytes.length))) ∧
    ((∀ value, p.Reduced value → p.decode (encode value) = .ok value) ∧
      (∀ bytes value, p.decode bytes = .ok value → p.Reduced value ∧ encode value = bytes) ∧
      (∀ bytes, bytes.length = 16 → bigEndian bytes < p.value.toNat →
        ∃ value, p.decode bytes = .ok value ∧ value.toNat = bigEndian bytes) ∧
      (∀ bytes, bytes.length = 16 → p.value.toNat ≤ bigEndian bytes →
        p.decode bytes = .error .outOfRange) ∧
      ∀ bytes, bytes.length ≠ 16 → p.decode bytes = .error (.invalidLength 16 bytes.length)) := by
  refine ⟨⟨Limbs.length_toBytes, fun bytes => Limbs.exists_ofBytes, fun bytes =>
    Limbs.ofBytes_of_lt⟩, ⟨fun a => Limbs.ofBytesExact_eq_ok_iff.mpr rfl, ?_, fun bytes =>
    Limbs.ofBytesExact_of_ne⟩, ⟨fun value => decode_encode, fun bytes value => encode_of_decode,
    fun bytes => decode_of_lt, fun bytes => decode_of_le, fun bytes => decode_of_length_ne⟩⟩
  intro bytes hlen
  obtain ⟨a, ha, -⟩ := Limbs.exists_ofBytesExact hlen
  exact ⟨a, ha, (Limbs.ofBytesExact_eq_ok_iff.mp ha).symm⟩

/-- Modulo `2 ^ 128 - 159` the greatest element ends in `0x60`; the modulus itself is refused, and so are
fifteen and seventeen bytes. Three limbs read from two bytes get twenty-two zeros in front. -/
theorem encoding_canonical_boundary :
    let p : Modulus := ⟨.ofNat (2 ^ 128 - 159), by decide⟩
    let top : Element := .ofNat (2 ^ 128 - 160)
    let high : Payload := List.replicate 15 255
    p.Reduced top ∧ p.decode (encode top) = .ok top ∧ encode top = high ++ [0x60] ∧
      p.decode (high ++ [0x61]) = .error .outOfRange ∧
      p.decode high = .error (.invalidLength 16 15) ∧
      p.decode (high ++ [0x60, 0]) = .error (.invalidLength 16 17) ∧
      ∃ a : Limbs 3, Limbs.ofBytes 3 [1, 2] = .ok a ∧ a.toNat = 258 ∧
        a.toBytes = List.replicate 22 0 ++ [1, 2] := by
  intro p top high
  obtain ⟨⟨-, hread, -⟩, -, hdecode, hencode, -, hrange, hlength⟩ := encoding_canonical 3 p
  have htop : p.Reduced top := by decide
  refine ⟨htop, hdecode top htop, by decide, hrange _ rfl (by decide), hlength _ (by decide),
    hlength _ (by decide), ?_⟩
  exact hread [1, 2] (by decide)

end Modulus
end AuthenticatedMpc
