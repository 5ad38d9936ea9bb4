import AuthenticatedMpc.Limbs.Bytes
import AuthenticatedMpc.Proofs.Limbs.Arithmetic
import Mathlib.Data.List.Induction
import Mathlib.Tactic.Ring

/-!
# The value of a byte string

Encoding and exact decoding are inverse to each other: both keep the big-endian value, and a byte
string of known length is determined by it.
-/

namespace AuthenticatedMpc

/-- The number that a byte string stands for, the most significant byte first. -/
def bigEndian (bytes : List UInt8) : Nat := bytes.foldl (fun acc byte => acc * 256 + byte.toNat) 0

theorem bigEndian_append (front back : List UInt8) :
    bigEndian (front ++ back) = bigEndian front * 256 ^ back.length + bigEndian back := by
  have hfold : ∀ acc, back.foldl (fun acc byte => acc * 256 + byte.toNat) acc =
      acc * 256 ^ back.length + bigEndian back := by
    induction back with
    | nil => simp [bigEndian]
    | cons byte back ih =>
      intro acc
      simp only [bigEndian, List.foldl_cons, List.length_cons] at ih ⊢
      rw [ih (acc * 256 + byte.toNat), ih (0 * 256 + byte.toNat)]
      ring
  rw [bigEndian, List.foldl_append]
  exact hfold _

theorem bigEndian_concat (bytes : List UInt8) (byte : UInt8) :
    bigEndian (bytes ++ [byte]) = bigEndian bytes * 256 + byte.toNat := by
  simp [bigEndian]

theorem bigEndian_replicate_zero (count : Nat) (bytes : List UInt8) :
    bigEndian (List.replicate count 0 ++ bytes) = bigEndian bytes := by
  induction count with
  | zero => rfl
  | succ count ih => exact ih

theorem bigEndian_lt (bytes : List UInt8) : bigEndian bytes < 256 ^ bytes.length := by
  induction bytes using List.reverseRecOn with
  | nil => simp [bigEndian]
  | append_singleton bytes byte ih =>
    rw [bigEndian_concat, List.length_append, List.length_singleton, pow_succ]
    have := byte.toNat_lt
    omega

/-- Byte strings of one length are told apart by their values. -/
theorem bigEndian_inj {front back : List UInt8} (hlen : front.length = back.length) :
    bigEndian front = bigEndian back ↔ front = back := by
  refine ⟨fun h => ?_, fun h => h ▸ rfl⟩
  induction front using List.reverseRecOn generalizing back with
  | nil => exact (List.length_eq_zero_iff.mp hlen.symm).symm
  | append_singleton front byte ih =>
    obtain rfl | ⟨back, byte', rfl⟩ := back.eq_nil_or_concat
    · simp at hlen
    · rw [List.concat_eq_append] at hlen h ⊢
      rw [bigEndian_concat, bigEndian_concat] at h
      have hbyte := byte.toNat_lt
      have hbyte' := byte'.toNat_lt
      have hvalue : bigEndian front = bigEndian back := by omega
      have hlast : byte = byte' := UInt8.toNat_inj.mp (by omega)
      rw [ih (by simpa using hlen) hvalue, hlast]

namespace Words

@[simp] theorem length_wordBytes (word : UInt64) : (wordBytes word).length = 8 := rfl

theorem bigEndian_wordBytes (word : UInt64) : bigEndian (wordBytes word) = word.toNat := by
  have htop : word.toNat / 2 ^ 56 % 2 ^ 8 = word.toNat / 2 ^ 56 :=
    Nat.mod_eq_of_lt (Nat.div_lt_of_lt_mul word.toNat_lt)
  -- The bytes so far, and one more: Horner's rule on the shifted word.
  have hnext (k : Nat) : word.toNat / 2 ^ (k + 8) * 256 + word.toNat / 2 ^ k % 2 ^ 8 =
      word.toNat / 2 ^ k := by
    rw [pow_add, ← Nat.div_div_eq_div_mul]
    exact Nat.div_add_mod' (word.toNat / 2 ^ k) (2 ^ 8)
  rw [wordBytes, bigEndian]
  iterate 8 rw [List.foldl_cons]
  simp only [List.foldl_nil, UInt64.toNat_toUInt8, UInt64.toNat_shiftRight,
    Nat.shiftRight_eq_div_pow, UInt64.reduceToNat, Nat.reduceMod, Nat.zero_mul, Nat.zero_add, htop]
  rw [hnext 48, hnext 40, hnext 32, hnext 24, hnext 16, hnext 8]
  simpa using hnext 0

theorem toNat_wordOfBytes {bytes : List UInt8} (hlen : bytes.length ≤ 8) :
    (wordOfBytes bytes).toNat = bigEndian bytes := by
  induction bytes using List.reverseRecOn with
  | nil => rfl
  | append_singleton bytes byte ih =>
    rw [List.length_append, List.length_singleton] at hlen
    have hvalue := ih (by omega)
    have hlt : bigEndian bytes < 2 ^ 56 :=
      (bigEndian_lt bytes).trans_le (by
        calc 256 ^ bytes.length ≤ 256 ^ 7 := Nat.pow_le_pow_right (by norm_num) (by omega)
          _ = 2 ^ 56 := by norm_num)
    rw [bigEndian_concat, wordOfBytes, List.foldl_append, List.foldl_cons, List.foldl_nil,
      ← wordOfBytes, UInt64.toNat_or, UInt64.toNat_shiftLeft, hvalue, UInt8.toNat_toUInt64,
      show (8 : UInt64).toNat % 64 = 8 from rfl, Nat.mod_eq_of_lt (by
        rw [Nat.shiftLeft_eq]
        omega), ← Nat.shiftLeft_add_eq_or_of_lt byte.toNat_lt, Nat.shiftLeft_eq]

theorem value_ofBytes {n : Nat} {bytes : List UInt8} (hlen : bytes.length = 8 * n) :
    value (ofBytes n bytes) = bigEndian bytes := by
  induction n generalizing bytes with
  | zero => rw [List.length_eq_zero_iff.mp hlen]; rfl
  | succ n ih =>
    have hdrop : (bytes.drop 8).length = 8 * n := by rw [List.length_drop]; omega
    have htake : (bytes.take 8).length ≤ 8 := List.length_take_le ..
    rw [ofBytes, value_append, ih hdrop, length_ofBytes, value, value, toNat_wordOfBytes htake]
    conv_rhs => rw [← List.take_append_drop 8 bytes, bigEndian_append, hdrop]
    rw [show (256 : Nat) ^ (8 * n) = 2 ^ (64 * n) by
      rw [show (256 : Nat) = 2 ^ 8 by norm_num, ← pow_mul]
      ring_nf]
    ring

end Words

namespace Limbs

variable {n : Nat}

theorem length_toBytes (a : Limbs n) : a.toBytes.length = byteLength n := by
  rw [toBytes, List.length_flatMap, byteLength]
  simp [List.map_const', a.length_words, Nat.mul_comm]

theorem bigEndian_toBytes (a : Limbs n) : bigEndian a.toBytes = a.toNat := by
  have hwords : ∀ words : List UInt64,
      bigEndian (words.reverse.flatMap Words.wordBytes) = Words.value words := by
    intro words
    induction words with
    | nil => rfl
    | cons word words ih =>
      rw [List.reverse_cons, List.flatMap_append, bigEndian_append, ih, List.flatMap_singleton,
        Words.bigEndian_wordBytes, Words.length_wordBytes, Words.value]
      ring
  exact hwords a.words

/-- A string that is not too long is read as its value, which is that of the string filled up with
zeros on the left. -/
theorem exists_ofBytes {bytes : List UInt8} (hlen : bytes.length ≤ byteLength n) :
    ∃ a : Limbs n, ofBytes n bytes = .ok a ∧ a.toNat = bigEndian bytes ∧
      a.toBytes = List.replicate (byteLength n - bytes.length) 0 ++ bytes := by
  have hpadded : (List.replicate (byteLength n - bytes.length) (0 : UInt8) ++ bytes).length =
      byteLength n := by
    rw [List.length_append, List.length_replicate, Nat.sub_add_cancel hlen]
  have hvalue := Words.value_ofBytes hpadded
  refine ⟨_, if_neg (Nat.not_lt.mpr hlen), ?_, ?_⟩
  · rw [← bigEndian_replicate_zero (byteLength n - bytes.length)]
    exact hvalue
  · rw [← bigEndian_inj ((length_toBytes _).trans hpadded.symm), bigEndian_toBytes]
    exact hvalue

theorem ofBytes_of_lt {bytes : List UInt8} (hlen : byteLength n < bytes.length) :
    ofBytes n bytes = .error (.invalidLength (byteLength n) bytes.length) := if_pos hlen

theorem exists_ofBytesExact {bytes : List UInt8} (hlen : bytes.length = byteLength n) :
    ∃ a : Limbs n, ofBytesExact n bytes = .ok a ∧ a.toNat = bigEndian bytes := by
  obtain ⟨a, ha, hvalue, -⟩ := exists_ofBytes (Nat.le_of_eq hlen)
  exact ⟨a, by rw [ofBytesExact, if_pos hlen, ha], hvalue⟩

theorem ofBytesExact_of_ne {bytes : List UInt8} (hlen : bytes.length ≠ byteLength n) :
    ofBytesExact n bytes = .error (.invalidLength (byteLength n) bytes.length) := if_neg hlen

theorem exists_toBytes {bytes : List UInt8} (hlen : bytes.length = byteLength n) :
    ∃ a : Limbs n, bytes = a.toBytes := by
  obtain ⟨a, -, hvalue⟩ := exists_ofBytesExact hlen
  refine ⟨a, ?_⟩
  rw [← bigEndian_inj (hlen.trans a.length_toBytes.symm), bigEndian_toBytes, hvalue]

theorem ofBytesExact_eq_ok_iff {bytes : List UInt8} {a : Limbs n} :
    ofBytesExact n bytes = .ok a ↔ bytes = a.toBytes := by
  constructor
  · intro h
    have hlen : bytes.length = byteLength n := by
      by_contra hne
      rw [ofBytesExact, if_neg hne] at h
      cases h
    obtain ⟨b, hb, hvalue⟩ := exists_ofBytesExact hlen
    rw [h] at hb
    cases hb
    rw [← bigEndian_inj (hlen.trans a.length_toBytes.symm), bigEndian_toBytes, hvalue]
  · rintro rfl
    obtain ⟨b, hb, hvalue⟩ := exists_ofBytesExact a.length_toBytes
    rw [hb, ← toNat_inj.mp (hvalue.trans a.bigEndian_toBytes)]

theorem toBytes_inj {a b : Limbs n} : a.toBytes = b.toBytes ↔ a = b := by
  refine ⟨fun h => ?_, fun h => h ▸ rfl⟩
  have ha : ofBytesExact n a.toBytes = .ok a := ofBytesExact_eq_ok_iff.mpr rfl
  have hb : ofBytesExact n a.toBytes = .ok b := ofBytesExact_eq_ok_iff.mpr h
  exact Except.ok.inj (ha.symm.trans hb)

end Limbs
end AuthenticatedMpc
