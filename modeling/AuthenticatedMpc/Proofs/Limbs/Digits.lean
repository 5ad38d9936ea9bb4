import AuthenticatedMpc.Limbs.Value

/-!
# Words, binary digits and bit length of a limb integer

A word of a list is a digit of its value in base `2 ^ 64`, `bit` reads the binary digits of the number
that an integer stands for, and `bitLength` is the least number of digits that it fits in.
-/

namespace AuthenticatedMpc
namespace Words

theorem toNat_getElem? (words : List UInt64) (i : Nat) :
    (words[i]?.getD 0).toNat = value words / 2 ^ (64 * i) % 2 ^ 64 := by
  induction words generalizing i with
  | nil => simp [value]
  | cons word words ih =>
    have hword := word.toNat_lt
    cases i with
    | zero =>
      simp only [List.getElem?_cons_zero, Option.getD_some, value, Nat.mul_zero, Nat.pow_zero,
        Nat.div_one]
      omega
    | succ i =>
      rw [List.getElem?_cons_succ, ih, value, show 64 * (i + 1) = 64 + 64 * i by omega,
        Nat.pow_add, ← Nat.div_div_eq_div_mul,
        show (word.toNat + 2 ^ 64 * value words) / 2 ^ 64 = value words by omega]

theorem testBit_word (word : UInt64) {i : Nat} (hi : i < 64) :
    ((word >>> i.toUInt64) &&& 1 == 1) = word.toNat.testBit i := by
  have hshift : (i.toUInt64).toNat % 64 = i := by
    show i % 2 ^ 64 % 64 = i
    omega
  have hand : ((word >>> i.toUInt64) &&& 1).toNat = word.toNat >>> i % 2 := by
    rw [UInt64.toNat_and, UInt64.toNat_shiftRight, hshift, UInt64.toNat_one, Nat.and_one_is_mod]
  rw [Nat.testBit, Nat.one_and_eq_mod_two, ← hand]
  rw [Bool.eq_iff_iff]
  simp only [beq_iff_eq, bne_iff_ne, ne_eq]
  rw [← UInt64.toNat_inj, UInt64.toNat_one]
  omega

theorem wordBits_le_iff (word : UInt64) (k : Nat) : wordBits word ≤ k ↔ word.toNat < 2 ^ k := by
  unfold wordBits
  split
  · next hzero =>
    rw [hzero]
    exact iff_of_true (Nat.zero_le k) (Nat.two_pow_pos k)
  · next hne =>
    have hpos : word.toNat ≠ 0 := fun h => hne (UInt64.toNat_inj.1 h)
    rw [Nat.succ_le_iff, Nat.log2_lt hpos]

theorem bitLength_le_iff (words : List UInt64) (k : Nat) :
    bitLength words ≤ k ↔ value words < 2 ^ k := by
  induction words generalizing k with
  | nil => exact iff_of_true (Nat.zero_le k) (Nat.two_pow_pos k)
  | cons word words ih =>
    rw [bitLength, value]
    split
    · next hbits =>
      have hzero : value words < 2 ^ 0 := (ih 0).1 (Nat.le_of_eq hbits)
      rw [wordBits_le_iff, show value words = 0 by omega, Nat.mul_zero, Nat.add_zero]
    · next bits hbits =>
      have hpos : ¬value words < 2 ^ 0 := fun h => by
        have := (ih 0).2 h
        omega
      have hword := word.toNat_lt
      rcases Nat.lt_or_ge k 64 with hk | hk
      · have hpow : 2 ^ k ≤ 2 ^ 64 := Nat.pow_le_pow_right (by decide) (Nat.le_of_lt hk)
        omega
      · -- Past the lowest word the question is the one about the words above it.
        obtain ⟨j, rfl⟩ := Nat.exists_eq_add_of_le hk
        have hrest := ih j
        rw [hbits] at hrest
        rw [Nat.pow_add]
        omega

end Words

namespace Limbs

variable {n : Nat}

theorem bitLength_le_iff (a : Limbs n) (k : Nat) : a.bitLength ≤ k ↔ a.toNat < 2 ^ k :=
  Words.bitLength_le_iff a.words k

/-- Digits beyond the width are zero, as those of the number are. -/
theorem bit_eq (a : Limbs n) (i : Nat) : a.bit i = a.toNat.testBit i := by
  unfold bit bits
  by_cases hi : i < 64 * n
  · rw [Words.testBit_word _ (Nat.mod_lt i (by decide)), Words.toNat_getElem?,
      Nat.testBit_mod_two_pow, Nat.testBit_div_two_pow, Nat.mod_add_div]
    simp [hi, Nat.mod_lt i, toNat]
  · have hlt : a.toNat < 2 ^ i :=
      Nat.lt_of_lt_of_le a.toNat_lt (Nat.pow_le_pow_right (by decide) (Nat.le_of_not_lt hi))
    simp [hi, Nat.testBit_lt_two_pow hlt]

end Limbs
end AuthenticatedMpc
