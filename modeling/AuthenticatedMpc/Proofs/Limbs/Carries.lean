import AuthenticatedMpc.Proofs.Limbs.Arithmetic
import AuthenticatedMpc.Proofs.Limbs.Digits
import Mathlib.Algebra.Ring.Int.Defs
import Mathlib.Data.Int.Cast.Basic
import Mathlib.Order.Bounds.Basic

/-!
# Carries, borrows, order and digits of limb integers

A sum and its carry, or a difference and its borrow, determine the exact result for any number of limbs,
and the borrow is the comparison of the two numbers. Negation is the complement to the width; order,
binary digits and bit length are those of the number that the limbs stand for.
-/

namespace AuthenticatedMpc
namespace Limbs

variable {n : ℕ}

@[simp] theorem toNat_zero : (zero n).toNat = 0 := Words.value_replicate_zero n

/-- A borrow is taken exactly where the subtrahend is the larger number. -/
theorem overflowingSub_snd (a b : Limbs n) :
    (a.overflowingSub b).2 = decide (a.toNat < b.toNat) := by
  have hdiff := toNat_overflowingSub a b
  have hlt := (a.overflowingSub b).1.toNat_lt
  have hb := b.toNat_lt
  cases hborrow : (a.overflowingSub b).2 <;> rw [hborrow] at hdiff
  · simp only [Bool.toNat_false, Nat.mul_zero, Nat.add_zero] at hdiff
    simp only [Bool.false_eq, decide_eq_false_iff_not]
    omega
  · simp only [Bool.toNat_true, Nat.mul_one] at hdiff
    simp only [Bool.true_eq, decide_eq_true_eq]
    omega

theorem intCast_overflowingSub (a b : Limbs n) :
    ((a.overflowingSub b).1.toNat : ℤ) - (a.overflowingSub b).2.toNat * 2 ^ bits n =
      a.toNat - b.toNat := by
  have hdiff : ((a.overflowingSub b).1.toNat : ℤ) + b.toNat =
      a.toNat + 2 ^ bits n * (a.overflowingSub b).2.toNat := by
    exact_mod_cast toNat_overflowingSub a b
  rw [Int.mul_comm]
  omega

/-! ## Negation -/

theorem toNat_neg (a : Limbs n) : (-a).toNat = (2 ^ bits n - a.toNat) % 2 ^ bits n := by
  have hlt : a.toNat < 2 ^ bits n := a.toNat_lt
  change (zero n - a).toNat = _
  rcases Nat.eq_zero_or_pos a.toNat with hzero | hpos
  · rw [toNat_sub_of_le (Nat.le_of_eq (hzero.trans toNat_zero.symm)), hzero]
    simp
  · have hdiff := toNat_sub_of_lt (a := zero n) (b := a) (by rwa [toNat_zero])
    rw [toNat_zero, Nat.zero_add] at hdiff
    rw [Nat.mod_eq_of_lt (Nat.sub_lt (Nat.two_pow_pos _) hpos)]
    exact Nat.eq_sub_of_add_eq hdiff

theorem toNat_add_toNat_neg_mod (a : Limbs n) : (a.toNat + (-a).toNat) % 2 ^ bits n = 0 := by
  have hlt : a.toNat < 2 ^ bits n := a.toNat_lt
  rw [toNat_neg, Nat.add_mod_mod, Nat.add_sub_of_le (Nat.le_of_lt hlt), Nat.mod_self]

theorem add_neg (a : Limbs n) : a + -a = zero n := by
  rw [← toNat_inj, toNat_add, toNat_zero]
  exact toNat_add_toNat_neg_mod a

theorem neg_neg (a : Limbs n) : - -a = a := by
  have hlt : a.toNat < 2 ^ bits n := a.toNat_lt
  rw [← toNat_inj, toNat_neg, toNat_neg]
  rcases Nat.eq_zero_or_pos a.toNat with hzero | hpos
  · simp [hzero]
  · rw [Nat.mod_eq_of_lt (Nat.sub_lt (Nat.two_pow_pos _) hpos), Nat.sub_sub_self (Nat.le_of_lt hlt),
      Nat.mod_eq_of_lt hlt]

/-! ## Digits -/

theorem bit_of_le (a : Limbs n) {i : ℕ} (hi : bits n ≤ i) : a.bit i = false := by
  simp [bit, Nat.not_lt.mpr hi]

theorem isLeast_bitLength (a : Limbs n) : IsLeast {k | a.toNat < 2 ^ k} a.bitLength :=
  ⟨(a.bitLength_le_iff _).mp le_rfl, fun k hk => (a.bitLength_le_iff k).mpr hk⟩

/-- Sums and differences with their carries and borrows, negatives, order, binary digits and bit length
are those of the numbers, for any number of limbs. -/
theorem carry_exact (a b : Limbs n) :
    (a.overflowingAdd b).1.toNat + (a.overflowingAdd b).2.toNat * 2 ^ bits n = a.toNat + b.toNat ∧
      ((a.overflowingSub b).1.toNat : ℤ) - (a.overflowingSub b).2.toNat * 2 ^ bits n =
        a.toNat - b.toNat ∧
      (a.overflowingSub b).2 = decide (a.toNat < b.toNat) ∧
      - -a = a ∧ a + -a = zero n ∧ (a.toNat + (-a).toNat) % 2 ^ bits n = 0 ∧
      compare a b = compare a.toNat b.toNat ∧
      (∀ i, a.bit i = a.toNat.testBit i) ∧ (∀ i, bits n ≤ i → a.bit i = false) ∧
      IsLeast {k | a.toNat < 2 ^ k} a.bitLength := by
  have hsum := toNat_overflowingAdd a b
  rw [Nat.mul_comm] at hsum
  exact ⟨hsum, intCast_overflowingSub a b, overflowingSub_snd a b, neg_neg a, add_neg a,
    toNat_add_toNat_neg_mod a, compare_eq a b, bit_eq a, fun i => a.bit_of_le, isLeast_bitLength a⟩

/-- One less than a power of two carries through all limbs when one is added to it, and has no digits
beyond them. -/
theorem carry_exact_wrap :
    ((largest 3).overflowingAdd (.one 3)).1.toNat +
        ((largest 3).overflowingAdd (.one 3)).2.toNat * 2 ^ bits 3 = 2 ^ 192 ∧
      ((largest 3).overflowingAdd (.one 3)).2 = true ∧ (largest 3).bit 192 = false := by
  obtain ⟨hsum, -, -, -, -, -, -, -, hbeyond, -⟩ := carry_exact (largest 3) (.one 3)
  exact ⟨hsum.trans (by decide), by decide, hbeyond 192 (by decide)⟩

end Limbs
end AuthenticatedMpc
