import AuthenticatedMpc.Limbs.Basic
import Mathlib.Algebra.Group.Nat.Defs

/-!
# The number a list of words stands for

Word lists of one length and the numbers below a power of `2 ^ 64` are in bijection: `value` and
`ofNat` are inverse to each other. Sums and differences keep the value up to the carry that they
report, and comparing words is comparing values.
-/

namespace AuthenticatedMpc

namespace Words

theorem value_lt (words : List UInt64) : value words < 2 ^ (64 * words.length) := by
  induction words with
  | nil => decide
  | cons word words ih =>
    have hword := word.toNat_lt
    have hpow : 2 ^ (64 * (word :: words).length) = 2 ^ 64 * 2 ^ (64 * words.length) := by
      rw [List.length_cons, Nat.mul_add, Nat.mul_one, Nat.pow_add, Nat.mul_comm]
    rw [value, hpow]
    calc word.toNat + 2 ^ 64 * value words
        < 2 ^ 64 + 2 ^ 64 * value words := by omega
      _ = 2 ^ 64 * (value words + 1) := by omega
      _ ≤ 2 ^ 64 * 2 ^ (64 * words.length) := Nat.mul_le_mul_left _ ih

theorem value_ofNat (n v : Nat) : value (ofNat n v) = v % 2 ^ (64 * n) := by
  induction n generalizing v with
  | zero => simp [ofNat, value, Nat.mod_one]
  | succ n ih =>
    have hpow : 2 ^ (64 * (n + 1)) = 2 ^ 64 * 2 ^ (64 * n) := by
      rw [Nat.mul_add, Nat.mul_one, Nat.pow_add, Nat.mul_comm]
    have hword : v.toUInt64.toNat = v % 2 ^ 64 := rfl
    rw [ofNat, value, ih, hpow, hword, Nat.mod_mul]

theorem eq_of_value_eq {as bs : List UInt64} (hlen : as.length = bs.length)
    (h : value as = value bs) : as = bs := by
  induction as generalizing bs with
  | nil => exact (List.length_eq_zero_iff.1 hlen.symm).symm
  | cons a as ih =>
    cases bs with
    | nil => cases hlen
    | cons b bs =>
      have ha := a.toNat_lt
      have hb := b.toNat_lt
      simp only [value] at h
      have hhead : a = b := UInt64.toNat_inj.1 (by omega)
      rw [hhead, ih (by simpa using hlen) (by omega)]

/-! ## Sums and differences -/

theorem toNat_toUInt64 (b : Bool) : b.toUInt64.toNat = b.toNat := by cases b <;> rfl

/-- One step of a sum: the word and the carry together are the sum of the words and the carry in. -/
theorem add_step (a b : UInt64) (carry : Bool) :
    (a + b + carry.toUInt64).toNat +
        2 ^ 64 * (decide (a + b < a) || decide (a + b + carry.toUInt64 < a + b)).toNat =
      a.toNat + b.toNat + carry.toNat := by
  have ha := a.toNat_lt
  have hb := b.toNat_lt
  have hsum : (a + b).toNat = (a.toNat + b.toNat) % 2 ^ 64 := UInt64.toNat_add a b
  have hout : (a + b + carry.toUInt64).toNat = ((a + b).toNat + carry.toNat) % 2 ^ 64 := by
    rw [UInt64.toNat_add, toNat_toUInt64]
  rw [show decide (a + b < a) = decide ((a + b).toNat < a.toNat) from rfl,
    show decide (a + b + carry.toUInt64 < a + b) =
      decide ((a + b + carry.toUInt64).toNat < (a + b).toNat) from rfl]
  have hcarry := carry.toNat_le
  by_cases h₁ : (a + b).toNat < a.toNat
  · rw [decide_eq_true h₁, Bool.true_or, Bool.toNat_true]
    omega
  · by_cases h₂ : (a + b + carry.toUInt64).toNat < (a + b).toNat
    · rw [decide_eq_true h₂, Bool.or_true, Bool.toNat_true]
      omega
    · rw [decide_eq_false h₁, decide_eq_false h₂, Bool.or_false, Bool.toNat_false]
      omega

/-- One step of a difference: the word is short of the true difference by the borrow. -/
theorem sub_step (a b : UInt64) (borrow : Bool) :
    (a - b - borrow.toUInt64).toNat + b.toNat + borrow.toNat =
      a.toNat + 2 ^ 64 * (decide (a < b) || decide (a - b < borrow.toUInt64)).toNat := by
  have ha := a.toNat_lt
  have hb := b.toNat_lt
  have hborrow := borrow.toNat_le
  have hdiff : (a - b).toNat = (2 ^ 64 - b.toNat + a.toNat) % 2 ^ 64 := UInt64.toNat_sub a b
  have hout : (a - b - borrow.toUInt64).toNat =
      (2 ^ 64 - borrow.toNat + (a - b).toNat) % 2 ^ 64 := by
    rw [UInt64.toNat_sub, toNat_toUInt64]
  rw [show decide (a < b) = decide (a.toNat < b.toNat) from rfl,
    show decide (a - b < borrow.toUInt64) = decide ((a - b).toNat < borrow.toUInt64.toNat) from rfl,
    toNat_toUInt64]
  by_cases h₁ : a.toNat < b.toNat
  · rw [decide_eq_true h₁, Bool.true_or, Bool.toNat_true]
    omega
  · by_cases h₂ : (a - b).toNat < borrow.toNat
    · rw [decide_eq_true h₂, Bool.or_true, Bool.toNat_true]
      omega
    · rw [decide_eq_false h₁, decide_eq_false h₂, Bool.or_false, Bool.toNat_false]
      omega

theorem value_addCarry {as bs : List UInt64} (hlen : as.length = bs.length) (carry : Bool) :
    value (addCarry as bs carry).1 + 2 ^ (64 * as.length) * (addCarry as bs carry).2.toNat =
      value as + value bs + carry.toNat := by
  induction as generalizing bs carry with
  | nil =>
    have hnil : bs = [] := List.length_eq_zero_iff.1 hlen.symm
    simp [hnil, addCarry, value]
  | cons a as ih =>
    cases bs with
    | nil => cases hlen
    | cons b bs =>
      have hstep := add_step a b carry
      have hrest := ih (Nat.succ.inj hlen)
        (decide (a + b < a) || decide (a + b + carry.toUInt64 < a + b))
      have hpow : 2 ^ (64 * (a :: as).length) = 2 ^ 64 * 2 ^ (64 * as.length) := by
        rw [List.length_cons, Nat.mul_add, Nat.mul_one, Nat.pow_add, Nat.mul_comm]
      simp only [addCarry, value]
      rw [hpow, Nat.mul_assoc]
      omega

theorem value_subBorrow {as bs : List UInt64} (hlen : as.length = bs.length) (borrow : Bool) :
    value (subBorrow as bs borrow).1 + value bs + borrow.toNat =
      value as + 2 ^ (64 * as.length) * (subBorrow as bs borrow).2.toNat := by
  induction as generalizing bs borrow with
  | nil =>
    have hnil : bs = [] := List.length_eq_zero_iff.1 hlen.symm
    simp [hnil, subBorrow, value]
  | cons a as ih =>
    cases bs with
    | nil => cases hlen
    | cons b bs =>
      have hstep := sub_step a b borrow
      have hrest := ih (Nat.succ.inj hlen)
        (decide (a < b) || decide (a - b < borrow.toUInt64))
      have hpow : 2 ^ (64 * (a :: as).length) = 2 ^ 64 * 2 ^ (64 * as.length) := by
        rw [List.length_cons, Nat.mul_add, Nat.mul_one, Nat.pow_add, Nat.mul_comm]
      simp only [subBorrow, value]
      rw [hpow, Nat.mul_assoc]
      omega

/-! ## Order -/

theorem compare_word (a b : UInt64) : compare a b = compare a.toNat b.toNat := by
  show compareOfLessAndEq a b = compareOfLessAndEq a.toNat b.toNat
  unfold compareOfLessAndEq
  simp only [UInt64.lt_iff_toNat_lt, UInt64.toNat_inj]

theorem compareWords_eq {as bs : List UInt64} (hlen : as.length = bs.length) :
    compareWords as bs = compare (value as) (value bs) := by
  induction as generalizing bs with
  | nil => rw [List.length_eq_zero_iff.1 hlen.symm]; rfl
  | cons a as ih =>
    cases bs with
    | nil => cases hlen
    | cons b bs =>
      have ha := a.toNat_lt
      have hb := b.toNat_lt
      rw [compareWords, ih (by simpa using hlen), value, value]
      rcases Nat.lt_trichotomy (value as) (value bs) with h | h | h
      · rw [Nat.compare_eq_lt.2 h, Nat.compare_eq_lt.2 (by omega)]
        rfl
      · rw [Nat.compare_eq_eq.2 h, h]
        show compare a b = _
        rw [compare_word]
        rcases Nat.lt_trichotomy a.toNat b.toNat with h | h | h
        · rw [Nat.compare_eq_lt.2 h, Nat.compare_eq_lt.2 (by omega)]
        · rw [Nat.compare_eq_eq.2 h, Nat.compare_eq_eq.2 (by omega)]
        · rw [Nat.compare_eq_gt.2 h, Nat.compare_eq_gt.2 (by omega)]
      · rw [Nat.compare_eq_gt.2 h, Nat.compare_eq_gt.2 (by omega)]
        rfl

end Words

namespace Limbs

variable {n : Nat}

theorem toNat_lt (a : Limbs n) : a.toNat < 2 ^ (64 * n) := by
  have h := Words.value_lt a.words
  rwa [a.length_words] at h

theorem toNat_ofNat (n v : Nat) : (ofNat n v).toNat = v % 2 ^ (64 * n) := Words.value_ofNat n v

theorem toNat_inj {a b : Limbs n} : a.toNat = b.toNat ↔ a = b := by
  constructor
  · intro h
    cases a with
    | mk as ha =>
      cases b with
      | mk bs hb =>
        have hwords : as = bs := Words.eq_of_value_eq (by rw [ha, hb]) h
        subst hwords
        rfl
  · intro h
    rw [h]

theorem compare_eq (a b : Limbs n) : compare a b = compare a.toNat b.toNat :=
  Words.compareWords_eq (by rw [a.length_words, b.length_words])

theorem lt_iff (a b : Limbs n) : a < b ↔ a.toNat < b.toNat := by
  show compare a b = .lt ↔ _
  rw [compare_eq, Nat.compare_eq_lt]

theorem le_iff (a b : Limbs n) : a ≤ b ↔ a.toNat ≤ b.toNat := by
  show compare a b ≠ .gt ↔ _
  rw [compare_eq, Ne, Nat.compare_eq_gt, Nat.not_lt]

end Limbs
end AuthenticatedMpc
