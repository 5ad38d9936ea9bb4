import AuthenticatedMpc.Limbs.Value

/-!
# Sums, differences and products of limb integers

A sum or a difference together with its carry or borrow is exact. Every row of the schoolbook
product finds a zero in the slot where it stores its last carry, so no carry is lost: all words of
the product together stand for the product of the numbers.
-/

namespace AuthenticatedMpc
namespace Words

theorem value_append (as bs : List UInt64) :
    value (as ++ bs) = value as + 2 ^ (64 * as.length) * value bs := by
  induction as with
  | nil => simp [value]
  | cons a as ih =>
    have hpow : 2 ^ (64 * (a :: as).length) = 2 ^ 64 * 2 ^ (64 * as.length) := by
      rw [List.length_cons, Nat.mul_add, Nat.mul_one, Nat.pow_add, Nat.mul_comm]
    rw [List.cons_append, value, value, ih, hpow, Nat.mul_add, Nat.mul_assoc, Nat.add_assoc]

@[simp] theorem value_replicate_zero (n : Nat) : value (List.replicate n 0) = 0 := by
  induction n with
  | zero => rfl
  | succ n ih => simp [List.replicate_succ, value, ih]

theorem accumulate_lt (factor word slot carry : UInt64) :
    accumulate factor word slot carry < 2 ^ 128 := by
  have hslot := slot.toNat_lt
  have hcarry := carry.toNat_lt
  have hproduct : factor.toNat * word.toNat ≤ (2 ^ 64 - 1) * (2 ^ 64 - 1) :=
    Nat.mul_le_mul (Nat.le_pred_of_lt factor.toNat_lt) (Nat.le_pred_of_lt word.toNat_lt)
  unfold accumulate
  omega

theorem accumulate_split (factor word slot carry : UInt64) :
    (accumulate factor word slot carry).toUInt64.toNat +
        2 ^ 64 * (accumulate factor word slot carry / 2 ^ 64).toUInt64.toNat =
      factor.toNat * word.toNat + slot.toNat + carry.toNat := by
  have hlt := accumulate_lt factor word slot carry
  have hlow : (accumulate factor word slot carry).toUInt64.toNat =
      accumulate factor word slot carry % 2 ^ 64 := rfl
  have hhigh : (accumulate factor word slot carry / 2 ^ 64).toUInt64.toNat =
      accumulate factor word slot carry / 2 ^ 64 % 2 ^ 64 := rfl
  rw [hlow, hhigh, show factor.toNat * word.toNat + slot.toNat + carry.toNat =
    accumulate factor word slot carry from rfl]
  omega

/-- A row that finds a zero where it ends changes nothing behind it, and adds its product. -/
theorem addRow_append (factor : UInt64) {words buffer : List UInt64}
    (hlen : buffer.length = words.length) (rest : List UInt64) (carry : UInt64) :
    ∃ row, addRow factor words (buffer ++ 0 :: rest) carry = row ++ rest ∧
      row.length = words.length + 1 ∧
      value row = value buffer + factor.toNat * value words + carry.toNat := by
  induction words generalizing buffer carry with
  | nil =>
    have hnil : buffer = [] := List.length_eq_zero_iff.1 hlen
    exact ⟨[carry], by simp [hnil, addRow], rfl, by simp [hnil, value]⟩
  | cons word words ih =>
    cases buffer with
    | nil => cases hlen
    | cons slot buffer =>
      obtain ⟨row, hrow, hlength, hvalue⟩ := ih (Nat.succ.inj hlen)
        (accumulate factor word slot carry / 2 ^ 64).toUInt64
      refine ⟨(accumulate factor word slot carry).toUInt64 :: row, ?_, ?_, ?_⟩
      · simp only [List.cons_append, addRow, hrow]
      · simp only [List.length_cons, hlength]
      · have hsplit := accumulate_split factor word slot carry
        simp only [value, hvalue, Nat.mul_add, Nat.mul_left_comm factor.toNat]
        omega

theorem value_addProduct (left : List UInt64) {right buffer : List UInt64}
    (hlen : buffer.length = right.length) :
    value (addProduct left right (buffer ++ List.replicate left.length 0)) =
      value buffer + value left * value right := by
  induction left generalizing buffer with
  | nil => simp [addProduct, value]
  | cons factor left ih =>
    rw [List.length_cons, List.replicate_succ, addProduct]
    obtain ⟨row, hrow, hlength, hvalue⟩ :=
      addRow_append factor hlen (List.replicate left.length 0) 0
    rw [hrow]
    cases row with
    | nil => cases hlength
    | cons low window =>
      have hwindow : window.length = right.length := Nat.succ.inj hlength
      simp only [value, UInt64.toNat_zero] at hvalue
      simp only [List.cons_append, value, ih hwindow, Nat.add_mul, Nat.mul_add, Nat.mul_assoc]
      omega

end Words

namespace Limbs

variable {n : Nat}

theorem toNat_overflowingAdd (a b : Limbs n) :
    (a.overflowingAdd b).1.toNat + 2 ^ (64 * n) * (a.overflowingAdd b).2.toNat =
      a.toNat + b.toNat := by
  have h := Words.value_addCarry (a.length_words.trans b.length_words.symm) false
  rwa [a.length_words] at h

theorem toNat_overflowingSub (a b : Limbs n) :
    (a.overflowingSub b).1.toNat + b.toNat =
      a.toNat + 2 ^ (64 * n) * (a.overflowingSub b).2.toNat := by
  have h := Words.value_subBorrow (a.length_words.trans b.length_words.symm) false
  rwa [a.length_words] at h

theorem toNat_add (a b : Limbs n) : (a + b).toNat = (a.toNat + b.toNat) % 2 ^ (64 * n) := by
  have h := toNat_overflowingAdd a b
  have hlt : (a + b).toNat < 2 ^ (64 * n) := (a + b).toNat_lt
  rw [← h, Nat.add_mul_mod_self_left]
  exact (Nat.mod_eq_of_lt hlt).symm

theorem toNat_sub_of_le {a b : Limbs n} (hle : b.toNat ≤ a.toNat) :
    (a - b).toNat = a.toNat - b.toNat := by
  have h := toNat_overflowingSub a b
  have hlt : (a - b).toNat < 2 ^ (64 * n) := (a - b).toNat_lt
  have hdiff : (a - b).toNat = (a.overflowingSub b).1.toNat := rfl
  cases hborrow : (a.overflowingSub b).2 <;> rw [hborrow] at h <;>
    simp only [Bool.toNat_false, Bool.toNat_true] at h <;> omega

/-- Subtracting after a carry gives the true difference, since both wrap once. -/
theorem toNat_sub_of_lt {a b : Limbs n} (hlt : a.toNat < b.toNat) :
    (a - b).toNat + b.toNat = a.toNat + 2 ^ (64 * n) := by
  have h := toNat_overflowingSub a b
  have hdiff : (a - b).toNat = (a.overflowingSub b).1.toNat := rfl
  cases hborrow : (a.overflowingSub b).2 <;> rw [hborrow] at h <;>
    simp only [Bool.toNat_false, Bool.toNat_true] at h <;> omega

theorem value_productWords (a b : Limbs n) :
    Words.value (productWords a b) = a.toNat * b.toNat := by
  have hlen : (List.replicate n (0 : UInt64)).length = b.words.length := by
    rw [List.length_replicate, b.length_words]
  have h := Words.value_addProduct a.words hlen
  rwa [a.length_words, List.replicate_append_replicate, Words.value_replicate_zero,
    Nat.zero_add] at h

theorem toNat_wideningMul (a b : Limbs n) :
    (a.wideningMul b).1.toNat + 2 ^ (64 * n) * (a.wideningMul b).2.toNat =
      a.toNat * b.toNat := by
  have htake : ((productWords a b).take n).length = n := by simp [productWords]
  have h := Words.value_append ((productWords a b).take n) ((productWords a b).drop n)
  rw [List.take_append_drop, htake, value_productWords] at h
  exact h.symm

end Limbs
end AuthenticatedMpc
