import AuthenticatedMpc.Field.Modulus
import AuthenticatedMpc.Proofs.Limbs.Bytes
import AuthenticatedMpc.Proofs.Limbs.Digits
import Mathlib.Tactic.Ring

/-!
# Exactness of the field operations

On reduced elements every operation is the one of the residues, and its result is reduced again. A
product is exact on both ways of reducing it: bit by bit, and by the fold for `2 ^ 127 - 1`.
-/

namespace AuthenticatedMpc

namespace Element

theorem toNat_lt (a : Element) : a.toNat < 2 ^ 128 := Limbs.toNat_lt a

theorem toNat_ofNat_of_lt {v : Nat} (h : v < 2 ^ 128) : (ofNat v).toNat = v := by
  rw [ofNat, Limbs.toNat_ofNat, Nat.mod_eq_of_lt h]

@[simp] theorem toNat_zero : zero.toNat = 0 := rfl

@[simp] theorem toNat_one : one.toNat = 1 := rfl

theorem isZero_iff (a : Element) : a.isZero = true ↔ a.toNat = 0 := by
  rw [← toNat_zero, Limbs.toNat_inj]
  obtain ⟨words, hlen⟩ := a
  match words, hlen with
  | [low, high], _ => simp [Limbs.isZero, zero, Limbs.zero]

theorem toNat_toBits (a : Element) : a.toBits.toNat = a.toNat := by
  rw [toBits, BitVec.toNat_ofNat, Nat.mod_eq_of_lt a.toNat_lt]

theorem toNat_ofBits (bits : BitVec 128) : (ofBits bits).toNat = bits.toNat :=
  toNat_ofNat_of_lt bits.isLt

end Element

namespace Modulus

variable (p : Modulus)

/-- An element below the modulus. -/
def Reduced (a : Element) : Prop := a.toNat < p.value.toNat

variable {p}

instance (a : Element) : Decidable (p.Reduced a) :=
  inferInstanceAs (Decidable (a.toNat < p.value.toNat))

theorem reduced_iff {a : Element} : p.Reduced a ↔ a < p.value := (Limbs.lt_iff a p.value).symm

theorem value_pos : 0 < p.value.toNat := Nat.lt_of_lt_of_le (by decide) p.two_le

theorem value_lt : p.value.toNat < 2 ^ 128 := p.value.toNat_lt

theorem mod_value_lt (v : Nat) : v % p.value.toNat < p.value.toNat := Nat.mod_lt v value_pos

theorem toNat_ofNat_mod (v : Nat) :
    (Element.ofNat (v % p.value.toNat)).toNat = v % p.value.toNat :=
  Element.toNat_ofNat_of_lt (Nat.lt_trans (mod_value_lt v) value_lt)

theorem reduced_zero : p.Reduced .zero := value_pos

theorem reduced_one : p.Reduced .one := p.two_le

/-! ## Sums and differences -/

theorem toNat_add {a b : Element} (ha : p.Reduced a) (hb : p.Reduced b) :
    (p.add a b).toNat = (a.toNat + b.toNat) % p.value.toNat := by
  have hsum := Limbs.toNat_overflowingAdd a b
  have hlt : (a.overflowingAdd b).1.toNat < 2 ^ 128 := Element.toNat_lt _
  have hp := p.value_lt
  unfold Reduced at ha hb
  have hpast : ∀ s : Element, (p.value ≤ s) ↔ p.value.toNat ≤ s.toNat := fun s => Limbs.le_iff ..
  unfold add
  dsimp only
  cases hcarry : (a.overflowingAdd b).2 with
  | true =>
    rw [hcarry, Bool.toNat_true] at hsum
    -- The sum wraps, and so does the correction.
    have hwrap := Limbs.toNat_sub_of_lt (a := (a.overflowingAdd b).1) (b := p.value) (by omega)
    rw [Bool.true_or, if_pos rfl, Nat.mod_eq_sub_mod (by omega), Nat.mod_eq_of_lt (by omega)]
    omega
  | false =>
    rw [hcarry, Bool.toNat_false, Nat.mul_zero, Nat.add_zero] at hsum
    by_cases hle : p.value.toNat ≤ (a.overflowingAdd b).1.toNat
    · rw [Bool.false_or, if_pos (decide_eq_true ((hpast _).2 hle)), Limbs.toNat_sub_of_le hle,
        ← hsum, Nat.mod_eq_sub_mod hle, Nat.mod_eq_of_lt (by omega)]
    · rw [Bool.false_or, if_neg (by simpa [hpast] using hle), ← hsum, Nat.mod_eq_of_lt (by omega)]

theorem toNat_sub {a b : Element} (ha : p.Reduced a) (hb : p.Reduced b) :
    (p.sub a b).toNat = (a.toNat + (p.value.toNat - b.toNat)) % p.value.toNat := by
  have hdiff := Limbs.toNat_overflowingSub a b
  have hlt : (a.overflowingSub b).1.toNat < 2 ^ 128 := Element.toNat_lt _
  have hp := p.value_lt
  unfold Reduced at ha hb
  unfold sub
  dsimp only
  cases hborrow : (a.overflowingSub b).2 with
  | true =>
    rw [hborrow, Bool.toNat_true] at hdiff
    rw [if_pos rfl, Limbs.toNat_add, Nat.mod_eq_of_lt (b := p.value.toNat) (by omega)]
    omega
  | false =>
    rw [hborrow, Bool.toNat_false, Nat.mul_zero, Nat.add_zero] at hdiff
    rw [if_neg (by decide), Nat.mod_eq_sub_mod (by omega), Nat.mod_eq_of_lt (by omega)]
    omega

theorem reduced_add {a b : Element} (ha : p.Reduced a) (hb : p.Reduced b) :
    p.Reduced (p.add a b) := by
  rw [Reduced, toNat_add ha hb]
  exact mod_value_lt _

theorem reduced_foldl_add {start : Element} {values : List Element} (hstart : p.Reduced start)
    (hvalues : ∀ value ∈ values, p.Reduced value) : p.Reduced (values.foldl p.add start) := by
  induction values generalizing start with
  | nil => exact hstart
  | cons value values ih =>
    obtain ⟨hvalue, hvalues⟩ := List.forall_mem_cons.mp hvalues
    exact ih (reduced_add hstart hvalue) hvalues

theorem toNat_foldl_add {start : Element} {values : List Element} (hstart : p.Reduced start)
    (hvalues : ∀ value ∈ values, p.Reduced value) :
    (values.foldl p.add start).toNat =
      (start.toNat + (values.map Limbs.toNat).sum) % p.value.toNat := by
  induction values generalizing start with
  | nil => exact (Nat.mod_eq_of_lt hstart).symm
  | cons value values ih =>
    obtain ⟨hvalue, hvalues⟩ := List.forall_mem_cons.mp hvalues
    rw [List.foldl_cons, ih (reduced_add hstart hvalue) hvalues, toNat_add hstart hvalue,
      Nat.mod_add_mod, List.map_cons, List.sum_cons, Nat.add_assoc]

theorem reduced_sub {a b : Element} (ha : p.Reduced a) (hb : p.Reduced b) :
    p.Reduced (p.sub a b) := by
  rw [Reduced, toNat_sub ha hb]
  exact mod_value_lt _

/-! ## Products -/

theorem toNat_shiftIn (low : Element) (k : Nat) {acc : Element} (hacc : p.Reduced acc) :
    (p.shiftIn low k acc).toNat = (acc.toNat * 2 ^ k + low.toNat % 2 ^ k) % p.value.toNat := by
  induction k generalizing acc with
  | zero => simp [shiftIn, Nat.mod_one, Nat.mod_eq_of_lt (show acc.toNat < _ from hacc)]
  | succ k ih =>
    have hdoubled := reduced_add hacc hacc
    have hbit : low.toNat % 2 ^ (k + 1) = low.toNat % 2 ^ k + 2 ^ k * (low.bit k).toNat := by
      rw [Limbs.bit_eq, Nat.mod_pow_succ, Nat.toNat_testBit]
    rw [shiftIn]
    cases hlow : low.bit k with
    | true =>
      rw [if_pos rfl, ih (reduced_add hdoubled reduced_one), toNat_add hdoubled reduced_one,
        toNat_add hacc hacc, hbit, hlow, Element.toNat_one, Bool.toNat_true, Nat.mod_add_mod,
        Nat.add_mod, Nat.mod_mul_mod, ← Nat.add_mod]
      congr 1
      ring
    | false =>
      rw [if_neg (by decide), ih hdoubled, toNat_add hacc hacc, hbit, hlow, Bool.toNat_false,
        Nat.add_mod, Nat.mod_mul_mod, ← Nat.add_mod]
      congr 1
      ring

theorem toNat_reduceWide {high : Element} (hhigh : p.Reduced high) (low : Element) :
    (p.reduceWide high low).toNat = (low.toNat + 2 ^ 128 * high.toNat) % p.value.toNat := by
  rw [reduceWide, toNat_shiftIn low _ hhigh, show Limbs.bits 2 = 128 from rfl,
    Nat.mod_eq_of_lt low.toNat_lt, Nat.add_comm, Nat.mul_comm]

theorem toNat_lowPart (low : Element) : (lowPart low).toNat = low.toNat % 2 ^ 127 := by
  rw [lowPart, BitVec.toNat_and, Element.toNat_toBits, Element.toNat_toBits,
    show mersenne127.value.toNat = 2 ^ 127 - 1 from rfl, Nat.and_two_pow_sub_one_eq_mod]

theorem toNat_highPart {low high : Element} (hhigh : high.toNat < 2 ^ 127) :
    (highPart low high).toNat = 2 * high.toNat + low.toNat / 2 ^ 127 := by
  have hlow := low.toNat_lt
  rw [highPart, BitVec.toNat_or, BitVec.toNat_shiftLeft, BitVec.toNat_ushiftRight,
    Element.toNat_toBits, Element.toNat_toBits, Nat.shiftRight_eq_div_pow, Nat.mod_eq_of_lt,
    ← Nat.shiftLeft_add_eq_or_of_lt, Nat.shiftLeft_eq, Nat.pow_one, Nat.mul_comm]
  · omega
  · rw [Nat.shiftLeft_eq]
    omega

/-- The low and the high part of a product of reduced elements add up without overflow. -/
theorem lowPart_add_highPart_lt {low high : Element}
    (h : low.toNat + 2 ^ 128 * high.toNat ≤ (2 ^ 127 - 2) * (2 ^ 127 - 2)) :
    (lowPart low).toNat + (highPart low high).toNat < 2 ^ 128 := by
  have hlow := low.toNat_lt
  rw [toNat_lowPart, toNat_highPart (by omega)]
  omega

/-- One fold reduces a product of reduced elements: its high part is below the prime. -/
theorem toNat_foldMersenne {low high : Element}
    (h : low.toNat + 2 ^ 128 * high.toNat ≤ (2 ^ 127 - 2) * (2 ^ 127 - 2)) :
    (foldMersenne low high).toNat = (low.toNat + 2 ^ 128 * high.toNat) % (2 ^ 127 - 1) := by
  have hlow := low.toNat_lt
  have hhigh : high.toNat < 2 ^ 127 := by omega
  have hsum : (lowPart low + highPart low high).toNat =
      low.toNat % 2 ^ 127 + (2 * high.toNat + low.toNat / 2 ^ 127) := by
    rw [BitVec.toNat_add, Nat.mod_eq_of_lt (lowPart_add_highPart_lt h), toNat_lowPart,
      toNat_highPart hhigh]
  have hprime : mersenne127.value.toBits.toNat = 2 ^ 127 - 1 := rfl
  have hsplit : low.toNat + 2 ^ 128 * high.toNat =
      (lowPart low + highPart low high).toNat +
        (2 ^ 127 - 1) * (2 * high.toNat + low.toNat / 2 ^ 127) := by
    rw [hsum]
    omega
  rw [hsplit, Nat.add_mul_mod_self_left, foldMersenne]
  simp only [BitVec.le_def, hprime, Element.toNat_ofBits]
  split
  · next hle =>
    rw [BitVec.toNat_sub_of_le (by rwa [BitVec.le_def, hprime]), hprime, Nat.mod_eq_sub_mod hle,
      Nat.mod_eq_of_lt]
    omega
  · next hlt =>
    rw [Nat.mod_eq_of_lt]
    omega

section Product

variable {a b : Element}

theorem toNat_wideningMul_le (ha : p.Reduced a) (hb : p.Reduced b) :
    (a.wideningMul b).1.toNat + 2 ^ 128 * (a.wideningMul b).2.toNat ≤
      (p.value.toNat - 1) * (p.value.toNat - 1) := by
  have hproduct := Limbs.toNat_wideningMul a b
  rw [show 64 * 2 = 128 from rfl] at hproduct
  rw [hproduct]
  exact Nat.mul_le_mul (Nat.le_pred_of_lt ha) (Nat.le_pred_of_lt hb)

/-- Reducing a product bit by bit: its high half is reduced already. -/
theorem toNat_reduceWide_wideningMul (ha : p.Reduced a) (hb : p.Reduced b) :
    (p.reduceWide (a.wideningMul b).2 (a.wideningMul b).1).toNat =
      a.toNat * b.toNat % p.value.toNat := by
  have hle := toNat_wideningMul_le ha hb
  have hlt : (p.value.toNat - 1) * (p.value.toNat - 1) < 2 ^ 128 * p.value.toNat :=
    Nat.mul_lt_mul'' (by have := p.value_lt; omega) (by have := p.value_pos; omega)
  have hhigh : p.Reduced (a.wideningMul b).2 := by
    unfold Reduced
    omega
  rw [toNat_reduceWide hhigh, ← Limbs.toNat_wideningMul a b]

theorem toNat_foldMersenne_wideningMul (ha : mersenne127.Reduced a) (hb : mersenne127.Reduced b) :
    (foldMersenne (a.wideningMul b).1 (a.wideningMul b).2).toNat =
      a.toNat * b.toNat % mersenne127.value.toNat := by
  rw [toNat_foldMersenne (toNat_wideningMul_le ha hb), ← Limbs.toNat_wideningMul a b]
  rfl

theorem toNat_mul (ha : p.Reduced a) (hb : p.Reduced b) :
    (p.mul a b).toNat = a.toNat * b.toNat % p.value.toNat := by
  unfold mul
  dsimp only
  split
  · next hmersenne =>
    unfold Reduced at ha hb
    rw [hmersenne] at ha hb ⊢
    exact toNat_foldMersenne_wideningMul ha hb
  · exact toNat_reduceWide_wideningMul ha hb

end Product

theorem reduced_mul {a b : Element} (ha : p.Reduced a) (hb : p.Reduced b) :
    p.Reduced (p.mul a b) := by
  rw [Reduced, toNat_mul ha hb]
  exact mod_value_lt _

/-! ## Byte encoding -/

theorem decode_eq_ok_iff {p : Modulus} {bytes : Payload} {value : Element} :
    p.decode bytes = .ok value ↔ bytes = value.toBytes ∧ value < p.value := by
  rw [← Limbs.ofBytesExact_eq_ok_iff, Limbs.lt_iff]
  unfold decode
  cases hread : Limbs.ofBytesExact 2 bytes with
  | error => simp
  | ok read =>
    simp only [Limbs.le_iff, Except.ok.injEq]
    split
    · next hle => exact ⟨nofun, fun ⟨h, hlt⟩ => by subst h; omega⟩
    · next hlt =>
      rw [Except.ok.injEq]
      exact ⟨fun h => ⟨h, by subst h; omega⟩, And.left⟩

end Modulus
end AuthenticatedMpc
