import AuthenticatedMpc.Proofs.Field.Sampling
import Mathlib.Data.Fintype.Fin
import Mathlib.Logic.Equiv.Fin.Basic
import Mathlib.SetTheory.Cardinal.Finite

/-!
# Uniformly drawn elements

Under the mask a pair of words is its value modulo a power of two, the least one above the modulus. So
every element comes from equally many pairs, and since the modulus has its top bit set, at least half of
all pairs are taken.
-/

namespace AuthenticatedMpc
namespace Modulus

variable {p : Modulus}

/-! ## The width of the modulus -/

theorem value_lt_two_pow : p.value.toNat < 2 ^ p.bitLength :=
  (Limbs.bitLength_le_iff p.value p.bitLength).mp le_rfl

theorem two_pow_le_value : 2 ^ (p.bitLength - 1) ≤ p.value.toNat := by
  have hpos : 0 < p.bitLength := by
    by_contra hzero
    have hlt := (Limbs.bitLength_le_iff p.value 0).mp (Nat.le_of_not_lt hzero)
    have htwo := p.two_le
    omega
  have hshort : ¬p.bitLength ≤ p.bitLength - 1 := by omega
  exact Nat.le_of_not_lt fun hlt => hshort ((Limbs.bitLength_le_iff p.value _).mpr hlt)

theorem bitLength_le : p.bitLength ≤ 128 := (Limbs.bitLength_le_iff p.value 128).mpr p.value_lt

/-! ## Pairs of words under the mask -/

theorem toNat_limbMask (i : ℕ) :
    (p.limbMask i).toNat = 2 ^ min (p.bitLength - 64 * i) 64 - 1 := by
  unfold limbMask
  dsimp only
  have hle : min (p.bitLength - 64 * i) 64 ≤ 64 := Nat.min_le_right _ _
  generalize min (p.bitLength - 64 * i) 64 = width at hle ⊢
  split
  · next hfull =>
    rw [hfull]
    rfl
  · next hpart =>
    have hwidth : width.toUInt64.toNat % 64 = width := by
      show width % 2 ^ 64 % 64 = width
      omega
    have hpow : 2 ^ width < 2 ^ 64 := Nat.pow_lt_pow_right (by decide) (by omega)
    have hshift : ((1 : UInt64) <<< width.toUInt64).toNat = 2 ^ width := by
      rw [UInt64.toNat_shiftLeft, hwidth, UInt64.toNat_one, Nat.one_shiftLeft,
        Nat.mod_eq_of_lt hpow]
    have hone : (1 : UInt64) ≤ 1 <<< width.toUInt64 := by
      rw [UInt64.le_iff_toNat_le, hshift]
      exact Nat.one_le_two_pow
    rw [UInt64.toNat_sub_of_le _ _ hone, hshift, UInt64.toNat_one]

theorem toNat_and_limbMask (word : UInt64) (i : ℕ) :
    (word &&& p.limbMask i).toNat = word.toNat % 2 ^ min (p.bitLength - 64 * i) 64 := by
  rw [UInt64.toNat_and, toNat_limbMask, Nat.and_two_pow_sub_one_eq_mod]

theorem toNat_masked (low high : UInt64) :
    (p.masked low high).toNat = (low.toNat + 2 ^ 64 * high.toNat) % 2 ^ p.bitLength := by
  have hlow := low.toNat_lt
  have hwords : (p.masked low high).toNat =
      (low &&& p.limbMask 0).toNat + 2 ^ 64 * (high &&& p.limbMask 1).toNat := rfl
  rw [hwords, toNat_and_limbMask, toNat_and_limbMask]
  -- Up to 64 bits the high word is masked away, beyond them the low word is kept whole.
  rcases Nat.le_total p.bitLength 64 with hshort | hlong
  · have hdvd : 2 ^ p.bitLength ∣ 2 ^ 64 * high.toNat :=
      Dvd.dvd.mul_right (pow_dvd_pow 2 hshort) _
    rw [Nat.mul_zero, Nat.mul_one, Nat.sub_zero, Nat.min_eq_left hshort,
      Nat.sub_eq_zero_of_le hshort, Nat.zero_min, pow_zero, Nat.mod_one, Nat.mul_zero,
      Nat.add_zero, Nat.add_mod, Nat.mod_eq_zero_of_dvd hdvd, Nat.add_zero, Nat.mod_mod]
  · have hbits := p.bitLength_le
    have hpow : 2 ^ p.bitLength = 2 ^ 64 * 2 ^ (p.bitLength - 64) := by
      rw [← pow_add, Nat.add_sub_cancel' hlong]
    rw [Nat.mul_zero, Nat.mul_one, Nat.sub_zero, Nat.min_eq_right hlong,
      Nat.min_eq_left (by omega), hpow, Nat.mod_mul, Nat.add_mul_mod_self_left,
      Nat.add_mul_div_left _ _ (by decide), Nat.div_eq_of_lt hlow, Nat.zero_add]

/-! ## Counting pairs -/

/-- Pairs of words are the numbers of 128 bits. -/
def wordPair : UInt64 × UInt64 ≃ Fin (2 ^ 128) where
  toFun pair := ⟨pair.1.toNat + 2 ^ 64 * pair.2.toNat, by
    have hlow := pair.1.toNat_lt
    have hhigh := pair.2.toNat_lt
    omega⟩
  invFun number := (number.val.toUInt64, (number.val / 2 ^ 64).toUInt64)
  left_inv pair := by
    have hlow := pair.1.toNat_lt
    have hhigh := pair.2.toNat_lt
    refine Prod.ext (UInt64.toNat_inj.mp ?_) (UInt64.toNat_inj.mp ?_)
    · show (pair.1.toNat + 2 ^ 64 * pair.2.toNat) % 2 ^ 64 = pair.1.toNat
      omega
    · show (pair.1.toNat + 2 ^ 64 * pair.2.toNat) / 2 ^ 64 % 2 ^ 64 = pair.2.toNat
      omega
  right_inv number := by
    have hnumber := number.isLt
    refine Fin.ext ?_
    show number.val % 2 ^ 64 + 2 ^ 64 * (number.val / 2 ^ 64 % 2 ^ 64) = number.val
    omega

theorem two_pow_split : 2 ^ 128 = 2 ^ (128 - p.bitLength) * 2 ^ p.bitLength := by
  rw [← pow_add, Nat.sub_add_cancel p.bitLength_le]

variable (p) in
/-- The bits of a pair that the mask keeps, and those that it drops. -/
def splitPair : UInt64 × UInt64 ≃ Fin (2 ^ p.bitLength) × Fin (2 ^ (128 - p.bitLength)) :=
  wordPair.trans <| (finCongr p.two_pow_split).trans <|
    finProdFinEquiv.symm.trans <| Equiv.prodComm _ _

theorem splitPair_fst (pair : UInt64 × UInt64) :
    ((p.splitPair pair).1 : ℕ) = (p.masked pair.1 pair.2).toNat := by
  rw [toNat_masked]
  rfl

/-- What the mask leaves of a pair decides about as many pairs as there are values of the dropped
bits. -/
theorem card_masked (P : ℕ → Prop) :
    Nat.card {pair : UInt64 × UInt64 // P (p.masked pair.1 pair.2).toNat} =
      Nat.card {kept : Fin (2 ^ p.bitLength) // P kept} * 2 ^ (128 - p.bitLength) := by
  have hsplit : {pair : UInt64 × UInt64 // P (p.masked pair.1 pair.2).toNat} ≃
      {kept : Fin (2 ^ p.bitLength) // P kept} × Fin (2 ^ (128 - p.bitLength)) :=
    (p.splitPair.subtypeEquiv (q := fun split => P split.1) fun pair => by
      rw [splitPair_fst]).trans
      (Equiv.prodSubtypeFstEquivSubtypeProd (p := fun kept : Fin (2 ^ p.bitLength) => P kept))
  rw [Nat.card_congr hsplit, Nat.card_prod, Nat.card_fin]

theorem card_masked_eq {value : Element} (hvalue : p.Reduced value) :
    Nat.card {pair : UInt64 × UInt64 // p.masked pair.1 pair.2 = value} =
      2 ^ (128 - p.bitLength) := by
  have hcount := p.card_masked (· = value.toNat)
  let kept : Fin (2 ^ p.bitLength) := ⟨value.toNat, Nat.lt_trans hvalue p.value_lt_two_pow⟩
  have hone : Nat.card {other : Fin (2 ^ p.bitLength) // other.val = value.toNat} = 1 := by
    rw [Nat.card_congr (Equiv.subtypeEquivRight fun other => (Fin.ext_iff (b := kept)).symm)]
    exact Nat.card_unique
  rw [hone, Nat.one_mul] at hcount
  rw [← hcount]
  exact Nat.card_congr (Equiv.subtypeEquivRight fun pair => Limbs.toNat_inj.symm)

theorem card_masked_reduced :
    Nat.card {pair : UInt64 × UInt64 // p.Reduced (p.masked pair.1 pair.2)} =
      p.value.toNat * 2 ^ (128 - p.bitLength) := by
  have hkept : Nat.card {kept : Fin (2 ^ p.bitLength) // kept.val < p.value.toNat} =
      p.value.toNat := by
    rw [Nat.card_eq_fintype_card, Fintype.card_fin_lt_of_le (Nat.le_of_lt p.value_lt_two_pow)]
  exact (p.card_masked (· < p.value.toNat)).trans (by rw [hkept])

theorem half_le_card_masked_reduced :
    2 ^ 128 ≤ 2 * Nat.card {pair : UInt64 × UInt64 // p.Reduced (p.masked pair.1 pair.2)} := by
  have htop : 2 ^ p.bitLength ≤ 2 * p.value.toNat :=
    calc 2 ^ p.bitLength ≤ 2 ^ (p.bitLength - 1 + 1) := Nat.pow_le_pow_right (by decide) (by omega)
      _ = 2 * 2 ^ (p.bitLength - 1) := by rw [pow_succ, Nat.mul_comm]
      _ ≤ 2 * p.value.toNat := Nat.mul_le_mul_left 2 p.two_pow_le_value
  calc 2 ^ 128 = 2 ^ p.bitLength * 2 ^ (128 - p.bitLength) := by
        rw [p.two_pow_split, Nat.mul_comm]
    _ ≤ 2 * p.value.toNat * 2 ^ (128 - p.bitLength) := Nat.mul_le_mul_right _ htop
    _ = 2 * Nat.card {pair : UInt64 × UInt64 // p.Reduced (p.masked pair.1 pair.2)} := by
        rw [card_masked_reduced, Nat.mul_assoc]

/-! ## Draws -/

variable {source source' : Source} {value : Element}

theorem candidate_advance (source : Source) (i : ℕ) :
    p.candidate (source.advance (2 * i)) =
      p.masked (source.peek (2 * i)) (source.peek (2 * i + 1)) := by
  simp only [candidate, Source.peek, Source.advance, Nat.add_assoc, Nat.add_zero]

theorem isSome_pick_iff_reduced {i : ℕ} : (p.pick i source).isSome = true ↔
    p.Reduced (p.masked (source.peek (2 * i)) (source.peek (2 * i + 1))) := by
  rw [isSome_pick_iff, candidate_advance, reduced_iff]

theorem draw_eq_some_iff : p.draw source = some (value, source') ↔
    ∃ i, p.masked (source.peek (2 * i)) (source.peek (2 * i + 1)) = value ∧ p.Reduced value ∧
      (∀ j < i, ¬p.Reduced (p.masked (source.peek (2 * j)) (source.peek (2 * j + 1)))) ∧
      source' = source.advance (2 * (i + 1)) := by
  constructor
  · intro h
    -- Something was picked, so there is a first pair that can be, and the draw picks that one.
    have hpicked : ∃ i, (p.pick i source).isSome = true := by
      obtain ⟨i, hi⟩ := exists_pick_of_draw h
      exact ⟨i, by rw [hi]; rfl⟩
    have hskip : ∀ j < Nat.find hpicked, ¬(p.pick j source).isSome = true := fun j hj =>
      Nat.find_min hpicked hj
    rw [draw_of_first hskip (Nat.find_spec hpicked), pick_eq_some_iff, candidate_advance] at h
    obtain ⟨hvalue, hlt, hsource⟩ := h
    exact ⟨_, hvalue, reduced_iff.mpr hlt,
      fun j hj => isSome_pick_iff_reduced.not.mp (hskip j hj), hsource⟩
  · rintro ⟨i, hvalue, hreduced, hskip, rfl⟩
    have hpick : p.pick i source = some (value, source.advance (2 * (i + 1))) :=
      pick_eq_some_iff.mpr ⟨by rw [candidate_advance, hvalue], reduced_iff.mp hreduced, rfl⟩
    rw [draw_of_first (fun j hj => isSome_pick_iff_reduced.not.mpr (hskip j hj))
      (by rw [hpick]; rfl), hpick]

variable (p) in
/-- A draw gives the first masked pair of words below the modulus, and uses up the words up to it. Each
element is what the mask makes of equally many pairs, and at least every second pair is an element. -/
theorem draw_uniform :
    (∀ source value source', p.draw source = some (value, source') ↔
      ∃ i, p.masked (source.peek (2 * i)) (source.peek (2 * i + 1)) = value ∧ p.Reduced value ∧
        (∀ j < i, ¬p.Reduced (p.masked (source.peek (2 * j)) (source.peek (2 * j + 1)))) ∧
        source' = source.advance (2 * (i + 1))) ∧
      (∀ low high : UInt64, (p.masked low high).toNat =
        (low.toNat + 2 ^ 64 * high.toNat) % 2 ^ p.bitLength) ∧
      (2 ^ (p.bitLength - 1) ≤ p.value.toNat ∧ p.value.toNat < 2 ^ p.bitLength) ∧
      Nat.card (UInt64 × UInt64) = 2 ^ 128 ∧
      (∀ value, p.Reduced value →
        Nat.card {pair : UInt64 × UInt64 // p.masked pair.1 pair.2 = value} =
          2 ^ (128 - p.bitLength)) ∧
      2 ^ 128 ≤ 2 * Nat.card {pair : UInt64 × UInt64 // p.Reduced (p.masked pair.1 pair.2)} := by
  refine ⟨fun source value source' => draw_eq_some_iff, toNat_masked,
    ⟨p.two_pow_le_value, p.value_lt_two_pow⟩, ?_, fun value => card_masked_eq,
    half_le_card_masked_reduced⟩
  rw [Nat.card_congr wordPair, Nat.card_fin]

/-- The modulus `2 ^ 64` has 65 bits. The first pair keeps bit 64 and is skipped, the second one loses
all of its high word. -/
theorem draw_uniform_two_pow :
    let p : Modulus := ⟨.ofNat (2 ^ 64), by decide⟩
    let source : Source := .ofWords #[5, 3, 7, 2]
    p.Reduced (.ofNat 7) ∧ p.bitLength = 65 ∧
      p.draw source = some (.ofNat 7, source.advance 4) ∧
      Nat.card {pair : UInt64 × UInt64 // p.masked pair.1 pair.2 = .ofNat 7} = 2 ^ 63 := by
  intro p source
  have hseven : p.Reduced (.ofNat 7) := by decide
  have hbits : p.bitLength = 65 := by decide
  obtain ⟨hdraw, -, -, -, hcard, -⟩ := draw_uniform p
  have hskip : ¬p.Reduced (p.masked (source.peek 0) (source.peek 1)) := by decide
  have hfirst : ∀ j < 1, ¬p.Reduced (p.masked (source.peek (2 * j)) (source.peek (2 * j + 1))) :=
    fun j hj => by
      rw [Nat.lt_one_iff.mp hj]
      exact hskip
  refine ⟨hseven, hbits, (hdraw _ _ _).mpr ⟨1, by decide, hseven, hfirst, rfl⟩, ?_⟩
  rw [hcard _ hseven, hbits]

end Modulus
end AuthenticatedMpc
