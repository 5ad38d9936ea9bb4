import AuthenticatedMpc.Proofs.Field.Arithmetic
import Mathlib.Algebra.BigOperators.Group.List.Basic
import Mathlib.Algebra.Order.Ring.Int
import Mathlib.Data.Int.ModEq

/-!
# The field operations as arithmetic of integers modulo the modulus

On reduced elements sums, differences, negatives, products and sums of lists are those of the integers
modulo the modulus, and reduction does the same for any 128-bit value. A sum of a list hence does not
depend on its order, nor on how it is split into parts.
-/

namespace AuthenticatedMpc
namespace Modulus

variable {p : Modulus} {a b : Element}

/-! ## Sums, differences and negatives -/

theorem intCast_toNat_sub (ha : p.Reduced a) (hb : p.Reduced b) :
    ((p.sub a b).toNat : ℤ) = ((a.toNat : ℤ) - b.toNat) % p.value.toNat := by
  have hshift : (a.toNat : ℤ) + (p.value.toNat - b.toNat) = a.toNat - b.toNat + p.value.toNat := by
    ring
  rw [toNat_sub ha hb, Int.natCast_mod, Nat.cast_add, Nat.cast_sub (Nat.le_of_lt hb), hshift,
    Int.add_emod_right]

theorem toNat_neg (ha : p.Reduced a) :
    (p.neg a).toNat = (p.value.toNat - a.toNat) % p.value.toNat := by
  unfold neg
  cases hzero : a.isZero with
  | true =>
    rw [if_pos rfl, (Element.isZero_iff a).mp hzero, Nat.sub_zero, Nat.mod_self,
      Element.toNat_zero]
  | false =>
    have hpos : 0 < a.toNat := Nat.pos_of_ne_zero fun h => by
      rw [(Element.isZero_iff a).mpr h] at hzero
      cases hzero
    rw [if_neg Bool.false_ne_true, Limbs.toNat_sub_of_le (Nat.le_of_lt ha),
      Nat.mod_eq_of_lt (Nat.sub_lt p.value_pos hpos)]

theorem intCast_toNat_neg (ha : p.Reduced a) :
    ((p.neg a).toNat : ℤ) = -(a.toNat : ℤ) % p.value.toNat := by
  have hshift : (p.value.toNat : ℤ) - a.toNat = -a.toNat + p.value.toNat := by ring
  rw [toNat_neg ha, Int.natCast_mod, Nat.cast_sub (Nat.le_of_lt ha), hshift, Int.add_emod_right]

theorem reduced_neg (ha : p.Reduced a) : p.Reduced (p.neg a) := by
  rw [Reduced, toNat_neg ha]
  exact mod_value_lt _

/-! ## Sums of lists -/

section Sum

variable {values : List Element}

theorem reduced_sum (hvalues : ∀ value ∈ values, p.Reduced value) : p.Reduced (p.sum values) :=
  reduced_foldl_add reduced_zero hvalues

theorem toNat_sum (hvalues : ∀ value ∈ values, p.Reduced value) :
    (p.sum values).toNat = (values.map Limbs.toNat).sum % p.value.toNat := by
  rw [sum, toNat_foldl_add reduced_zero hvalues, Element.toNat_zero, Nat.zero_add]

theorem sum_perm {values' : List Element} (hperm : values'.Perm values)
    (hvalues : ∀ value ∈ values, p.Reduced value) : p.sum values' = p.sum values := by
  have hvalues' : ∀ value ∈ values', p.Reduced value := fun value hmem =>
    hvalues value (hperm.mem_iff.mp hmem)
  rw [← Limbs.toNat_inj, toNat_sum hvalues', toNat_sum hvalues, (hperm.map Limbs.toNat).sum_eq]

theorem sum_map_sum {parts : List (List Element)}
    (hparts : ∀ part ∈ parts, ∀ value ∈ part, p.Reduced value) :
    p.sum (parts.map p.sum) = p.sum parts.flatten := by
  have hsums : ∀ value ∈ parts.map p.sum, p.Reduced value :=
    List.forall_mem_map.mpr fun part hpart => reduced_sum (hparts part hpart)
  have hflatten : ∀ value ∈ parts.flatten, p.Reduced value := fun value hmem => by
    obtain ⟨part, hpart, hvalue⟩ := List.mem_flatten.mp hmem
    exact hparts part hpart value hvalue
  have hmods : (parts.map p.sum).map Limbs.toNat =
      (parts.map fun part => (part.map Limbs.toNat).sum).map (· % p.value.toNat) := by
    rw [List.map_map, List.map_map]
    exact List.map_congr_left fun part hpart => toNat_sum (hparts part hpart)
  rw [← Limbs.toNat_inj, toNat_sum hsums, toNat_sum hflatten, hmods, ← List.sum_nat_mod,
    List.map_flatten, List.sum_flatten, List.map_map]
  rfl

end Sum

/-- Addition, subtraction, negation and summation are exact and reduced, also where a sum carries out of
128 bits; a sum of a list depends neither on its order nor on how it is split. -/
theorem additive_exact (ha : p.Reduced a) (hb : p.Reduced b) {values : List Element}
    (hvalues : ∀ value ∈ values, p.Reduced value) :
    ((p.add a b).toNat = (a.toNat + b.toNat) % p.value.toNat ∧ p.Reduced (p.add a b)) ∧
      (((p.sub a b).toNat : ℤ) = ((a.toNat : ℤ) - b.toNat) % p.value.toNat ∧
        p.Reduced (p.sub a b)) ∧
      (((p.neg a).toNat : ℤ) = -(a.toNat : ℤ) % p.value.toNat ∧ p.Reduced (p.neg a)) ∧
      ((p.sum values).toNat = (values.map Limbs.toNat).sum % p.value.toNat ∧
        p.Reduced (p.sum values)) ∧
      (∀ values' : List Element, values'.Perm values → p.sum values' = p.sum values) ∧
      ∀ parts : List (List Element), parts.flatten = values →
        p.sum (parts.map p.sum) = p.sum values := by
  refine ⟨⟨toNat_add ha hb, reduced_add ha hb⟩, ⟨intCast_toNat_sub ha hb, reduced_sub ha hb⟩,
    ⟨intCast_toNat_neg ha, reduced_neg ha⟩, ⟨toNat_sum hvalues, reduced_sum hvalues⟩,
    fun values' hperm => sum_perm hperm hvalues, ?_⟩
  rintro parts rfl
  exact sum_map_sum fun part hpart value hvalue =>
    hvalues value (List.mem_flatten.mpr ⟨part, hpart, hvalue⟩)

/-- The greatest element modulo `2 ^ 128 - 159`: adding it to itself carries out of 128 bits. -/
theorem additive_exact_carry :
    let p : Modulus := ⟨.ofNat (2 ^ 128 - 159), by decide⟩
    let top : Element := .ofNat (2 ^ 128 - 160)
    let values : List Element := [top, .one, top]
    p.Reduced top ∧ (∀ value ∈ values, p.Reduced value) ∧ (top.overflowingAdd top).2 = true ∧
      (p.add top top).toNat = 2 ^ 128 - 161 ∧ (p.sub .zero top).toNat = 1 ∧
      (p.neg top).toNat = 1 ∧ (p.sum values).toNat = 2 ^ 128 - 160 ∧
      p.sum [.one, top, top] = p.sum values ∧
      p.sum [p.sum [top, .one], p.sum [], p.sum [top]] = p.sum values := by
  intro p top values
  have htop : p.Reduced top := by decide
  have hvalues : ∀ value ∈ values, p.Reduced value := by decide
  obtain ⟨hadd, -, hneg, hsum, hperm, hparts⟩ := additive_exact htop htop hvalues
  obtain ⟨-, hsub, -⟩ := additive_exact reduced_zero htop hvalues
  have hsub' : ((p.sub .zero top).toNat : ℤ) = 1 := hsub.1.trans (by decide)
  have hneg' : ((p.neg top).toNat : ℤ) = 1 := hneg.1.trans (by decide)
  exact ⟨htop, hvalues, by decide, hadd.1.trans (by decide), by exact_mod_cast hsub',
    by exact_mod_cast hneg', hsum.1.trans (by decide), hperm _ (by decide),
    hparts [[top, .one], [], [top]] rfl⟩

/-! ## Products and reduction -/

theorem toNat_reduce (a : Element) : (p.reduce a).toNat = a.toNat % p.value.toNat := by
  unfold reduce
  split
  · next hlt => rw [Nat.mod_eq_of_lt ((Limbs.lt_iff a p.value).mp hlt)]
  · rw [toNat_reduceWide reduced_zero, Element.toNat_zero, Nat.mul_zero, Nat.add_zero]

theorem foldMersenne_eq_reduceWide (ha : mersenne127.Reduced a) (hb : mersenne127.Reduced b) :
    foldMersenne (a.wideningMul b).1 (a.wideningMul b).2 =
      mersenne127.reduceWide (a.wideningMul b).2 (a.wideningMul b).1 := by
  rw [← Limbs.toNat_inj, toNat_foldMersenne_wideningMul ha hb, toNat_reduceWide_wideningMul ha hb]

/-- Products of reduced elements and reductions of arbitrary ones are exact. For `2 ^ 127 - 1` both ways
to reduce a product agree, and the sum of the fold stays within 128 bits. -/
theorem mul_reduce_exact (ha : p.Reduced a) (hb : p.Reduced b) (v : Element) :
    ((p.mul a b).toNat = a.toNat * b.toNat % p.value.toNat ∧ p.Reduced (p.mul a b)) ∧
      (p.reduce v).toNat = v.toNat % p.value.toNat ∧
      (p = mersenne127 →
        p.mul a b = foldMersenne (a.wideningMul b).1 (a.wideningMul b).2 ∧
        foldMersenne (a.wideningMul b).1 (a.wideningMul b).2 =
          p.reduceWide (a.wideningMul b).2 (a.wideningMul b).1 ∧
        (lowPart (a.wideningMul b).1).toNat +
          (highPart (a.wideningMul b).1 (a.wideningMul b).2).toNat < 2 ^ 128) := by
  refine ⟨⟨toNat_mul ha hb, reduced_mul ha hb⟩, toNat_reduce v, ?_⟩
  rintro rfl
  have hmul : mersenne127.mul a b = foldMersenne (a.wideningMul b).1 (a.wideningMul b).2 := by
    unfold mul
    exact if_pos rfl
  exact ⟨hmul, foldMersenne_eq_reduceWide ha hb,
    lowPart_add_highPart_lt (toNat_wideningMul_le ha hb)⟩

/-- The greatest element modulo `2 ^ 127 - 1` is minus one: its square is one, and the greatest 128-bit
value is one more than twice the modulus. -/
theorem mul_reduce_exact_mersenne :
    let top : Element := .ofNat (2 ^ 127 - 2)
    let v : Element := .ofNat (2 ^ 128 - 1)
    mersenne127.Reduced top ∧ (mersenne127.mul top top).toNat = 1 ∧ (mersenne127.reduce v).toNat = 1 ∧
      foldMersenne (top.wideningMul top).1 (top.wideningMul top).2 =
        mersenne127.reduceWide (top.wideningMul top).2 (top.wideningMul top).1 ∧
      (lowPart (top.wideningMul top).1).toNat +
        (highPart (top.wideningMul top).1 (top.wideningMul top).2).toNat < 2 ^ 128 := by
  intro top v
  have htop : mersenne127.Reduced top := by decide
  obtain ⟨⟨hmul, -⟩, hreduce, hfold⟩ := mul_reduce_exact htop htop v
  obtain ⟨-, hagree, hlt⟩ := hfold rfl
  exact ⟨htop, hmul.trans (by decide), hreduce.trans (by decide), hagree, hlt⟩

end Modulus
end AuthenticatedMpc
