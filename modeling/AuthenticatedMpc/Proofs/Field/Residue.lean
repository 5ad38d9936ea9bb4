import AuthenticatedMpc.Proofs.Field.Arithmetic
import Mathlib.Data.ZMod.Basic

/-!
# Elements as residues

Reduced elements are the residues modulo the modulus, and the operations on them are those of the
ring of residues.
-/

namespace AuthenticatedMpc
namespace Modulus

variable (p : Modulus)

def residue (a : Element) : ZMod p.value.toNat := a.toNat

variable {p}

instance : NeZero p.value.toNat := ⟨Nat.ne_of_gt value_pos⟩

@[simp] theorem residue_zero : p.residue .zero = 0 := by simp [residue]

@[simp] theorem residue_one : p.residue .one = 1 := by simp [residue]

theorem residue_add {a b : Element} (ha : p.Reduced a) (hb : p.Reduced b) :
    p.residue (p.add a b) = p.residue a + p.residue b := by
  rw [residue, toNat_add ha hb, ZMod.natCast_mod, Nat.cast_add, residue, residue]

theorem residue_foldl_add {start : Element} {values : List Element} (hstart : p.Reduced start)
    (hvalues : ∀ value ∈ values, p.Reduced value) :
    p.residue (values.foldl p.add start) = p.residue start + (values.map p.residue).sum := by
  induction values generalizing start with
  | nil => rw [List.foldl_nil, List.map_nil, List.sum_nil, add_zero]
  | cons value values ih =>
    obtain ⟨hvalue, hvalues⟩ := List.forall_mem_cons.mp hvalues
    rw [List.foldl_cons, ih (reduced_add hstart hvalue) hvalues, residue_add hstart hvalue,
      List.map_cons, List.sum_cons, add_assoc]

theorem residue_sub {a b : Element} (ha : p.Reduced a) (hb : p.Reduced b) :
    p.residue (p.sub a b) = p.residue a - p.residue b := by
  rw [residue, toNat_sub ha hb, ZMod.natCast_mod, Nat.cast_add, Nat.cast_sub (Nat.le_of_lt hb),
    ZMod.natCast_self, zero_sub, ← sub_eq_add_neg, residue, residue]

theorem residue_mul {a b : Element} (ha : p.Reduced a) (hb : p.Reduced b) :
    p.residue (p.mul a b) = p.residue a * p.residue b := by
  rw [residue, toNat_mul ha hb, ZMod.natCast_mod, Nat.cast_mul, residue, residue]

theorem natCast_inj {u v : ℕ} (hu : u < p.value.toNat) (hv : v < p.value.toNat) :
    (u : ZMod p.value.toNat) = v ↔ u = v := by
  rw [ZMod.natCast_eq_natCast_iff', Nat.mod_eq_of_lt hu, Nat.mod_eq_of_lt hv]

theorem residue_inj {a b : Element} (ha : p.Reduced a) (hb : p.Reduced b) :
    p.residue a = p.residue b ↔ a = b := by
  rw [residue, residue, natCast_inj ha hb, Limbs.toNat_inj]

/-- A reduced element is what is left of any integer with its residue. -/
theorem toNat_eq_emod {a : Element} (ha : p.Reduced a) {v : ℤ}
    (h : p.residue a = (v : ZMod p.value.toNat)) : (a.toNat : ℤ) = v % p.value.toNat := by
  have hlt : (a.toNat : ℤ) < p.value.toNat := by exact_mod_cast ha
  rw [residue, ← Int.cast_natCast, ZMod.intCast_eq_intCast_iff'] at h
  rwa [Int.emod_eq_of_lt (Int.natCast_nonneg _) hlt] at h

theorem residue_ofNat_emod (v : ℤ) :
    p.residue (.ofNat (v % p.value.toNat).toNat) = (v : ZMod p.value.toNat) := by
  have hpos : (0 : ℤ) < p.value.toNat := by exact_mod_cast p.value_pos
  have hnonneg := Int.emod_nonneg v (ne_of_gt hpos)
  have hlt := Int.emod_lt_of_pos v hpos
  have hp := p.value_lt
  rw [residue, Element.toNat_ofNat_of_lt (by omega), ← Int.cast_natCast,
    Int.toNat_of_nonneg hnonneg, ZMod.intCast_mod]

theorem reduced_ofNat_emod (v : ℤ) : p.Reduced (.ofNat (v % p.value.toNat).toNat) := by
  have hpos : (0 : ℤ) < p.value.toNat := by exact_mod_cast p.value_pos
  have hnonneg := Int.emod_nonneg v (ne_of_gt hpos)
  have hlt := Int.emod_lt_of_pos v hpos
  have hp := p.value_lt
  rw [Reduced, Element.toNat_ofNat_of_lt (by omega)]
  omega

theorem reduced_ofNat {v : ℕ} (hv : v < p.value.toNat) : p.Reduced (.ofNat v) := by
  rwa [Reduced, Element.toNat_ofNat_of_lt (Nat.lt_trans hv p.value_lt)]

theorem residue_ofNat {v : ℕ} (hv : v < p.value.toNat) : p.residue (.ofNat v) = v := by
  rw [residue, Element.toNat_ofNat_of_lt (Nat.lt_trans hv p.value_lt)]

end Modulus
end AuthenticatedMpc
