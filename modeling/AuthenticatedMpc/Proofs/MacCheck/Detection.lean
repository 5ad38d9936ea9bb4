import AuthenticatedMpc.Proofs.MacCheck.ClosedForm
import Mathlib.Algebra.Field.ZMod
import Mathlib.Data.Int.ModEq

/-!
# What the check values of all parties show

The check values of all parties add up to a polynomial in the combiner. Its coefficients say how far
the shares of the MACs, added up, are from the key times the opened values; so the sum is zero
everywhere when all records are consistent, and at few combiners when one is not.
-/

namespace AuthenticatedMpc

/-- Values that all parties have opened, in order, and what each party holds of their MACs. -/
structure Openings where
  count : ℕ
  value : ℕ → Element
  mac : ℕ → PartyId → Element

namespace Openings

variable (openings : Openings)

def records (i : PartyId) : List Record :=
  (List.range openings.count).map fun k => ⟨openings.value k, openings.mac k i⟩

/-- How far the MAC of an opened value is from the key times the value, where the parties hold
shares of both. -/
def defect (parties : ℕ) (keyShare : PartyId → Element) (k : ℕ) : ℤ :=
  ((List.range parties).map fun i => ((openings.mac k i).toNat : ℤ)).sum -
    ((List.range parties).map fun i => ((keyShare i).toNat : ℤ)).sum * (openings.value k).toNat

structure Reduced (p : Modulus) (parties : ℕ) : Prop where
  value : ∀ k < openings.count, p.Reduced (openings.value k)
  mac : ∀ k < openings.count, ∀ i < parties, p.Reduced (openings.mac k i)

variable {openings} {p : Modulus} {parties : ℕ} {keyShare : PartyId → Element}

theorem Reduced.records (h : openings.Reduced p parties) {i : PartyId} (hi : i < parties) :
    ∀ record ∈ openings.records i, record.Reduced p := by
  intro record hrecord
  obtain ⟨k, hk, rfl⟩ := List.mem_map.1 hrecord
  have hlt := List.mem_range.1 hk
  exact ⟨h.value k hlt, h.mac k hlt i hi⟩

theorem natCast_sum_map (f : PartyId → Element) :
    ((((List.range parties).map fun i => ((f i).toNat : ℤ)).sum : ℤ) : ZMod p.value.toNat) =
      ((List.range parties).map fun i => p.residue (f i)).sum := by
  rw [Int.cast_list_sum, List.map_map]
  congr 1
  refine List.map_congr_left fun i _ => ?_
  simp [Modulus.residue]

theorem sum_residueDefect (k : ℕ) :
    ((List.range parties).map fun i =>
      Compressed.residueDefect p (keyShare i) ⟨openings.value k, openings.mac k i⟩).sum =
      (openings.defect parties keyShare k : ZMod p.value.toNat) := by
  have hsplit : ((List.range parties).map fun i =>
      Compressed.residueDefect p (keyShare i) ⟨openings.value k, openings.mac k i⟩ +
        p.residue (keyShare i) * p.residue (openings.value k)).sum =
      ((List.range parties).map fun i => p.residue (openings.mac k i)).sum := by
    congr 1
    refine List.map_congr_left fun i _ => ?_
    rw [Compressed.residueDefect, sub_add_cancel]
  rw [List.sum_map_add, List.sum_map_mul_right] at hsplit
  rw [defect, Int.cast_sub, Int.cast_mul, natCast_sum_map, natCast_sum_map, ← hsplit,
    Int.cast_natCast, ← Modulus.residue, add_sub_cancel_right]

/-- The check values add up to the polynomial of the defects at the combiner. -/
theorem natCast_checkTotal_records (h : openings.Reduced p parties)
    (hkeys : ∀ i < parties, p.Reduced (keyShare i)) {r : ℕ} (hr : r < p.value.toNat) :
    (checkTotal p parties keyShare openings.records (.ofNat r) : ZMod p.value.toNat) =
      horner (r : ZMod p.value.toNat) ((List.range openings.count).map fun k =>
        (openings.defect parties keyShare k : ZMod p.value.toNat)) := by
  rw [natCast_checkTotal (Modulus.reduced_ofNat hr) hkeys fun i hi => h.records hi,
    Modulus.residue_ofNat hr]
  simp only [records, List.map_map]
  refine (sum_map_horner _ _ (List.range openings.count) fun i k =>
    Compressed.residueDefect p (keyShare i) ⟨openings.value k, openings.mac k i⟩).trans ?_
  simp only [sum_residueDefect]

theorem intCast_defect_eq_zero_iff {k : ℕ} :
    (openings.defect parties keyShare k : ZMod p.value.toNat) = 0 ↔
      openings.defect parties keyShare k ≡ 0 [ZMOD p.value.toNat] := by
  rw [← Int.cast_zero, ZMod.intCast_eq_intCast_iff]

/-- The check values of all parties add up to a polynomial in the combiner, with the defects as its
coefficients. They add up to zero at every combiner if all records are consistent, and otherwise at
fewer combiners than there are records; if a single record is not consistent, at most at zero. -/
theorem checkTotal_records (hprime : p.value.toNat.Prime) (h : openings.Reduced p parties)
    (hkeys : ∀ i < parties, p.Reduced (keyShare i)) :
    let total : ℕ → ℕ := fun r => checkTotal p parties keyShare openings.records (.ofNat r)
    let consistent : ℕ → Prop := fun k =>
      openings.defect parties keyShare k ≡ 0 [ZMOD p.value.toNat]
    (∀ r < p.value.toNat, (total r : ℤ) ≡ ∑ k ∈ Finset.range openings.count,
        (r : ℤ) ^ (openings.count - 1 - k) * openings.defect parties keyShare k
          [ZMOD p.value.toNat]) ∧
      ((∀ k < openings.count, consistent k) →
        ∀ r < p.value.toNat, total r % p.value.toNat = 0) ∧
      ((∃ k < openings.count, ¬consistent k) →
        ((Finset.range p.value.toNat).filter fun r => total r % p.value.toNat = 0).card ≤
          openings.count - 1) ∧
      ∀ k < openings.count, ¬consistent k → (∀ l < openings.count, l ≠ k → consistent l) →
        ∀ r < p.value.toNat, r ≠ 0 → total r % p.value.toNat ≠ 0 := by
  have : Fact p.value.toNat.Prime := ⟨hprime⟩
  intro total consistent
  have hzero : ∀ {r}, r < p.value.toNat → (total r % p.value.toNat = 0 ↔
      horner (r : ZMod p.value.toNat) ((List.range openings.count).map fun k =>
        (openings.defect parties keyShare k : ZMod p.value.toNat)) = 0) := fun hr => by
    rw [← natCast_checkTotal_records h hkeys hr]
    exact checkTotal_mod_eq_zero_iff
  refine ⟨fun r hr => ?_, fun hall r hr => ?_, ?_, ?_⟩
  · rw [← ZMod.intCast_eq_intCast_iff, Int.cast_natCast, natCast_checkTotal_records h hkeys hr,
      horner_map_range]
    push_cast
    rfl
  · refine (hzero hr).2 (horner_eq_zero fun c hc => ?_)
    obtain ⟨k, hk, rfl⟩ := List.mem_map.1 hc
    exact intCast_defect_eq_zero_iff.2 (hall k (List.mem_range.1 hk))
  · rintro ⟨k, hk, hne⟩
    have hmem : (openings.defect parties keyShare k : ZMod p.value.toNat) ∈
        (List.range openings.count).map fun k =>
          (openings.defect parties keyShare k : ZMod p.value.toNat) :=
      List.mem_map_of_mem (List.mem_range.2 hk)
    have hroots := card_horner_eq_zero_lt hmem (mt intCast_defect_eq_zero_iff.1 hne) Finset.univ
    rw [List.length_map, List.length_range] at hroots
    -- Numbers below the modulus are residues.
    refine Nat.le_sub_one_of_lt (lt_of_le_of_lt
      (Finset.card_le_card_of_injOn (fun r : ℕ => (r : ZMod p.value.toNat)) ?_ ?_) hroots)
    · intro r hr
      obtain ⟨hr, hpass⟩ := Finset.mem_filter.1 hr
      exact Finset.mem_filter.2 ⟨Finset.mem_univ _, (hzero (Finset.mem_range.1 hr)).1 hpass⟩
    · intro r hr s hs heq
      have hr := Finset.mem_range.1 (Finset.mem_filter.1 hr).1
      have hs := Finset.mem_range.1 (Finset.mem_filter.1 hs).1
      exact (Modulus.natCast_inj hr hs).1 heq
  · intro k hk hne hothers r hr hnonzero
    have hpoint : (r : ZMod p.value.toNat) ≠ 0 := fun heq =>
      hnonzero ((Modulus.natCast_inj hr Modulus.value_pos).1 (by rw [heq, Nat.cast_zero]))
    exact mt (hzero hr).1 (horner_ne_zero hpoint hk (mt intCast_defect_eq_zero_iff.1 hne)
      fun l hl hlk => intCast_defect_eq_zero_iff.2 (hothers l hl hlk))

/-- Three parties with the key shares 1, 2 and 3 modulo 7 have opened two values, and their shares of
the second MAC add up to one too many: only the combiner zero could hide that. -/
theorem checkTotal_records_seven :
    let p : Modulus := ⟨.ofNat 7, by decide⟩
    let keyShare : PartyId → Element := fun i => .ofNat (i + 1)
    let openings : Openings :=
      ⟨2, fun k => .ofNat (2 * k + 3), fun k i => .ofNat (if k = 0 ∧ i = 2 then 2 else 1)⟩
    let total : ℕ → ℕ := fun r => checkTotal p 3 keyShare openings.records (.ofNat r)
    p.value.toNat.Prime ∧ openings.Reduced p 3 ∧ (∀ i < 3, p.Reduced (keyShare i)) ∧
      (∀ r < 7, r ≠ 0 → total r % 7 ≠ 0) ∧
      ((Finset.range 7).filter fun r => total r % 7 = 0).card ≤ 1 := by
  intro p keyShare openings total
  have hprime : p.value.toNat.Prime := by decide
  have hreduced : openings.Reduced p 3 := ⟨by decide, by decide⟩
  have hkeys : ∀ i < 3, p.Reduced (keyShare i) := by decide
  have hwrong : ¬openings.defect 3 keyShare 1 ≡ 0 [ZMOD p.value.toNat] := by decide
  have hothers : ∀ l < 2, l ≠ 1 → openings.defect 3 keyShare l ≡ 0 [ZMOD p.value.toNat] := by
    decide
  obtain ⟨-, -, hcard, hsingle⟩ := checkTotal_records hprime hreduced hkeys
  exact ⟨hprime, hreduced, hkeys, hsingle 1 (by decide) hwrong hothers,
    hcard ⟨1, by decide, hwrong⟩⟩

end Openings
end AuthenticatedMpc
