import AuthenticatedMpc.Proofs.MacCheck.ClosedForm
import Mathlib.Algebra.Field.ZMod

/-!
# Soundness of a MAC check

A party that makes the others open a wrong value does not know their key shares. For a combiner at
which the wrong values do not cancel, only one key share of the local party lets the check pass,
whatever the others reveal once they know the combiner; and the wrong values cancel at fewer
combiners than there are records.
-/

namespace AuthenticatedMpc

/-- The opening of a shared value, whose MAC shares at the peers add up to `peerMacs`. -/
structure Disclosure where
  truth : Element
  shown : Element
  peerMacs : ℕ

namespace Disclosure

variable (p : Modulus)

/-- What the local party records: the value that was opened, and the share of the MAC of the true
value that the peers do not hold. -/
def record (key : ℕ) (d : Disclosure) : Record where
  value := d.shown
  mac := .ofNat ((key * d.truth.toNat - d.peerMacs : ℤ) % p.value.toNat).toNat

/-- How far the opened value is from the true one. -/
def deviation (d : Disclosure) : ZMod p.value.toNat :=
  p.residue d.truth - p.residue d.shown

/-- The part of a record's defect that does not depend on the local key share. -/
def offset (peerKeys : ℕ) (d : Disclosure) : ZMod p.value.toNat :=
  peerKeys * p.residue d.truth - d.peerMacs

variable {p}

theorem reduced_record (key : ℕ) {d : Disclosure} (h : p.Reduced d.shown) :
    (d.record p key).Reduced p :=
  ⟨h, Modulus.reduced_ofNat_emod _⟩

/-- The defect is affine in the local key share, with the deviation as its slope. -/
theorem residueDefect_record (peerKeys : ℕ) {keyShare : ℕ} (hkey : keyShare < p.value.toNat)
    (d : Disclosure) :
    Compressed.residueDefect p (.ofNat keyShare) (d.record p (keyShare + peerKeys)) =
      keyShare * d.deviation p + d.offset p peerKeys := by
  rw [Compressed.residueDefect, record, Modulus.residue_ofNat_emod, Modulus.residue_ofNat hkey,
    deviation, offset, Modulus.residue, Modulus.residue]
  push_cast
  ring

end Disclosure

section Soundness

variable {p : Modulus}

theorem residue_compress_record {ds : List Disclosure}
    (hshown : ∀ d ∈ ds, p.Reduced d.shown) (peerKeys : ℕ) {combiner keyShare : ℕ}
    (hcombiner : combiner < p.value.toNat) (hkey : keyShare < p.value.toNat) :
    p.residue (compress p (.ofNat combiner) (.ofNat keyShare)
        (ds.map (Disclosure.record p (keyShare + peerKeys)))).value =
      keyShare * horner (combiner : ZMod p.value.toNat) (ds.map (Disclosure.deviation p)) +
        horner (combiner : ZMod p.value.toNat) (ds.map (Disclosure.offset p peerKeys)) := by
  have hrecords : ∀ record ∈ ds.map (Disclosure.record p (keyShare + peerKeys)),
      record.Reduced p := by
    intro record hrecord
    obtain ⟨d, hmem, rfl⟩ := List.mem_map.1 hrecord
    exact Disclosure.reduced_record _ (hshown d hmem)
  have hdefects : (ds.map (Disclosure.record p (keyShare + peerKeys))).map
      (Compressed.residueDefect p (.ofNat keyShare)) =
        (ds.map fun d => (d.deviation p, d.offset p peerKeys)).map
          fun c => (keyShare : ZMod p.value.toNat) * c.1 + c.2 := by
    rw [List.map_map, List.map_map]
    exact List.map_congr_left fun d _ => Disclosure.residueDefect_record peerKeys hkey d
  rw [residue_compress_value (Modulus.reduced_ofNat hcombiner) (Modulus.reduced_ofNat hkey)
      hrecords, hdefects, horner_add_mul, Modulus.residue_ofNat hcombiner, List.map_map,
    List.map_map]
  rfl

/-- A check passes at a combiner and a local key share exactly if the key share solves a linear
equation that the combiner determines. -/
theorem compress_record_passes_iff {ds : List Disclosure}
    (hshown : ∀ d ∈ ds, p.Reduced d.shown) (peerKeys revealed : ℕ)
    {combiner keyShare : ℕ} (hcombiner : combiner < p.value.toNat)
    (hkey : keyShare < p.value.toNat) :
    ((compress p (.ofNat combiner) (.ofNat keyShare)
        (ds.map (Disclosure.record p (keyShare + peerKeys)))).value.toNat + revealed) %
          p.value.toNat = 0 ↔
      (keyShare : ZMod p.value.toNat) *
          horner (combiner : ZMod p.value.toNat) (ds.map (Disclosure.deviation p)) =
        -(horner (combiner : ZMod p.value.toNat) (ds.map (Disclosure.offset p peerKeys)) +
          revealed) := by
  have hresidue := residue_compress_record hshown peerKeys hcombiner hkey
  unfold Modulus.residue at hresidue
  rw [← Nat.dvd_iff_mod_eq_zero, ← ZMod.natCast_eq_zero_iff, Nat.cast_add, hresidue,
    eq_neg_iff_add_eq_zero, add_assoc]

/-- At most `n * p` of the `p ^ 2` pairs of a combiner and a local key share let a check over `n`
records with a wrong value pass, for every way the peers can choose what they reveal. -/
theorem card_undetected_le (hprime : p.value.toNat.Prime) {ds : List Disclosure}
    (htruth : ∀ d ∈ ds, p.Reduced d.truth) (hshown : ∀ d ∈ ds, p.Reduced d.shown)
    (hwrong : ∃ d ∈ ds, d.shown ≠ d.truth) (peerKeys : ℕ) (revealed : ℕ → ℕ) :
    ((Finset.range p.value.toNat ×ˢ Finset.range p.value.toNat).filter fun pair =>
        ((compress p (.ofNat pair.1) (.ofNat pair.2)
            (ds.map (Disclosure.record p (pair.2 + peerKeys)))).value.toNat + revealed pair.1) %
          p.value.toNat = 0).card ≤ ds.length * p.value.toNat := by
  have : Fact p.value.toNat.Prime := ⟨hprime⟩
  obtain ⟨d, hmem, hne⟩ := hwrong
  have hdeviation : d.deviation p ≠ 0 := by
    intro hzero
    have hresidue : p.residue d.truth = p.residue d.shown := sub_eq_zero.1 hzero
    exact hne ((Modulus.residue_inj (htruth d hmem) (hshown d hmem)).1 hresidue).symm
  have hcount := card_mul_horner_eq_le (List.mem_map_of_mem hmem) hdeviation
    fun r : ZMod p.value.toNat =>
      -(horner r (ds.map (Disclosure.offset p peerKeys)) + revealed r.val)
  rw [List.length_map, ZMod.card] at hcount
  -- Pairs of numbers below the modulus are pairs of residues.
  refine (Finset.card_le_card_of_injOn
    (fun pair : ℕ × ℕ => ((pair.1 : ZMod p.value.toNat), (pair.2 : ZMod p.value.toNat))) ?_ ?_).trans
    hcount
  · intro pair hpair
    obtain ⟨hmem, hpass⟩ := Finset.mem_filter.1 hpair
    obtain ⟨hcombiner, hkey⟩ := Finset.mem_product.1 hmem
    have hcombiner := Finset.mem_range.1 hcombiner
    refine Finset.mem_filter.2 ⟨Finset.mem_univ _, ?_⟩
    rw [ZMod.val_cast_of_lt hcombiner]
    exact (compress_record_passes_iff hshown peerKeys _ hcombiner (Finset.mem_range.1 hkey)).1 hpass
  · intro pair hpair other hother heq
    have hpair := Finset.mem_product.1 (Finset.mem_filter.1 hpair).1
    have hother := Finset.mem_product.1 (Finset.mem_filter.1 hother).1
    simp only [Finset.mem_range] at hpair hother
    rw [Prod.mk.injEq] at heq
    exact Prod.ext ((Modulus.natCast_inj hpair.1 hother.1).1 heq.1)
      ((Modulus.natCast_inj hpair.2 hother.2).1 heq.2)

/-- Three opened values modulo 7, the second of them wrong: of 49 pairs at most 21 let it pass. -/
theorem card_undetected_seven :
    let p : Modulus := ⟨.ofNat 7, by decide⟩
    let ds : List Disclosure := [⟨.ofNat 3, .ofNat 3, 5⟩, ⟨.ofNat 2, .ofNat 6, 1⟩, ⟨.zero, .zero, 4⟩]
    ((Finset.range 7 ×ˢ Finset.range 7).filter fun pair =>
        ((compress p (.ofNat pair.1) (.ofNat pair.2)
            (ds.map (Disclosure.record p (pair.2 + 4)))).value.toNat + (pair.1 ^ 2 + 3)) % 7 = 0).card ≤
      21 :=
  @card_undetected_le ⟨.ofNat 7, by decide⟩ (by decide)
    [⟨.ofNat 3, .ofNat 3, 5⟩, ⟨.ofNat 2, .ofNat 6, 1⟩, ⟨.zero, .zero, 4⟩]
    (by decide) (by decide) (by decide) 4 fun r => r ^ 2 + 3

end Soundness
end AuthenticatedMpc
