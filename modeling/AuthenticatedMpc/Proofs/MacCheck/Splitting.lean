import AuthenticatedMpc.Proofs.MacCheck.ClosedForm

/-!
# Splitting a compression

A compression is the polynomial of the defects at the combiner, next to a power of the combiner, both
brought below the modulus. The power is what it takes to put the compression of later records behind
it: however records are cut into consecutive parts, the parts' compressions join to that of the whole.
-/

namespace AuthenticatedMpc

/-! ## The closed form -/

theorem horner_map_eq_sum {R ι : Type} [CommRing R] (r : R) (items : List ι) (f : ι → R) :
    horner r (items.map f) =
      ∑ k : Fin items.length, r ^ (items.length - 1 - (k : ℕ)) * f items[k] := by
  have hitems : items.map f =
      (List.range items.length).map fun k => ((items[k]?).map f).getD 0 := by
    refine List.ext_getElem (by simp) fun k hk _ => ?_
    rw [List.length_map] at hk
    simp [hk]
  rw [hitems, horner_map_range, Finset.sum_range]
  refine Finset.sum_congr rfl fun k _ => ?_
  simp

section Compress

variable {p : Modulus} {combiner keyShare : Element} {records : List Record}
  (hcombiner : p.Reduced combiner) (hkey : p.Reduced keyShare)
  (hrecords : ∀ record ∈ records, record.Reduced p)
include hcombiner hkey hrecords

theorem toNat_compress_value :
    ((compress p combiner keyShare records).value.toNat : ℤ) =
      (∑ k : Fin records.length, (combiner.toNat : ℤ) ^ (records.length - 1 - (k : ℕ)) *
        (records[k].mac.toNat - keyShare.toNat * records[k].value.toNat)) % p.value.toNat := by
  refine Modulus.toNat_eq_emod (reduced_compress hcombiner hkey hrecords).value ?_
  rw [residue_compress_value hcombiner hkey hrecords, horner_map_eq_sum]
  push_cast
  rfl

theorem toNat_compress_power :
    (compress p combiner keyShare records).power.toNat =
      combiner.toNat ^ records.length % p.value.toNat := by
  have hresidue : p.residue (compress p combiner keyShare records).power =
      ((combiner.toNat ^ records.length : ℕ) : ℤ) := by
    rw [residue_compress_power hcombiner hkey hrecords]
    push_cast
    rfl
  exact_mod_cast Modulus.toNat_eq_emod (reduced_compress hcombiner hkey hrecords).power hresidue

end Compress

/-! ## Joining parts -/

namespace Compressed

variable (p : Modulus)

/-- Two consecutive parts as one: the power of the later part moves the earlier one past it. -/
def join (front back : Compressed) : Compressed :=
  ⟨p.add (p.mul front.value back.power) back.value, p.mul front.power back.power⟩

/-- Any number of consecutive parts as one. -/
def joinAll (parts : List Compressed) : Compressed := parts.foldl (join p) start

theorem joinAll_concat (parts : List Compressed) (part : Compressed) :
    joinAll p (parts ++ [part]) = join p (joinAll p parts) part := List.foldl_concat ..

end Compressed

/-- However records are cut into parts, the parts join to the compression of the records. -/
theorem joinAll_compress {p : Modulus} {combiner keyShare : Element}
    (hcombiner : p.Reduced combiner) (hkey : p.Reduced keyShare) {parts : List (List Record)}
    (hparts : ∀ record ∈ parts.flatten, record.Reduced p) :
    Compressed.joinAll p (parts.map (compress p combiner keyShare)) =
      compress p combiner keyShare parts.flatten := by
  induction parts using List.reverseRecOn with
  | nil => rfl
  | append_singleton parts part ih =>
    rw [List.flatten_append, List.flatten_singleton] at hparts ⊢
    have hfront : ∀ record ∈ parts.flatten, record.Reduced p := fun record hrecord =>
      hparts record (List.mem_append_left _ hrecord)
    have hpart : ∀ record ∈ part, record.Reduced p := fun record hrecord =>
      hparts record (List.mem_append_right _ hrecord)
    rw [List.map_append, List.map_singleton, Compressed.joinAll_concat, ih hfront]
    exact (compress_append hcombiner hkey hfront hpart).symm

/-- A compression is the sum of the defects of the records, each on its power of the combiner, and the
power for all of them; and the compressions of consecutive parts join to it, whatever their number and
their lengths. -/
theorem compress_exact {p : Modulus} {combiner keyShare : Element} {records : List Record}
    (hcombiner : p.Reduced combiner) (hkey : p.Reduced keyShare)
    (hrecords : ∀ record ∈ records, record.Reduced p) :
    let whole := compress p combiner keyShare records
    (whole.value.toNat : ℤ) =
        (∑ k : Fin records.length, (combiner.toNat : ℤ) ^ (records.length - 1 - (k : ℕ)) *
          (records[k].mac.toNat - keyShare.toNat * records[k].value.toNat)) % p.value.toNat ∧
      whole.power.toNat = combiner.toNat ^ records.length % p.value.toNat ∧
      ∀ parts : List (List Record), parts.flatten = records →
        Compressed.joinAll p (parts.map (compress p combiner keyShare)) = whole := by
  refine ⟨toNat_compress_value hcombiner hkey hrecords,
    toNat_compress_power hcombiner hkey hrecords, ?_⟩
  rintro parts rfl
  exact joinAll_compress hcombiner hkey hrecords

/-- Three records in five parts, three of them empty, modulo a number that is not prime. -/
theorem compress_exact_fifteen :
    let p : Modulus := ⟨.ofNat 15, by decide⟩
    let first : Record := ⟨.ofNat 3, .ofNat 5⟩
    let others : List Record := [⟨.ofNat 14, .ofNat 1⟩, ⟨.zero, .ofNat 4⟩]
    let whole := compress p (.ofNat 7) (.ofNat 2) (first :: others)
    p.Reduced (.ofNat 7) ∧ p.Reduced (.ofNat 2) ∧ (∀ record ∈ first :: others, record.Reduced p) ∧
      (whole.value.toNat : ℤ) = (7 ^ 2 * (5 - 2 * 3) + 7 * (1 - 2 * 14) + (4 - 2 * 0)) % 15 ∧
      whole.power.toNat = 7 ^ 3 % 15 ∧
      Compressed.joinAll p ([[], [first], [], others, []].map (compress p (.ofNat 7) (.ofNat 2))) =
        whole := by
  intro p first others whole
  have hcombiner : p.Reduced (.ofNat 7) := by decide
  have hkey : p.Reduced (.ofNat 2) := by decide
  have hrecords : ∀ record ∈ first :: others, record.Reduced p :=
    List.forall_mem_cons.mpr ⟨⟨by decide, by decide⟩,
      List.forall_mem_cons.mpr ⟨⟨by decide, by decide⟩,
        List.forall_mem_singleton.mpr ⟨by decide, by decide⟩⟩⟩
  obtain ⟨hvalue, hpower, hparts⟩ := compress_exact hcombiner hkey hrecords
  exact ⟨hcombiner, hkey, hrecords, hvalue.trans (by decide), hpower.trans (by decide),
    hparts _ rfl⟩

end AuthenticatedMpc
