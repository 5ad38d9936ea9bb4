import AuthenticatedMpc.MacCheck.Compress
import AuthenticatedMpc.Proofs.Field.Residue
import Mathlib.Algebra.Polynomial.Roots

/-!
# The closed form of a compression

Modulo the modulus, the compressed value of records is a polynomial in the combiner whose
coefficients are the defects of the records. A polynomial given by its coefficients, one of them
not zero, has fewer roots than coefficients.
-/

namespace AuthenticatedMpc

open Polynomial

/-! ## Horner's rule -/

section Horner

variable {R S : Type} [CommRing R] [CommRing S]

/-- The polynomial with the given coefficients, the first on the highest power, at a point. -/
def horner (r : R) (coefficients : List R) : R :=
  coefficients.foldl (fun acc coefficient => acc * r + coefficient) 0

theorem horner_concat (r : R) (cs : List R) (c : R) :
    horner r (cs ++ [c]) = horner r cs * r + c := by
  rw [horner, List.foldl_append]
  rfl

theorem horner_append (r : R) (as bs : List R) :
    horner r (as ++ bs) = horner r as * r ^ bs.length + horner r bs := by
  induction bs using List.reverseRecOn with
  | nil => simp [horner]
  | append_singleton bs b ih =>
    rw [← List.append_assoc, horner_concat, horner_concat, ih, List.length_append,
      List.length_singleton, pow_succ]
    ring

theorem map_horner (f : R →+* S) (r : R) (cs : List R) :
    f (horner r cs) = horner (f r) (cs.map f) := by
  induction cs using List.reverseRecOn with
  | nil => simp [horner]
  | append_singleton cs c ih =>
    rw [List.map_append, List.map_singleton, horner_concat, horner_concat, map_add, map_mul, ih]

theorem horner_add_mul (r a : R) (cs : List (R × R)) :
    horner r (cs.map fun c => a * c.1 + c.2) =
      a * horner r (cs.map Prod.fst) + horner r (cs.map Prod.snd) := by
  induction cs using List.reverseRecOn with
  | nil => simp [horner]
  | append_singleton cs c ih =>
    simp only [List.map_append, List.map_singleton, horner_concat, ih]
    ring

theorem sum_map_horner {ι κ : Type} (r : R) (parts : List ι) (places : List κ) (f : ι → κ → R) :
    (parts.map fun i => horner r (places.map (f i))).sum =
      horner r (places.map fun k => (parts.map fun i => f i k).sum) := by
  induction places using List.reverseRecOn with
  | nil => simp [horner]
  | append_singleton places k ih =>
    simp only [List.map_append, List.map_singleton, horner_concat, List.sum_map_add,
      List.sum_map_mul_right, ih]

theorem horner_eq_zero {r : R} {cs : List R} (h : ∀ c ∈ cs, c = 0) : horner r cs = 0 := by
  induction cs using List.reverseRecOn with
  | nil => rfl
  | append_singleton cs c ih =>
    rw [horner_concat, ih fun d hd => h d (List.mem_append_left _ hd), h c (by simp), zero_mul,
      zero_add]

theorem horner_map_range (r : R) (n : ℕ) (f : ℕ → R) :
    horner r ((List.range n).map f) = ∑ k ∈ Finset.range n, r ^ (n - 1 - k) * f k := by
  induction n with
  | zero => rfl
  | succ n ih =>
    rw [List.range_succ, List.map_append, List.map_singleton, horner_concat, ih,
      Finset.sum_range_succ, Finset.sum_mul, Nat.add_sub_cancel, Nat.sub_self, pow_zero, one_mul]
    congr 1
    refine Finset.sum_congr rfl fun k hk => ?_
    have hpower : n - k = n - 1 - k + 1 := by
      have hlt := Finset.mem_range.1 hk
      omega
    rw [hpower, pow_succ]
    ring

noncomputable def hornerPolynomial (coefficients : List R) : R[X] :=
  horner X (coefficients.map C)

theorem hornerPolynomial_concat (cs : List R) (c : R) :
    hornerPolynomial (cs ++ [c]) = hornerPolynomial cs * X + C c := by
  rw [hornerPolynomial, List.map_append, List.map_singleton, horner_concat, hornerPolynomial]

theorem eval_hornerPolynomial (r : R) (cs : List R) :
    (hornerPolynomial cs).eval r = horner r cs := by
  rw [hornerPolynomial, ← coe_evalRingHom, map_horner, List.map_map, coe_evalRingHom, eval_X]
  congr 1
  exact (List.map_congr_left fun c _ => eval_C).trans (List.map_id cs)

theorem degree_hornerPolynomial_lt (cs : List R) : (hornerPolynomial cs).degree < cs.length := by
  induction cs using List.reverseRecOn with
  | nil => simp [hornerPolynomial, horner]
  | append_singleton cs c ih =>
    rw [hornerPolynomial_concat, List.length_append, List.length_singleton]
    have hconstant : (C c).degree < ((cs.length + 1 : ℕ) : WithBot ℕ) :=
      degree_C_le.trans_lt (by exact_mod_cast Nat.succ_pos _)
    refine (degree_add_le _ _).trans_lt (max_lt ?_ hconstant)
    rw [degree_lt_iff_coeff_zero] at ih ⊢
    intro m hm
    cases m with
    | zero => exact absurd hm (by simp)
    | succ m =>
      rw [coeff_mul_X]
      exact ih m (Nat.le_of_succ_le_succ hm)

theorem hornerPolynomial_ne_zero {cs : List R} {c : R} (hmem : c ∈ cs) (hc : c ≠ 0) :
    hornerPolynomial cs ≠ 0 := by
  induction cs using List.reverseRecOn with
  | nil => simp at hmem
  | append_singleton cs d ih =>
    rw [hornerPolynomial_concat]
    intro hzero
    have hlast : d = 0 := by simpa using congrArg (coeff · 0) hzero
    have hrest : c ∈ cs := by
      rcases List.mem_append.1 hmem with h | h
      · exact h
      · exact absurd ((List.mem_singleton.1 h).trans hlast) hc
    refine ih hrest (Polynomial.ext fun m => ?_)
    simpa [hlast] using congrArg (coeff · (m + 1)) hzero

theorem card_horner_eq_zero_lt [IsDomain R] [DecidableEq R] {cs : List R} {c : R} (hmem : c ∈ cs)
    (hc : c ≠ 0) (points : Finset R) :
    (points.filter fun r => horner r cs = 0).card < cs.length := by
  have hne := hornerPolynomial_ne_zero hmem hc
  have hsub : points.filter (fun r => horner r cs = 0) ⊆ (hornerPolynomial cs).roots.toFinset := by
    intro r hr
    rw [Multiset.mem_toFinset, mem_roots hne, IsRoot, eval_hornerPolynomial]
    exact (Finset.mem_filter.1 hr).2
  have hcard := (Finset.card_le_card hsub).trans (Multiset.toFinset_card_le _)
  have hdegree := (card_roots hne).trans_lt (degree_hornerPolynomial_lt cs)
  exact hcard.trans_lt (by exact_mod_cast hdegree)

/-- In a field, a line whose slope is a polynomial in the point takes a value that depends on the
point alone at few places: anywhere on the roots of the slope, and once at every other point. -/
theorem card_mul_horner_eq_le {F : Type} [Field F] [Fintype F] [DecidableEq F] {slopes : List F}
    {c : F} (hmem : c ∈ slopes) (hc : c ≠ 0) (target : F → F) :
    (Finset.univ.filter fun x : F × F => x.2 * horner x.1 slopes = target x.1).card ≤
      slopes.length * Fintype.card F := by
  let roots := Finset.univ.filter fun r : F => horner r slopes = 0
  let isolated := Finset.univ.filter fun x : F × F =>
    horner x.1 slopes ≠ 0 ∧ x.2 * horner x.1 slopes = target x.1
  have hroots : roots.card + 1 ≤ slopes.length := card_horner_eq_zero_lt hmem hc Finset.univ
  have hcover : (Finset.univ.filter fun x : F × F => x.2 * horner x.1 slopes = target x.1) ⊆
      roots ×ˢ Finset.univ ∪ isolated := by
    intro x hx
    have heq := (Finset.mem_filter.1 hx).2
    by_cases hslope : horner x.1 slopes = 0
    · exact Finset.mem_union_left _ (by simp [roots, hslope])
    · exact Finset.mem_union_right _ (by simp [isolated, hslope, heq])
  have hisolated : isolated.card ≤ Fintype.card F := by
    refine Finset.card_le_card_of_injOn Prod.fst (fun _ _ => Finset.mem_univ _) ?_
    intro x hx y hy hfst
    obtain ⟨hslope, hx⟩ := (Finset.mem_filter.1 hx).2
    have hy := (Finset.mem_filter.1 hy).2.2
    rw [← hfst] at hy
    exact Prod.ext hfst (mul_right_cancel₀ hslope (hx.trans hy.symm))
  calc _ ≤ (roots ×ˢ Finset.univ ∪ isolated).card := Finset.card_le_card hcover
    _ ≤ roots.card * Fintype.card F + Fintype.card F := by
      refine (Finset.card_union_le _ _).trans (Nat.add_le_add ?_ hisolated)
      rw [Finset.card_product, Finset.card_univ]
    _ = (roots.card + 1) * Fintype.card F := by ring
    _ ≤ slopes.length * Fintype.card F := Nat.mul_le_mul_right _ hroots

theorem horner_ne_zero [IsDomain R] {r : R} (hr : r ≠ 0) {n k : ℕ} (hk : k < n) {f : ℕ → R}
    (hfk : f k ≠ 0) (hothers : ∀ l < n, l ≠ k → f l = 0) :
    horner r ((List.range n).map f) ≠ 0 := by
  rw [horner_map_range, Finset.sum_eq_single_of_mem k (Finset.mem_range.2 hk)]
  · exact mul_ne_zero (pow_ne_zero _ hr) hfk
  · intro l hl hne
    rw [hothers l (Finset.mem_range.1 hl) hne, mul_zero]

end Horner

/-! ## Compressions -/

structure Record.Reduced (p : Modulus) (record : Record) : Prop where
  value : p.Reduced record.value
  mac : p.Reduced record.mac

structure Compressed.Reduced (p : Modulus) (compressed : Compressed) : Prop where
  value : p.Reduced compressed.value
  power : p.Reduced compressed.power

namespace Compressed

variable (p : Modulus)

def residueDefect (keyShare : Element) (record : Record) : ZMod p.value.toNat :=
  p.residue record.mac - p.residue keyShare * p.residue record.value

variable {p} {combiner keyShare : Element}

theorem residue_defect (hkey : p.Reduced keyShare) {record : Record} (h : record.Reduced p) :
    p.residue (defect p keyShare record) = residueDefect p keyShare record := by
  rw [defect, Modulus.residue_sub h.mac (Modulus.reduced_mul hkey h.value),
    Modulus.residue_mul hkey h.value, residueDefect]

theorem reduced_defect (hkey : p.Reduced keyShare) {record : Record} (h : record.Reduced p) :
    p.Reduced (defect p keyShare record) :=
  Modulus.reduced_sub h.mac (Modulus.reduced_mul hkey h.value)

end Compressed

section Compress

variable {p : Modulus} {combiner keyShare : Element} (hcombiner : p.Reduced combiner)
  (hkey : p.Reduced keyShare)
include hcombiner hkey

omit hcombiner hkey in
theorem compress_concat (records : List Record) (record : Record) :
    compress p combiner keyShare (records ++ [record]) =
      (compress p combiner keyShare records).absorb p combiner keyShare record := by
  rw [compress, List.foldl_append]
  rfl

theorem reduced_compress {records : List Record} (h : ∀ record ∈ records, record.Reduced p) :
    (compress p combiner keyShare records).Reduced p := by
  induction records using List.reverseRecOn with
  | nil => exact ⟨Modulus.reduced_zero, Modulus.reduced_one⟩
  | append_singleton records record ih =>
    have hprevious := ih fun r hr => h r (List.mem_append_left _ hr)
    have hrecord := h record (by simp)
    rw [compress_concat]
    exact ⟨Modulus.reduced_add (Modulus.reduced_mul hprevious.value hcombiner)
      (Compressed.reduced_defect hkey hrecord), Modulus.reduced_mul hprevious.power hcombiner⟩

/-- The value is Horner's rule over the defects. -/
theorem residue_compress_value {records : List Record}
    (h : ∀ record ∈ records, record.Reduced p) :
    p.residue (compress p combiner keyShare records).value =
      horner (p.residue combiner) (records.map (Compressed.residueDefect p keyShare)) := by
  induction records using List.reverseRecOn with
  | nil => exact Modulus.residue_zero
  | append_singleton records record ih =>
    have hrecords : ∀ r ∈ records, r.Reduced p := fun r hr => h r (List.mem_append_left _ hr)
    have hrecord := h record (by simp)
    have hprevious := reduced_compress hcombiner hkey hrecords
    rw [compress_concat, List.map_append, List.map_singleton, horner_concat,
      ← ih hrecords, Compressed.absorb,
      Modulus.residue_add (Modulus.reduced_mul hprevious.value hcombiner)
        (Compressed.reduced_defect hkey hrecord),
      Modulus.residue_mul hprevious.value hcombiner, Compressed.residue_defect hkey hrecord]

theorem residue_compress_power {records : List Record}
    (h : ∀ record ∈ records, record.Reduced p) :
    p.residue (compress p combiner keyShare records).power =
      p.residue combiner ^ records.length := by
  induction records using List.reverseRecOn with
  | nil => simp [compress, Compressed.start]
  | append_singleton records record ih =>
    have hrecords : ∀ r ∈ records, r.Reduced p := fun r hr => h r (List.mem_append_left _ hr)
    have hprevious := reduced_compress hcombiner hkey hrecords
    rw [compress_concat, Compressed.absorb,
      Modulus.residue_mul hprevious.power hcombiner, ih hrecords, List.length_append,
      List.length_singleton, pow_succ]

/-- Two consecutive parts fold into the compression of the whole. -/
theorem compress_append {front back : List Record} (hfront : ∀ record ∈ front, record.Reduced p)
    (hback : ∀ record ∈ back, record.Reduced p) :
    compress p combiner keyShare (front ++ back) =
      ⟨p.add (p.mul (compress p combiner keyShare front).value
          (compress p combiner keyShare back).power) (compress p combiner keyShare back).value,
        p.mul (compress p combiner keyShare front).power
          (compress p combiner keyShare back).power⟩ := by
  have hall : ∀ record ∈ front ++ back, record.Reduced p := fun r hr =>
    (List.mem_append.1 hr).elim (hfront r) (hback r)
  have hwhole := reduced_compress hcombiner hkey hall
  have hf := reduced_compress hcombiner hkey hfront
  have hb := reduced_compress hcombiner hkey hback
  have hmoved := Modulus.reduced_mul hf.value hb.power
  have hvalue : (compress p combiner keyShare (front ++ back)).value =
      p.add (p.mul (compress p combiner keyShare front).value
        (compress p combiner keyShare back).power) (compress p combiner keyShare back).value := by
    rw [← Modulus.residue_inj hwhole.value (Modulus.reduced_add hmoved hb.value),
      Modulus.residue_add hmoved hb.value, Modulus.residue_mul hf.value hb.power,
      residue_compress_value hcombiner hkey hall, residue_compress_value hcombiner hkey hfront,
      residue_compress_value hcombiner hkey hback, residue_compress_power hcombiner hkey hback,
      List.map_append, horner_append, List.length_map]
  have hpower : (compress p combiner keyShare (front ++ back)).power =
      p.mul (compress p combiner keyShare front).power
        (compress p combiner keyShare back).power := by
    rw [← Modulus.residue_inj hwhole.power (Modulus.reduced_mul hf.power hb.power),
      Modulus.residue_mul hf.power hb.power, residue_compress_power hcombiner hkey hall,
      residue_compress_power hcombiner hkey hfront, residue_compress_power hcombiner hkey hback,
      List.length_append, pow_add]
  cases hc : compress p combiner keyShare (front ++ back)
  rw [hc] at hvalue hpower
  simp only at hvalue hpower
  rw [hvalue, hpower]

end Compress

def checkTotal (p : Modulus) (parties : ℕ) (keyShare : PartyId → Element)
    (records : PartyId → List Record) (combiner : Element) : ℕ :=
  ((List.range parties).map fun i =>
    (compress p combiner (keyShare i) (records i)).value.toNat).sum

theorem natCast_checkTotal {p : Modulus} {parties : ℕ} {keyShare : PartyId → Element}
    {records : PartyId → List Record} {combiner : Element} (hcombiner : p.Reduced combiner)
    (hkeys : ∀ i < parties, p.Reduced (keyShare i))
    (hrecords : ∀ i < parties, ∀ record ∈ records i, record.Reduced p) :
    (checkTotal p parties keyShare records combiner : ZMod p.value.toNat) =
      ((List.range parties).map fun i => horner (p.residue combiner)
        ((records i).map (Compressed.residueDefect p (keyShare i)))).sum := by
  rw [checkTotal, Nat.cast_list_sum, List.map_map]
  congr 1
  refine List.map_congr_left fun i hi => ?_
  have hlt := List.mem_range.1 hi
  exact residue_compress_value hcombiner (hkeys i hlt) (hrecords i hlt)

theorem checkTotal_mod_eq_zero_iff {p : Modulus} {parties : ℕ} {keyShare : PartyId → Element}
    {records : PartyId → List Record} {combiner : Element} :
    checkTotal p parties keyShare records combiner % p.value.toNat = 0 ↔
      (checkTotal p parties keyShare records combiner : ZMod p.value.toNat) = 0 := by
  rw [ZMod.natCast_eq_zero_iff, Nat.dvd_iff_mod_eq_zero]

end AuthenticatedMpc
