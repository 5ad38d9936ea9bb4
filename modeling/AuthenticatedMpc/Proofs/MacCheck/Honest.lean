import AuthenticatedMpc.Proofs.MacCheck.Joint

/-!
# Honest checks pass

For records of valid deals the check values of all parties add up to zero, whatever the combiner;
so a check that all parties make together takes four exchanges and passes.
-/

namespace AuthenticatedMpc

variable {table : Table} {deals : List Deal}

/-! ## The check values -/

namespace Deal

variable {deal : Deal}

theorem Valid.reduced_record (h : deal.Valid table) {q : PartyId} (hq : q < table.parties) :
    (deal.record q).Reduced table.modulus := ⟨h.reduced_value, h.mac_lt q hq⟩

theorem Valid.sum_residue_mac (h : deal.Valid table) :
    ((List.range table.parties).map fun q => table.modulus.residue (deal.share q).mac).sum =
      ((List.range table.parties).map fun q => table.modulus.residue (table.keyShare q)).sum *
        table.modulus.residue deal.value := by
  have hmacs : ∀ value ∈ ((List.range table.parties).map deal.share).map Share.mac,
      table.modulus.Reduced value := by
    intro value hmem
    rw [List.map_map] at hmem
    obtain ⟨q, hq, rfl⟩ := List.mem_map.mp hmem
    exact h.mac_lt q (List.mem_range.mp hq)
  have hkeys : ∀ value ∈ (List.range table.parties).map table.keyShare,
      table.modulus.Reduced value := by
    intro value hmem
    obtain ⟨q, hq, rfl⟩ := List.mem_map.mp hmem
    exact Modulus.reduced_iff.mpr (table.keyShare_lt q (List.mem_range.mp hq))
  have hmac := congrArg (fun share => table.modulus.residue share.mac) h.openAll_eq
  have hkey : table.modulus.Reduced table.key :=
    Modulus.reduced_foldl_add Modulus.reduced_zero hkeys
  simp only [Share.openAll, Modulus.sum] at hmac
  rw [Modulus.residue_foldl_add Modulus.reduced_zero hmacs,
    Modulus.residue_mul hkey h.reduced_value, Table.key, Modulus.sum,
    Modulus.residue_foldl_add Modulus.reduced_zero hkeys, Modulus.residue_zero, zero_add, zero_add,
    List.map_map, List.map_map, List.map_map] at hmac
  exact hmac

/-- The defects of all parties cancel. -/
theorem Valid.sum_residueDefect (h : deal.Valid table) :
    ((List.range table.parties).map fun q =>
      Compressed.residueDefect table.modulus (table.keyShare q) (deal.record q)).sum = 0 := by
  have hsplit : ((List.range table.parties).map fun q =>
      Compressed.residueDefect table.modulus (table.keyShare q) (deal.record q) +
        table.modulus.residue (table.keyShare q) * table.modulus.residue deal.value).sum =
      ((List.range table.parties).map fun q => table.modulus.residue (deal.share q).mac).sum := by
    congr 1
    refine List.map_congr_left fun q _ => ?_
    rw [Compressed.residueDefect, record, sub_add_cancel]
  rw [List.sum_map_add, List.sum_map_mul_right, h.sum_residue_mac] at hsplit
  exact add_eq_right.mp hsplit

end Deal

theorem checkTotal_record_mod (hvalid : ∀ deal ∈ deals, deal.Valid table) {combiner : Element}
    (hcombiner : table.modulus.Reduced combiner) :
    checkTotal table.modulus table.parties table.keyShare (fun q => deals.map (Deal.record · q))
      combiner % table.modulus.value.toNat = 0 := by
  rw [checkTotal_mod_eq_zero_iff, natCast_checkTotal hcombiner
    (fun q hq => Modulus.reduced_iff.mpr (table.keyShare_lt q hq))]
  · simp only [List.map_map]
    refine (sum_map_horner _ _ deals fun q deal =>
      Compressed.residueDefect table.modulus (table.keyShare q) (deal.record q)).trans ?_
    refine horner_eq_zero fun c hc => ?_
    obtain ⟨deal, hdeal, rfl⟩ := List.mem_map.mp hc
    exact (hvalid deal hdeal).sum_residueDefect
  · intro q hq record hrecord
    obtain ⟨deal, hdeal, rfl⟩ := List.mem_map.mp hrecord
    exact (hvalid deal hdeal).reduced_record hq

/-! ## The check -/

section Check

variable {number : UInt64} {config : Config} {v : Fin table.parties → Verifier}

/-- A check of valid deals passes. -/
theorem Together.execute (hne : deals ≠ []) (hvalid : ∀ deal ∈ deals, deal.Valid table)
    (hcheck : ∀ i, (v i).check =
      MacCheck.start number (deals.map (Deal.record · i)) table.modulus config)
    (hdraws : ∀ i, Source.Draws table.modulus (v i).generator.word) :
    Together table (fun i => Verifier.execute (table.party i)) v
      fun i _ v' => v'.generator.word = (v i).generator.word := by
  have hrecords : ∀ q < table.parties, ∀ record ∈ deals.map (Deal.record · q),
      record.Reduced table.modulus := by
    intro q hq record hrecord
    obtain ⟨deal, hdeal, rfl⟩ := List.mem_map.mp hrecord
    exact (hvalid deal hdeal).reduced_record hq
  obtain ⟨combiner, exchanges, final, hcombiner, h⟩ := exists_ends_execute
    (fun i => mt List.map_eq_nil_iff.mp hne) hrecords hcheck
    fun i => hdraws i (v i).generator.position
  have hverdict : table.verdict number (fun q => deals.map (Deal.record · q)) combiner = .ok () :=
    if_pos (checkTotal_record_mod hvalid hcombiner)
  rw [hverdict] at h
  exact ⟨exchanges, fun _ => (), final, fun i => ⟨(h i).1, (h i).2.2⟩⟩

end Check
end AuthenticatedMpc
