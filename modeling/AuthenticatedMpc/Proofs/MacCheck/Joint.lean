import AuthenticatedMpc.Proofs.Circuit.Dealing
import AuthenticatedMpc.Proofs.MacCheck.ClosedForm
import AuthenticatedMpc.Proofs.MacCheck.Verdict

/-!
# Checks that all parties run

Whatever the parties have recorded, four exchanges take all of them to the end of a check. They
derive the same combiner and come to the same verdict: whether their check values add up to zero.
-/

namespace AuthenticatedMpc

/-- The exchanges in which all parties commit to contributions and reveal them. -/
def contributions (phase : Phase) (others : PartyId → Element × Nonce) :
    List (PartyId → Packet) :=
  [fun q => ⟨phase, [(Commitment.commit (others q).1 (others q).2).digest]⟩,
    fun q => ⟨phase, [Commitment.reveal (others q).1 (others q).2]⟩]

theorem revealing_eq_conversation (me : Party) (phase : Phase) (others : PartyId → Element × Nonce) :
    revealing me phase (others me.id) others = conversation me (contributions phase others) := by
  rw [contributions, conversation, List.flatMap_cons, List.flatMap_singleton]
  rfl

/-! ## What the parties draw -/

/-- What a party draws for a check: an element and a nonce to commit to it, and a nonce for its check
value. -/
abbrev Draws := (Element × Nonce) × Nonce

def Modulus.drawCheck (p : Modulus) : Draw Draws := do
  let own ← p.draw
  let nonce ← Nonce.draw
  let nonce' ← Nonce.draw
  pure ((own, nonce), nonce')

section Draws

variable {p : Modulus} {source source' : Source} {draws : Draws}

theorem Modulus.drawCheck_eq_some_iff : p.drawCheck source = some (draws, source') ↔
    ∃ source₁ source₂, p.draw source = some (draws.1.1, source₁) ∧
      Nonce.draw source₁ = some (draws.1.2, source₂) ∧
      Nonce.draw source₂ = some (draws.2, source') := by
  have hdraw : p.drawCheck source = (p.draw source).bind fun own =>
      (Nonce.draw own.2).bind fun nonce => (Nonce.draw nonce.2).bind fun nonce' =>
        some (((own.1, nonce.1), nonce'.1), nonce'.2) := rfl
  simp only [hdraw, Option.bind_eq_some_iff, Prod.exists, Option.some.injEq, Prod.mk.injEq]
  constructor
  · rintro ⟨own, source₁, hown, nonce, source₂, hnonce, nonce', _, hnonce', rfl, rfl⟩
    exact ⟨source₁, source₂, hown, hnonce, hnonce'⟩
  · rintro ⟨source₁, source₂, hown, hnonce, hnonce'⟩
    exact ⟨_, source₁, hown, _, source₂, hnonce, _, source', hnonce', rfl, rfl⟩

/-- Only the element can take forever to draw. -/
theorem Modulus.exists_drawCheck {own : Element} {source₁ : Source}
    (h : p.draw source = some (own, source₁)) :
    ∃ draws source', p.drawCheck source = some (draws, source') :=
  ⟨((own, _), _), _, drawCheck_eq_some_iff.mpr ⟨source₁, _, h, rfl, rfl⟩⟩

theorem Modulus.reduced_drawCheck (h : p.drawCheck source = some (draws, source')) :
    p.Reduced draws.1.1 := by
  obtain ⟨_, _, hown, -⟩ := drawCheck_eq_some_iff.mp h
  exact reduced_draw hown

theorem Modulus.word_drawCheck (h : p.drawCheck source = some (draws, source')) :
    source'.word = source.word := by
  obtain ⟨_, _, hown, hnonce, hnonce'⟩ := drawCheck_eq_some_iff.mp h
  exact (Nonce.word_draw hnonce').trans ((Nonce.word_draw hnonce).trans (word_draw hown))

end Draws

/-! ## Combiner, exchanges and verdict -/

namespace Table

variable (table : Table) (number : UInt64) (records : PartyId → List Record)
  (draws : PartyId → Draws)

def combiner : Element :=
  .ofNat (((List.range table.parties).map fun q => (draws q).1.1.toNat).sum %
    table.modulus.value.toNat)

def checkValue (q : PartyId) : Element × Nonce :=
  ((compress table.modulus (table.combiner draws) (table.keyShare q) (records q)).value, (draws q).2)

def checkExchanges : List (PartyId → Packet) :=
  contributions (.macCheck number) (fun q => (draws q).1) ++
    contributions (.macCheck number) (table.checkValue records draws)

/-- How a check ends that all parties run with the combiner. -/
def verdict (combiner : Element) : Except Error Unit :=
  if checkTotal table.modulus table.parties table.keyShare records combiner %
      table.modulus.value.toNat = 0 then .ok ()
  else .error (.macCheckFailed number)

end Table

section Joint

variable {table : Table} {i : Fin table.parties} {others : PartyId → Element × Nonce}
  {number : UInt64} {records : PartyId → List Record} {draws : PartyId → Draws}

theorem Table.total_eq (h : ∀ q < table.parties, table.modulus.Reduced (others q).1) :
    (table.party i).total (others i).1 others =
      .ofNat (((List.range table.parties).map fun q => (others q).1.toNat).sum %
        table.modulus.value.toNat) := by
  have htotal := @Party.toNat_total (table.party i) (others i).1 others (h i i.isLt)
    fun q hq => Modulus.reduced_iff.mp (h q (Table.mem_peers.mp hq).1)
  have hsum := (table.party i).sum_peers fun q => (others q).1.toNat
  rw [← Limbs.toNat_inj, htotal, Modulus.toNat_ofNat_mod]
  exact congrArg (· % table.modulus.value.toNat) hsum

theorem Table.reduced_combiner : table.modulus.Reduced (table.combiner draws) :=
  Modulus.reduced_ofNat (Modulus.mod_value_lt _)

theorem Table.reduced_checkValue {q : PartyId} (hq : q < table.parties)
    (hrecords : ∀ record ∈ records q, record.Reduced table.modulus) :
    table.modulus.Reduced (table.checkValue records draws q).1 :=
  (reduced_compress table.reduced_combiner (Modulus.reduced_iff.mpr (table.keyShare_lt q hq))
    hrecords).value

theorem Table.exists_ends_check {v : Verifier} {config : Config} {source : Source}
    (hne : records i ≠ [])
    (hrecords : ∀ q < table.parties, ∀ record ∈ records q, record.Reduced table.modulus)
    (hdraws : ∀ q < table.parties, table.modulus.Reduced (draws q).1.1)
    (hcheck : v.check = MacCheck.start number (records i) table.modulus config)
    (hown : table.modulus.drawCheck v.generator = some (draws i, source)) :
    ∃ final, (Verifier.execute (table.party i)).Ends v
        (conversation (table.party i) (table.checkExchanges number records draws))
        (table.verdict number records (table.combiner draws)) final ∧
      final.check.combiner = table.combiner draws ∧ final.generator = source := by
  obtain ⟨source₁, source₂, hdraw, hnonce, hnonce'⟩ := Modulus.drawCheck_eq_some_iff.mp hown
  have hvalues : ∀ q < table.parties, table.modulus.Reduced (table.checkValue records draws q).1 :=
    fun q hq => table.reduced_checkValue hq (hrecords q hq)
  let transcript : Transcript :=
    ⟨(draws i).1, fun q => (draws q).1, (draws i).2, table.checkValue records draws⟩
  have hcombiner : transcript.combiner (table.party i) = table.combiner draws :=
    @Table.total_eq table i (fun q => (draws q).1) hdraws
  have hsigma : transcript.sigma (table.party i) (records i) =
      (table.checkValue records draws i).1 := by
    rw [Transcript.sigma, hcombiner]
    rfl
  have hverdict : (if transcript.passes (table.party i) (records i) then .ok ()
      else .error (.macCheckFailed number)) =
        table.verdict number records (table.combiner draws) := by
    rw [Transcript.passes, Transcript.sum, hsigma, Table.total_eq hvalues, Table.verdict]
    refine if_congr ?_ rfl rfl
    rw [Element.isZero_iff, Modulus.toNat_ofNat_mod]
    rfl
  have htalk : transcript.talk (table.party i) (records i) number =
      conversation (table.party i) (table.checkExchanges number records draws) := by
    rw [Transcript.talk, hsigma, Table.checkExchanges, conversation_append,
      ← revealing_eq_conversation, ← revealing_eq_conversation]
    rfl
  have hdecided : Decided (table.verdict number records (table.combiner draws)) := by
    rw [Table.verdict]
    split
    · exact decided_ok ()
    · rintro _ ⟨⟩
      trivial
  have hstarted : Verifier.Started (table.party i) v.check :=
    hcheck ▸ Verifier.started_start (hrecords i i.isLt) hne
  have hreduced : transcript.Reduced (table.party i) :=
    ⟨fun q hq => Modulus.reduced_iff.mp (hdraws q (Table.mem_peers.mp hq).1),
      fun q hq => Modulus.reduced_iff.mp (hvalues q (Table.mem_peers.mp hq).1)⟩
  refine ⟨_, (Verifier.ends_execute hdecided hstarted).mpr
    ⟨transcript, source, ⟨source₁, source₂, hdraw, hnonce, hnonce'⟩, hreduced, ?_, ?_, rfl⟩,
      hcombiner, rfl⟩
  · rw [hcheck]
    exact htalk.symm
  · rw [hcheck]
    exact hverdict.symm

/-- Every party ends with the verdict, after the same exchanges and with the same combiner. -/
theorem exists_ends_execute {config : Fin table.parties → Config}
    {v : Fin table.parties → Verifier} (hne : ∀ i : Fin table.parties, records i ≠ [])
    (hrecords : ∀ i < table.parties, ∀ record ∈ records i, record.Reduced table.modulus)
    (hcheck : ∀ i, (v i).check = MacCheck.start number (records i) table.modulus (config i))
    (hdraws : ∀ i, ∃ own source, table.modulus.draw (v i).generator = some (own, source)) :
    ∃ (combiner : Element) (exchanges : List (PartyId → Packet))
      (final : Fin table.parties → Verifier), table.modulus.Reduced combiner ∧
        ∀ i, (Verifier.execute (table.party i)).Ends (v i) (conversation (table.party i) exchanges)
            (table.verdict number records combiner) (final i) ∧
          (final i).check.combiner = combiner ∧
          (final i).generator.word = (v i).generator.word := by
  have hdrawn : ∀ q, ∀ hq : q < table.parties, ∃ draws source,
      table.modulus.drawCheck (v ⟨q, hq⟩).generator = some (draws, source) := fun q hq =>
    let ⟨_, _, hown⟩ := hdraws ⟨q, hq⟩
    Modulus.exists_drawCheck hown
  choose! draws source hdrawn using hdrawn
  have hends := fun i : Fin table.parties => Table.exists_ends_check (hne i) hrecords
    (fun q hq => Modulus.reduced_drawCheck (hdrawn q hq)) (hcheck i) (hdrawn i i.isLt)
  choose final hends hcombiner hsource using hends
  refine ⟨table.combiner draws, table.checkExchanges number records draws, final,
    table.reduced_combiner, fun i => ⟨hends i, hcombiner i, ?_⟩⟩
  rw [hsource i]
  exact Modulus.word_drawCheck (hdrawn i i.isLt)

end Joint
end AuthenticatedMpc
