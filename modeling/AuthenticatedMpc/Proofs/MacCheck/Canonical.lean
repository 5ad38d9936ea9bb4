import AuthenticatedMpc.MacCheck.Execution
import AuthenticatedMpc.Proofs.Circuit.Canonical
import AuthenticatedMpc.Proofs.Field.Sampling
import AuthenticatedMpc.Proofs.MacCheck.Scrutiny

/-!
# Canonical checks

The combiner and the sum of the check values are sums of reveals that were checked to be reduced, and the
local check value is folded from compressions of reduced records. A check over no records, which works
under no modulus, hands out nothing.
-/

namespace AuthenticatedMpc

variable {p : Modulus}

/-! ## The gates of a check -/

theorem Payload.canonical_digest (commitment : Commitment) {phase : Phase} (hphase : phase.IsMacCheck) :
    Payload.Canonical p commitment.digest phase := by
  cases phase with
  | circuit _ => exact hphase.elim
  | macCheck _ => exact .inl ⟨commitment, dif_pos commitment.length_digest⟩

theorem Payload.canonical_reveal {value : Element} (h : p.Reduced value) (nonce : Nonce) {phase : Phase}
    (hphase : phase.IsMacCheck) : (Commitment.reveal value nonce).Canonical p phase := by
  cases phase with
  | circuit _ => exact hphase.elim
  | macCheck _ =>
    exact .inr ⟨(value, nonce), DecommitGate.parse_eq_ok_iff.mpr ⟨rfl, Modulus.reduced_iff.mp h⟩⟩

structure DecommitGate.Reduced (p : Modulus) (gate : DecommitGate) : Prop where
  value : p.Reduced gate.value
  sum : ∀ sum ∈ gate.sum, p.Reduced sum

structure AccumulateGate.Reduced (p : Modulus) (gate : AccumulateGate) : Prop where
  records : ∀ record ∈ gate.records, record.Reduced p
  combiner : p.Reduced gate.combiner
  output : ∀ output ∈ gate.output, output.Reduced p

def CheckGate.Reduced (p : Modulus) : CheckGate → Prop
  | commit _ => True
  | decommit gate => gate.Reduced p
  | accumulate gate => gate.Reduced p

theorem CheckGate.Reduced.compressed {gate : CheckGate} (h : gate.Reduced p) {part : Compressed}
    (hpart : gate.compressed? = some part) : part.Reduced p := by
  cases gate with
  | commit | decommit => cases hpart
  | accumulate => exact AccumulateGate.Reduced.output h part hpart

abbrev Desk.CanonicalCheck (p : Modulus) : Desk Unit → Prop :=
  Desk.Mannered (.canonical p) Phase.IsMacCheck fun ledger _ => ledger.Reduced p

abbrev Bench.CanonicalCheck (p : Modulus) : Bench CheckGate Unit → Prop :=
  Bench.Mannered (.canonical p) Phase.IsMacCheck (fun ledger _ => ledger.Reduced p) (CheckGate.Reduced p)

variable {me : Party}

namespace CommitGate

theorem upholds_collect (own : Commitment) (parties : List PartyId) :
    (collect me own parties).Upholds (.canonical me.modulus) (Desk.CanonicalCheck me.modulus)
      fun _ => True := by
  induction parties with
  | nil => exact .pure trivial
  | cons party rest ih =>
    unfold collect
    split
    · exact ih.bind fun _ _ => .pure trivial
    · exact (Desk.upholds_receive party).bind fun _ _ =>
        (Program.Upholds.ofExcept fun _ _ => trivial).bind fun _ _ => ih.bind fun _ _ => .pure trivial

theorem upholds_evaluate (gate : CommitGate) (round : Nat) :
    (gate.evaluate me round).Upholds (.canonical me.modulus) (Desk.CanonicalCheck me.modulus)
      fun _ => True := by
  unfold evaluate
  split
  · exact (Desk.upholds_broadcast fun _ => Payload.canonical_digest gate.commitment).bind
      fun _ _ => .pure trivial
  · exact (upholds_collect gate.commitment _).bind fun _ _ => .pure trivial

end CommitGate

theorem DecommitGate.upholds_evaluate {gate : DecommitGate} (h : gate.Reduced me.modulus) (round : Nat) :
    (gate.evaluate me round).Upholds (.canonical me.modulus) (Desk.CanonicalCheck me.modulus)
      fun result => result.1.Reduced me.modulus := by
  unfold evaluate
  split
  · exact (Desk.upholds_broadcast fun _ => Payload.canonical_reveal h.value gate.nonce).bind
      fun _ _ => .pure h
  · have hread : ∀ (peer : PartyId) (payload : Payload) (value : Element),
        openPeer me.modulus gate.commitments peer payload = .ok value → me.modulus.Reduced value := by
      intro peer payload value hvalue
      obtain ⟨_, -, hlt, -⟩ := openPeer_eq_ok_iff.mp hvalue
      exact Modulus.reduced_iff.mpr hlt
    refine (Desk.upholds_gather hread me.peers h.value).bind fun sum hsum =>
      .pure ⟨h.value, fun _ hmem => ?_⟩
    obtain rfl := Option.mem_some.mp hmem
    exact hsum

theorem AccumulateGate.Reduced.evaluate {gate : AccumulateGate} (h : gate.Reduced me.modulus) :
    (gate.evaluate me).Reduced me.modulus where
  records := h.records
  combiner := h.combiner
  output _ houtput := by
    obtain rfl := Option.mem_some.mp houtput
    exact reduced_compress h.combiner (Modulus.reduced_iff.mpr me.keyShare_lt) h.records

theorem CheckGate.upholds_evaluate {gate : CheckGate} (h : gate.Reduced me.modulus) (round : Nat) :
    (gate.evaluate me round).Upholds (.canonical me.modulus) (Desk.CanonicalCheck me.modulus)
      fun result => result.1.Reduced me.modulus := by
  cases gate with
  | commit gate => exact (gate.upholds_evaluate round).bind fun _ _ => .pure trivial
  | decommit => exact (DecommitGate.upholds_evaluate h round).bind fun _ hresult => .pure hresult
  | accumulate => exact .pure (AccumulateGate.Reduced.evaluate h)

/-! ## The stages of a check -/

/-- The elements of a check are reduced, and it works under the modulus unless it has nothing to do. -/
structure MacCheck.Canonical (p : Modulus) (check : MacCheck) : Prop where
  modulus_eq : check.stage ≠ .verified → check.modulus = p
  records : ∀ record ∈ check.records, record.Reduced p
  contribution : ∀ own ∈ check.contribution, p.Reduced own.1
  combiner : p.Reduced check.combiner
  checkValue : p.Reduced check.checkValue

namespace MacCheck

variable {check : MacCheck} {gates : List CheckGate}

theorem canonical_start {records : List Record} (h : ∀ record ∈ records, record.Reduced p)
    (number : UInt64) (config : Config) : (start number records p config).Canonical p where
  modulus_eq _ := rfl
  records := h
  contribution := nofun
  combiner := Modulus.reduced_zero
  checkValue := Modulus.reduced_zero

theorem canonical_default : (default : MacCheck).Canonical p where
  modulus_eq hstage := absurd rfl hstage
  records := nofun
  contribution := nofun
  combiner := Modulus.reduced_zero
  checkValue := Modulus.reduced_zero

/-- What a check hands out is reduced, and what it is left with. -/
structure HandsReduced (p : Modulus) (handed : Except Error (List CheckGate) × MacCheck) : Prop where
  check : handed.2.Canonical p
  gates : ∀ gates, handed.1 = .ok gates → ∀ gate ∈ gates, gate.Reduced p

namespace Canonical

theorem commitGate (h : check.Canonical p) {value : Element} (hvalue : p.Reduced value)
    {source source' : Source} {gate : CheckGate} {check' : MacCheck}
    (hcommit : check.commitGate value source = some ((gate, check'), source')) :
    check'.Canonical p ∧ gate.Reduced p := by
  obtain ⟨nonce, between, -, hcommit⟩ := Draw.bind_eq_some_iff.mp hcommit
  cases hcommit
  refine ⟨{ h with contribution := fun own hown => ?_ }, trivial⟩
  obtain rfl := Option.mem_some.mp hown
  exact hvalue

theorem decommitGate (h : check.Canonical p) {gate : CheckGate} (hgate : check.decommitGate = .ok gate) :
    gate.Reduced p := by
  unfold MacCheck.decommitGate at hgate
  split at hgate
  · cases hgate
  · next value nonce hcontribution =>
    split at hgate
    · cases hgate
    · cases hgate
      exact ⟨h.contribution _ hcontribution, nofun⟩

theorem accumulateFrom (h : check.Canonical p) (count place : Nat) :
    ∀ gate ∈ (check.accumulateFrom count place).1, gate.Reduced p := by
  induction count generalizing place with
  | zero => exact List.forall_mem_nil _
  | succ count ih =>
    unfold MacCheck.accumulateFrom
    split
    · refine List.forall_mem_cons.mpr
        ⟨⟨fun record hrecord => ?_, h.combiner, fun _ houtput => ?_⟩, ih _⟩
      · exact h.records record (List.mem_of_mem_drop (List.mem_of_mem_take hrecord))
      · cases houtput
    · exact List.forall_mem_nil _

theorem handOut (h : check.Canonical p) (hgates : ∀ gate ∈ gates, gate.Reduced p) :
    HandsReduced p (check.handOut gates) := by
  refine ⟨{ h with }, fun slice hslice => ?_⟩
  cases hslice
  exact hgates

theorem refuse (h : check.Canonical p) (error : Error) : HandsReduced p (.error error, check) := by
  refine ⟨h, fun slice hslice => ?_⟩
  cases hslice

theorem handOut_commitGate (h : check.Canonical p) {value : Element} (hvalue : p.Reduced value)
    {source source' : Source} {handed : Except Error (List CheckGate) × MacCheck}
    (hslice : (check.commitGate value >>= fun made => pure (made.2.handOut [made.1])) source =
      some (handed, source')) : HandsReduced p handed := by
  obtain ⟨⟨gate, next⟩, between, hcommit, hslice⟩ := Draw.bind_eq_some_iff.mp hslice
  obtain ⟨hnext, hgate⟩ := h.commitGate hvalue hcommit
  cases hslice
  exact hnext.handOut (List.forall_mem_singleton.mpr hgate)

theorem slice (h : check.Canonical p) {source source' : Source}
    {handed : Except Error (List CheckGate) × MacCheck}
    (hslice : check.slice source = some (handed, source')) : HandsReduced p handed := by
  unfold MacCheck.slice at hslice
  cases hstage : check.stage with
  | idle | verified | failed =>
    simp only [hstage] at hslice
    cases hslice
    exact h.handOut (List.forall_mem_nil _)
  | awaitingCombiner =>
    cases hcommitments : check.commitments with
    | none =>
      simp only [hstage, hcommitments] at hslice
      obtain ⟨value, between, hdraw, hslice⟩ := Draw.bind_eq_some_iff.mp hslice
      rw [h.modulus_eq (by simp [hstage])] at hdraw
      exact h.handOut_commitGate (Modulus.reduced_draw hdraw) hslice
    | some commitments =>
      simp only [hstage, hcommitments] at hslice
      cases hslice
      split
      · next hgate => exact h.handOut (List.forall_mem_singleton.mpr (h.decommitGate hgate))
      · exact h.refuse _
  | awaitingOpen =>
    simp only [hstage] at hslice
    cases hslice
    split
    · next hgate => exact h.handOut (List.forall_mem_singleton.mpr (h.decommitGate hgate))
    · exact h.refuse _
  | awaitingCommit =>
    simp only [hstage] at hslice
    exact h.handOut_commitGate h.checkValue hslice
  | compressing =>
    simp only [hstage] at hslice
    cases hslice
    have hmoved : check.accumulateSlice.2.Canonical p := { h with }
    exact hmoved.handOut (h.accumulateFrom _ _)

theorem nextSlice (h : check.Canonical p) {source source' : Source}
    {handed : Except Error (List CheckGate) × MacCheck}
    (hnext : check.nextSlice source = some (handed, source')) : HandsReduced p handed := by
  unfold MacCheck.nextSlice at hnext
  split at hnext
  · cases hnext
    exact h.refuse _
  split at hnext
  · next hstage =>
    have hstart : MacCheck.Canonical p { check with stage := .awaitingCombiner } :=
      { h with modulus_eq := fun _ => h.modulus_eq (by simp [hstage]) }
    exact hstart.slice hnext
  · exact h.slice hnext

theorem foldChunks (h : check.Canonical p) (hmodulus : check.modulus = p)
    (hgates : ∀ gate ∈ gates, gate.Reduced p) :
    (MacCheck.foldChunks gates check).2.Canonical p ∧
      (MacCheck.foldChunks gates check).2.modulus = p := by
  induction gates generalizing check with
  | nil => exact ⟨h, hmodulus⟩
  | cons gate gates ih =>
    obtain ⟨hgate, hgates⟩ := List.forall_mem_cons.mp hgates
    unfold MacCheck.foldChunks MacCheck.foldChunk
    cases hpart : gate.compressed? with
    | none => exact ⟨h, hmodulus⟩
    | some part =>
      subst hmodulus
      obtain ⟨hvalue, hpower⟩ := hgate.compressed hpart
      have hfolded : MacCheck.Canonical check.modulus { check with
          checkValue := check.modulus.add (check.modulus.mul check.checkValue part.power) part.value } :=
        { h with checkValue := Modulus.reduced_add (Modulus.reduced_mul h.checkValue hpower) hvalue }
      exact ih hfolded rfl hgates

theorem takeCommitments (h : check.Canonical p) {stage : Stage} (hmodulus : check.modulus = p) :
    (check.takeCommitments gates stage).2.Canonical p := by
  unfold MacCheck.takeCommitments
  split
  · exact h
  · exact { h with modulus_eq := fun _ => hmodulus }

theorem endExchange (h : check.Canonical p) (hmodulus : check.modulus = p) (stage : Stage) :
    (check.endExchange stage).Canonical p where
  modulus_eq _ := hmodulus
  records := h.records
  contribution := nofun
  combiner := h.combiner
  checkValue := h.checkValue

theorem reduced_decommittedSum (hgates : ∀ gate ∈ gates, gate.Reduced p) {sum : Element}
    (hresult : soleResult CheckGate.decommittedSum gates = .ok sum) : p.Reduced sum := by
  obtain ⟨gate, rfl, hsum⟩ := MacCheck.eq_decommit_of_soleResult hresult
  exact DecommitGate.Reduced.sum (hgates _ (List.mem_singleton_self _)) sum hsum

theorem advance (h : check.Canonical p) (hgates : ∀ gate ∈ gates, gate.Reduced p) :
    (check.advance gates).2.Canonical p := by
  unfold MacCheck.advance
  cases hstage : check.stage with
  | idle | verified | failed => exact h
  | awaitingCombiner =>
    have hmodulus : check.modulus = p := h.modulus_eq (by simp [hstage])
    dsimp only
    split
    · exact h.takeCommitments hmodulus
    · split
      · exact h
      · next combiner hcombiner =>
        exact { h.endExchange hmodulus .compressing with
          combiner := reduced_decommittedSum hgates hcombiner }
  | compressing =>
    obtain ⟨hfolded, hmodulus⟩ := h.foldChunks (h.modulus_eq (by simp [hstage])) hgates
    dsimp only
    split
    · next hfold =>
      rw [hfold] at hfolded
      exact hfolded
    · next hfold =>
      rw [hfold] at hfolded hmodulus
      split
      · exact { hfolded with modulus_eq := fun _ => hmodulus, records := nofun }
      · exact hfolded
  | awaitingCommit => exact h.takeCommitments (h.modulus_eq (by simp [hstage]))
  | awaitingOpen =>
    have hmodulus : check.modulus = p := h.modulus_eq (by simp [hstage])
    dsimp only
    split
    · exact h
    · split
      · exact h.endExchange hmodulus .verified
      · exact h.endExchange hmodulus .failed

theorem absorb (h : check.Canonical p) (hgates : ∀ gate ∈ gates, gate.Reduced p) :
    (check.absorb gates).2.Canonical p := by
  unfold MacCheck.absorb
  split
  · have hback : MacCheck.Canonical p { check with outstanding := false } := { h with }
    exact hback.advance hgates
  · exact h

end Canonical
end MacCheck

/-! ## The run of a check -/

structure Verifier.Canonical (p : Modulus) (verifier : Verifier) : Prop where
  check : verifier.check.Canonical p
  bench : verifier.bench.CanonicalCheck p

namespace Verifier

theorem canonical_idle (generator : Source) : (idle generator).Canonical p where
  check := MacCheck.canonical_default
  bench := ⟨nofun, @RoundBuffer.mannered_start _ _ (.macCheck 0) trivial 0, nofun⟩

theorem upholds_nextSlice : nextSlice.Upholds (.canonical p) (Canonical p) fun gates =>
    ∀ gate ∈ gates, gate.Reduced p := by
  refine .get_bind fun verifier hverifier => ?_
  split
  · exact .never
  · next result check generator hnext =>
    obtain ⟨hcheck, hgates⟩ := hverifier.check.nextSlice hnext
    exact (Program.Upholds.set ⟨hcheck, hverifier.bench⟩).bind fun _ _ => .ofExcept hgates

theorem upholds_absorb {gates : List CheckGate} (hgates : ∀ gate ∈ gates, gate.Reduced p) :
    (absorb gates).Upholds (.canonical p) (Canonical p) fun _ => True := by
  refine .get_bind fun verifier hverifier => ?_
  have hcheck := hverifier.check.absorb hgates
  exact (Program.Upholds.set ⟨hcheck, hverifier.bench⟩).bind fun _ _ => .ofExcept fun _ _ => trivial

theorem upholds_evaluate :
    (evaluate me).Upholds (.canonical me.modulus) (Canonical me.modulus) fun _ => True := by
  have hprocess := @Bench.upholds_process (.canonical me.modulus) Phase.IsMacCheck me Unit
    (fun ledger _ => ledger.Reduced me.modulus) CheckGate (CheckGate.Reduced me.modulus) _
    (fun _ _ _ => trivial) fun round _ hgate => CheckGate.upholds_evaluate hgate round
  exact hprocess.zoom (fun _ h => h.bench) fun _ _ h hbench => ⟨h.check, hbench⟩

theorem upholds_runSlice :
    (runSlice me).Upholds (.canonical me.modulus) (Canonical me.modulus) fun _ => True := by
  refine upholds_nextSlice.bind fun gates hgates =>
    (Program.Upholds.modify fun verifier h => ?_).bind fun _ _ =>
      upholds_evaluate.bind fun _ _ => .get_bind fun verifier h => upholds_absorb fun gate hgate => ?_
  · exact ⟨h.check, .load h.bench.desk.keeps hgates trivial _⟩
  · obtain ⟨slot, hslot, rfl⟩ := List.mem_map.mp hgate
    exact h.bench.slots slot hslot

/-- A check keeps to canonical messages and reduced elements. -/
theorem upholds_execute :
    (execute me).Upholds (.canonical me.modulus) (Canonical me.modulus) fun _ => True := by
  have hslices : ∀ limit, (runSlices me limit).Upholds (.canonical me.modulus) (Canonical me.modulus)
      fun _ => True := by
    intro limit
    induction limit with
    | zero => exact .never
    | succ limit ih =>
      refine .get_bind fun verifier _ => ?_
      split
      · exact upholds_runSlice.bind fun _ _ => ih
      · exact .pure trivial
  exact .get_bind fun _ _ => hslices _

end Verifier
end AuthenticatedMpc
