import AuthenticatedMpc.MacCheck.Machine
import AuthenticatedMpc.Proofs.MacCheck.ClosedForm

/-!
# The stages of a MAC check, one by one

What a check hands out in each of its stages, and where it stands when that comes back.
-/

namespace AuthenticatedMpc
namespace MacCheck

variable {check : MacCheck} {source source₁ source₂ : Source} {own : Element} {nonce : Nonce}

/-! ## Slices -/

theorem commitGate_eq (hnonce : Nonce.draw source₁ = some (nonce, source₂)) :
    check.commitGate own source₁ = some ((.commit ⟨.commit own nonce, []⟩,
      { check with contribution := some (own, nonce) }), source₂) := by
  simp [commitGate, bind, StateT.bind, hnonce]
  rfl

/-- The first slice commits to a drawn element. -/
theorem nextSlice_idle (hstage : check.stage = .idle) (hcommitments : check.commitments = none)
    (hout : check.outstanding = false) (hdraw : check.modulus.draw source = some (own, source₁))
    (hnonce : Nonce.draw source₁ = some (nonce, source₂)) :
    check.nextSlice source = some ((.ok [.commit ⟨.commit own nonce, []⟩],
      { check with
        stage := .awaitingCombiner
        contribution := some (own, nonce)
        outstanding := true }), source₂) := by
  unfold nextSlice slice
  rw [if_neg (by simp [hout]), if_pos hstage]
  simp only [hcommitments]
  simp [bind, StateT.bind, hdraw, commitGate_eq hnonce]
  rfl

theorem nextSlice_idle_eq_none (hstage : check.stage = .idle)
    (hcommitments : check.commitments = none) (hout : check.outstanding = false)
    (hdraw : check.modulus.draw source = none) : check.nextSlice source = none := by
  unfold nextSlice slice
  rw [if_neg (by simp [hout]), if_pos hstage]
  simp only [hcommitments]
  simp [bind, StateT.bind, hdraw]

theorem nextSlice_eq_slice (hstage : check.stage ≠ .idle) (hout : check.outstanding = false) :
    check.nextSlice = check.slice := by
  rw [nextSlice, if_neg (by simp [hout]), if_neg hstage]

theorem decommitGate_eq {commitments : List Commitment}
    (hcontribution : check.contribution = some (own, nonce))
    (hcommitments : check.commitments = some commitments) :
    check.decommitGate = .ok (.decommit ⟨own, nonce, commitments, none⟩) := by
  unfold decommitGate
  rw [hcontribution]
  simp only [hcommitments]

theorem nextSlice_reveal {commitments : List Commitment}
    (hstage : check.stage = .awaitingCombiner ∨ check.stage = .awaitingOpen)
    (hcontribution : check.contribution = some (own, nonce))
    (hcommitments : check.commitments = some commitments) (hout : check.outstanding = false) :
    check.nextSlice source = some ((.ok [.decommit ⟨own, nonce, commitments, none⟩],
      { check with outstanding := true }), source) := by
  have hslice : check.slice =
      pure (check.handOut [.decommit ⟨own, nonce, commitments, none⟩]) := by
    unfold slice
    rcases hstage with hstage | hstage <;>
      simp only [hstage, hcommitments, decommitGate_eq hcontribution hcommitments]
  have hidle : check.stage ≠ .idle := by rcases hstage with hstage | hstage <;> simp [hstage]
  rw [nextSlice_eq_slice hidle hout, hslice]
  rfl

theorem nextSlice_awaitingCommit (hstage : check.stage = .awaitingCommit)
    (hout : check.outstanding = false) (hnonce : Nonce.draw source₁ = some (nonce, source₂)) :
    check.nextSlice source₁ = some ((.ok [.commit ⟨.commit check.checkValue nonce, []⟩],
      { check with
        contribution := some (check.checkValue, nonce)
        outstanding := true }), source₂) := by
  have hslice : check.slice = check.commitGate check.checkValue >>= fun result =>
      pure (result.2.handOut [result.1]) := by
    unfold slice
    simp only [hstage]
  rw [nextSlice_eq_slice (by simp [hstage]) hout, hslice]
  simp [bind, StateT.bind, commitGate_eq hnonce]
  rfl

/-! ## Slices that come back -/

theorem soleResult_commitments {gate : CommitGate} (hne : gate.commitments ≠ []) :
    soleResult CheckGate.commitments [.commit gate] = .ok gate.commitments := by
  have hresult : CheckGate.commitments (.commit gate) = .ok gate.commitments := by
    simp [CheckGate.commitments, hne]
  rw [soleResult, CheckGate.single]
  exact congrArg (Except.mapError _) hresult

theorem soleResult_decommittedSum {gate : DecommitGate} {sum : Element}
    (hsum : gate.sum = some sum) :
    soleResult CheckGate.decommittedSum [.decommit gate] = .ok sum := by
  have hresult : CheckGate.decommittedSum (.decommit gate) = .ok sum := by
    simp [CheckGate.decommittedSum, hsum]
  rw [soleResult, CheckGate.single]
  exact congrArg (Except.mapError _) hresult

theorem absorb_commitments {gate : CommitGate} (hout : check.outstanding = true)
    (hne : gate.commitments ≠ []) (hstage : check.stage = .awaitingCombiner)
    (hcommitments : check.commitments = none) :
    check.absorb [.commit gate] =
      (.ok (), { check with commitments := some gate.commitments, outstanding := false }) := by
  unfold absorb advance
  simp only [if_pos hout, hstage, hcommitments]
  simp [takeCommitments, soleResult_commitments hne]

theorem absorb_combiner {gate : DecommitGate} {sum : Element} {commitments : List Commitment}
    (hout : check.outstanding = true) (hsum : gate.sum = some sum)
    (hstage : check.stage = .awaitingCombiner) (hcommitments : check.commitments = some commitments) :
    check.absorb [.decommit gate] =
      (.ok (), { check with
        stage := .compressing
        combiner := sum
        contribution := none
        commitments := none
        outstanding := false }) := by
  unfold absorb advance
  simp only [if_pos hout, hstage, hcommitments]
  simp [soleResult_decommittedSum hsum, endExchange]

theorem absorb_checkCommitments {gate : CommitGate} (hout : check.outstanding = true)
    (hne : gate.commitments ≠ []) (hstage : check.stage = .awaitingCommit) :
    check.absorb [.commit gate] =
      (.ok (), { check with
        stage := .awaitingOpen
        commitments := some gate.commitments
        outstanding := false }) := by
  unfold absorb advance
  simp only [if_pos hout, hstage]
  simp [takeCommitments, soleResult_commitments hne]

theorem absorb_checkValues {gate : DecommitGate} {sum : Element}
    (hout : check.outstanding = true) (hsum : gate.sum = some sum)
    (hstage : check.stage = .awaitingOpen) :
    check.absorb [.decommit gate] =
      (if sum.isZero then .ok () else .error (.macCheckFailed check.number),
        { check with
          stage := if sum.isZero then .verified else .failed
          contribution := none
          commitments := none
          outstanding := false }) := by
  unfold absorb advance
  simp only [if_pos hout, hstage]
  simp only [soleResult_decommittedSum hsum, endExchange]
  cases sum.isZero <;> rfl

/-! ## Compressing -/

theorem exists_accumulateFrom (count place : Nat) :
    ∃ parts : List AccumulateGate,
      (check.accumulateFrom count place).1 = parts.map .accumulate := by
  induction count generalizing place with
  | zero => exact ⟨[], rfl⟩
  | succ count ih =>
    unfold accumulateFrom
    split
    · obtain ⟨parts, hparts⟩ := ih (min (place + check.chunkSize) check.records.length)
      exact ⟨⟨check.chunkFrom place, check.combiner, none⟩ :: parts, congrArg (_ :: ·) hparts⟩
    · exact ⟨[], rfl⟩

theorem accumulateFrom_le {place : Nat} (hplace : place ≤ check.records.length) (count : Nat) :
    place ≤ (check.accumulateFrom count place).2 ∧
      (check.accumulateFrom count place).2 ≤ check.records.length := by
  induction count generalizing place with
  | zero => exact ⟨le_rfl, hplace⟩
  | succ count ih =>
    unfold accumulateFrom
    split
    · next hlt =>
      have h := ih (min_le_right (place + check.chunkSize) check.records.length)
      exact ⟨(le_min (by omega) hplace).trans h.1, h.2⟩
    · exact ⟨le_rfl, hplace⟩

theorem lt_accumulateFrom {place count : Nat} (hplace : place < check.records.length)
    (hcount : 0 < count) (hchunk : 0 < check.chunkSize) :
    place < (check.accumulateFrom count place).2 ∧
      (check.accumulateFrom count place).1 ≠ [] := by
  obtain ⟨count, rfl⟩ := Nat.exists_eq_add_one.mpr hcount
  unfold accumulateFrom
  rw [if_pos hplace]
  have h := accumulateFrom_le (min_le_right (place + check.chunkSize) check.records.length) count
  exact ⟨(lt_min (by omega) hplace).trans_le h.1, List.cons_ne_nil _ _⟩

theorem take_append_chunkFrom (check : MacCheck) (place : Nat) :
    check.records.take (min (place + check.chunkSize) check.records.length) =
      check.records.take place ++ check.chunkFrom place := by
  rw [chunkFrom, ← List.take_add, List.take_eq_take_iff]
  omega

/-- If everything is reduced, the value is that of the records before the place. -/
def CoversTo (me : Party) (check : MacCheck) (place : Nat) (value : Element) : Prop :=
  me.modulus.Reduced check.combiner → (∀ record ∈ check.records, record.Reduced me.modulus) →
    value = (compress me.modulus check.combiner me.keyShare (check.records.take place)).value

/-- The gates of a slice, folded into the value of the records before them, give the value of the
records up to their end. -/
theorem foldChunks_accumulateFrom {me : Party} {place : Nat} (count : Nat) {folding : MacCheck}
    (hmodulus : folding.modulus = me.modulus) (hvalue : check.CoversTo me place folding.checkValue)
    {parts : List AccumulateGate}
    (hparts : (check.accumulateFrom count place).1 = parts.map .accumulate) :
    ∃ value, check.CoversTo me (check.accumulateFrom count place).2 value ∧
      foldChunks (parts.map fun part => .accumulate (part.evaluate me)) folding =
        (.ok (), { folding with checkValue := value }) := by
  have hkey : me.modulus.Reduced me.keyShare := Modulus.reduced_iff.mpr me.keyShare_lt
  induction count generalizing place folding parts with
  | zero =>
    obtain rfl := List.map_eq_nil_iff.mp hparts.symm
    exact ⟨_, hvalue, rfl⟩
  | succ count ih =>
    unfold accumulateFrom at hparts ⊢
    by_cases hlt : place < check.records.length
    · simp only [if_pos hlt] at hparts ⊢
      obtain ⟨part, parts, rfl, hpart, hrest⟩ := List.map_eq_cons_iff.mp hparts.symm
      cases hpart
      let chunk := compress me.modulus check.combiner me.keyShare (check.chunkFrom place)
      let next := me.modulus.add (me.modulus.mul folding.checkValue chunk.power) chunk.value
      have hfold : folding.foldChunk (.accumulate (AccumulateGate.evaluate me
          ⟨check.chunkFrom place, check.combiner, none⟩)) =
            .ok { folding with checkValue := next } := by
        simp only [foldChunk, CheckGate.compressed?, AccumulateGate.evaluate, hmodulus, next, chunk]
      have hnext : check.CoversTo me (min (place + check.chunkSize) check.records.length) next := by
        intro hcombiner hrecords
        have hchunk : ∀ record ∈ check.chunkFrom place, record.Reduced me.modulus := fun r hr =>
          hrecords r (List.drop_subset _ _ (List.take_subset _ _ hr))
        have hfront : ∀ record ∈ check.records.take place, record.Reduced me.modulus := fun r hr =>
          hrecords r (List.take_subset _ _ hr)
        rw [take_append_chunkFrom, compress_append hcombiner hkey hfront hchunk,
          ← hvalue hcombiner hrecords]
      obtain ⟨value, hcovers, hrest⟩ := @ih (min (place + check.chunkSize) check.records.length)
        { folding with checkValue := next } hmodulus hnext _ hrest.symm
      exact ⟨value, hcovers, by simp only [List.map_cons, foldChunks, hfold, hrest]⟩
    · simp only [if_neg hlt] at hparts ⊢
      obtain rfl := List.map_eq_nil_iff.mp hparts.symm
      exact ⟨_, hvalue, rfl⟩

/-- The gates of the next slice of the compressing stage, and the place after them. -/
def nextParts (check : MacCheck) : List CheckGate × Nat :=
  check.accumulateFrom (min check.sliceSize check.records.length) check.nextRecord

theorem nextSlice_compressing (hstage : check.stage = .compressing)
    (hout : check.outstanding = false) (hgates : check.nextParts.1 ≠ []) :
    check.nextSlice source = some ((.ok check.nextParts.1,
      { check with nextRecord := check.nextParts.2, outstanding := true }), source) := by
  have hslice : check.slice =
      pure (check.accumulateSlice.2.handOut check.accumulateSlice.1) := by
    unfold slice
    simp only [hstage]
  rw [nextSlice_eq_slice (by simp [hstage]) hout, hslice]
  have hempty : check.nextParts.1.isEmpty = false := by simpa using hgates
  change some ((Except.ok check.nextParts.1, { check with
    nextRecord := check.nextParts.2
    outstanding := !check.nextParts.1.isEmpty }), source) = _
  rw [hempty, Bool.not_false]

theorem advance_compressing {gates : List CheckGate} {folded : MacCheck}
    (hstage : check.stage = .compressing) (hfold : foldChunks gates check = (.ok (), folded)) :
    check.advance gates = (.ok (),
      if folded.records.length ≤ folded.nextRecord then
        { folded with records := [], stage := .awaitingCommit }
      else folded) := by
  unfold advance
  simp only [hstage, hfold]
  split <;> rfl

/-- A slice of the compressing stage is folded in; after the last record the records are dropped. -/
theorem absorb_parts {me : Party} (hstage : check.stage = .compressing)
    (hmodulus : check.modulus = me.modulus)
    (hvalue : check.CoversTo me check.nextRecord check.checkValue)
    {parts : List AccumulateGate} (hparts : check.nextParts.1 = parts.map .accumulate) :
    ∃ value, check.CoversTo me check.nextParts.2 value ∧
      absorb { check with nextRecord := check.nextParts.2, outstanding := true }
          (parts.map fun part => .accumulate (part.evaluate me)) =
        (.ok (),
          if check.records.length ≤ check.nextParts.2 then
            { check with
              stage := .awaitingCommit
              records := []
              nextRecord := check.nextParts.2
              checkValue := value
              outstanding := false }
          else
            { check with
              nextRecord := check.nextParts.2
              checkValue := value
              outstanding := false }) := by
  obtain ⟨value, hcovers, hfold⟩ := @foldChunks_accumulateFrom check me check.nextRecord
    (min check.sliceSize check.records.length)
    { check with nextRecord := check.nextParts.2, outstanding := false } hmodulus hvalue parts
    hparts
  refine ⟨value, hcovers, ?_⟩
  rw [absorb, if_pos rfl]
  refine (advance_compressing ?_ hfold).trans rfl
  exact hstage

end MacCheck
end AuthenticatedMpc
