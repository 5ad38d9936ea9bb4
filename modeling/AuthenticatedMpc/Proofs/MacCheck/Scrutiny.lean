import AuthenticatedMpc.Proofs.MacCheck.Turns
import AuthenticatedMpc.Proofs.MacCheck.Vigilance
import AuthenticatedMpc.Proofs.Rounds.Scrutiny

/-!
# What is wrong with a MAC check

The gates of a check object to what is no commitment and to what does not open one. The check itself
fails when the revealed check values do not add up to zero. It fails for nothing else: whatever its
peers do, it never takes a step out of turn.
-/

namespace AuthenticatedMpc

def readCommitment (_ : PartyId) (payload : Payload) : Except Error Commitment :=
  (Commitment.ofBytes payload).mapError .encoding

def CheckGate.scrutiny (me : Party) : Scrutiny CheckGate Unit where
  refusal? _ _ _ := none
  objections? round
    | .commit _ => answersOf readCommitment round
    | .decommit gate => answersOf (DecommitGate.openPeer me.modulus gate.commitments) round
    | .accumulate _ => none

section Gates

variable {W : Type} {me : Party} {phase : Phase} {round : Nat} {visit : Option Visit}
  {judge : Judge (Desk W)} {desk : Desk W} {inv : Desk W → Prop} {error : Error}

theorem CommitGate.exists_collect_eq (own : Commitment) (parties : List PartyId) :
    ∃ place : List Commitment → List Commitment,
      (collect me own parties : Program (Desk W) (List Commitment)) = (do
        let values ← (RoundBuffer.hearAll me.id readCommitment
          (parties.filter (· != me.id))).zoom Desk.roundsPart
        pure (place values)) := by
  induction parties with
  | nil => exact ⟨id, rfl⟩
  | cons party rest ih =>
    obtain ⟨place, hrest⟩ := ih
    by_cases hparty : party = me.id
    · refine ⟨fun values => own :: place values, ?_⟩
      rw [collect, if_pos hparty, hrest, List.filter_cons_of_neg (by simp [hparty])]
      simp only [bind_assoc, pure_bind]
    · refine ⟨fun values => values.take 1 ++ place (values.drop 1), ?_⟩
      rw [collect, if_neg hparty, hrest, List.filter_cons_of_pos (by simp [hparty]),
        Desk.hearAll_cons_zoom]
      simp only [bind_assoc, pure_bind]
      rfl

theorem CommitGate.exists_evaluate_eq (gate : CommitGate) :
    ∃ place : List Commitment → List Commitment,
      (gate.evaluate me round : Program (Desk W) (CommitGate × Status)) =
        (if round = 0 then do
          Desk.broadcast me gate.commitment.digest
          pure (gate, Status.moreRounds)
        else do
          let values ← (RoundBuffer.hearAll me.id readCommitment me.peers).zoom Desk.roundsPart
          pure ({ gate with commitments := place values }, .done)) := by
  obtain ⟨place, hplace⟩ :=
    @exists_collect_eq W me gate.commitment (List.range me.parties)
  refine ⟨place, ?_⟩
  unfold evaluate
  rw [hplace, bind_assoc]
  rfl

theorem DecommitGate.evaluate_eq (gate : DecommitGate) :
    (gate.evaluate me round : Program (Desk W) (DecommitGate × Status)) =
      (if round = 0 then do
        Desk.broadcast me (Commitment.reveal gate.value gate.nonce)
        pure (gate, Status.moreRounds)
      else do
        let values ← (RoundBuffer.hearAll me.id (openPeer me.modulus gate.commitments)
          me.peers).zoom Desk.roundsPart
        pure ({ gate with sum := some (values.foldl me.modulus.add gate.value) }, .done)) := by
  unfold evaluate
  rw [Desk.gather_eq, bind_assoc]
  rfl

/-- The gates of a check fail for what the scrutiny says and for nothing else. -/
theorem CheckGate.governs (me : Party) : (scrutiny me).Governs me where
  heeds := by
    intro round gate phase visit desk judge h htidy hfine
    cases gate with
    | commit gate =>
      obtain ⟨place, hplace⟩ := @CommitGate.exists_evaluate_eq Unit me round gate
      have hgate : (gate.evaluate me round).Heeds judge
          (fun _ now desk' => now = visit ∧ desk'.rounds.Tidy me phase) visit desk := by
        rw [hplace]
        exact h.heeds_exchange htidy hfine (fun _ hrounds => ⟨rfl, hrounds⟩)
          fun _ _ hrounds => ⟨rfl, hrounds⟩
      exact hgate.bind fun _ _ _ => id
    | decommit gate =>
      have hgate : (gate.evaluate me round).Heeds judge
          (fun _ now desk' => now = visit ∧ desk'.rounds.Tidy me phase) visit desk := by
        rw [DecommitGate.evaluate_eq]
        exact h.heeds_exchange htidy hfine (fun _ hrounds => ⟨rfl, hrounds⟩)
          fun _ _ hrounds => ⟨rfl, hrounds⟩
      exact hgate.bind fun _ _ _ => id
    | accumulate gate => exact ⟨rfl, htidy⟩
  givesUp := by
    intro round gate phase desk error inv hinv htidy hfault
    cases gate with
    | commit gate =>
      obtain ⟨place, hplace⟩ := @CommitGate.exists_evaluate_eq Unit me round gate
      have hgate : (gate.evaluate me round).GivesUp inv error desk := by
        rw [hplace]
        exact givesUp_exchange hinv htidy hfault
      exact hgate.bind
    | decommit gate =>
      have hgate : (gate.evaluate me round).GivesUp inv error desk := by
        rw [DecommitGate.evaluate_eq]
        exact givesUp_exchange hinv htidy hfault
      exact hgate.bind
    | accumulate gate => cases hfault

end Gates

/-! ## The verdict -/

/-- What is wrong when a slice is taken back: the revealed check values do not add up to zero. -/
def Verifier.verdict? (before after : Verifier) : Option Error :=
  if before.check.outstanding && !after.check.outstanding then
    match before.check.stage, before.bench.gates with
    | .awaitingOpen, [.decommit gate] =>
      gate.sum.bind fun sum =>
        if sum.isZero then none else some (.macCheckFailed before.check.number)
    | _, _ => none
  else none

/-- What is wrong with a move of a check while one of its gates is in evaluation, or after it. -/
def Verifier.fault? (me : Party) (visit : Visit) (before : Verifier) (move : Move)
    (after : Verifier) : Option Error :=
  (before.bench.fault? (CheckGate.scrutiny me) me visit move after.bench).or
    (match move with
      | .inner none => before.verdict? after
      | _ => none)

def Visit.OfCheck (visit : Option Visit) : Prop :=
  ∃ number, visit.map Visit.phase = some (.macCheck number)

structure Judge.Examines (judge : Judge Verifier) (me : Party) : Prop where
  still : ∀ v bench, judge.still v { v with bench }
  idle : ∀ visit v v', ¬Visit.OfCheck visit → judge.fault? visit v (.inner none) v' = none
  sent : ∀ visit v q packet reply, judge.fault? visit v (.sent q packet reply) v =
    (Move.sent q packet reply).failure?
  judged : ∀ visit number v move v', visit.phase = .macCheck number →
    judge.fault? (some visit) v move v' = move.failure?.or (v.fault? me visit move v')

section Verdicts

variable {me : Party} {number : UInt64} {records : List Record} {config : Config}
  {turns : List Turn} {judge : Judge Verifier} {visit : Option Visit} {v v' : Verifier}
  {check next : MacCheck} {gates : List CheckGate} {outcome : Except Error Unit} {error : Error}

theorem MacCheck.eq_setup_of_soleResult {α : Type} {read : CheckGate → Except GateMisuse α}
    (h : soleResult read gates = .error error) : ∃ cause, error = .setup cause := by
  unfold soleResult at h
  cases hresult : (CheckGate.single gates).bind read with
  | ok => simp [hresult, Except.mapError] at h
  | error misuse =>
    rw [hresult] at h
    cases h
    exact ⟨_, rfl⟩

theorem MacCheck.eq_setup_of_foldChunks
    (h : foldChunks gates check = (.error error, next)) : ∃ cause, error = .setup cause := by
  induction gates generalizing check with
  | nil => cases h
  | cons gate gates ih =>
    unfold foldChunks foldChunk at h
    cases hpart : gate.compressed? with
    | none =>
      rw [hpart] at h
      cases h
      exact ⟨_, rfl⟩
    | some part =>
      rw [hpart] at h
      exact ih h

theorem MacCheck.eq_setup_of_takeCommitments {stage : Stage}
    (h : check.takeCommitments gates stage = (.error error, next)) :
    ∃ cause, error = .setup cause := by
  unfold takeCommitments at h
  cases hresult : soleResult CheckGate.commitments gates with
  | ok =>
    rw [hresult] at h
    cases h
  | error =>
    rw [hresult] at h
    cases h
    exact eq_setup_of_soleResult hresult

theorem MacCheck.eq_decommit_of_soleResult {sum : Element}
    (h : soleResult CheckGate.decommittedSum gates = .ok sum) :
    ∃ gate, gates = [.decommit gate] ∧ gate.sum = some sum := by
  rcases gates with _ | ⟨gate, _ | ⟨other, rest⟩⟩
  · cases h
  · cases gate with
    | commit | accumulate => cases h
    | decommit gate =>
      cases hsum : gate.sum with
      | none => simp [soleResult, CheckGate.single, CheckGate.decommittedSum, Except.bind,
          Except.mapError, hsum] at h
      | some value =>
        rw [soleResult_decommittedSum hsum] at h
        cases h
        exact ⟨gate, rfl, hsum⟩
  · cases h

theorem MacCheck.of_advance_error (h : check.advance gates = (.error error, next)) :
    (∃ cause, error = .setup cause) ∨
      next.outstanding = check.outstanding ∧ check.stage = .awaitingOpen ∧
        error = .macCheckFailed check.number ∧
          ∃ gate sum, gates = [.decommit gate] ∧ gate.sum = some sum ∧ sum.isZero = false := by
  unfold advance at h
  split at h
  · split at h
    · exact .inl (eq_setup_of_takeCommitments h)
    · split at h
      · next hresult =>
        cases h
        exact .inl (eq_setup_of_soleResult hresult)
      · cases h
  · split at h
    · next hfold =>
      cases h
      exact .inl (eq_setup_of_foldChunks hfold)
    · split at h <;> cases h
  · exact .inl (eq_setup_of_takeCommitments h)
  · next hstage =>
    split at h
    · next hresult =>
      cases h
      exact .inl (eq_setup_of_soleResult hresult)
    · next sum hresult =>
      obtain ⟨gate, rfl, hsum⟩ := eq_decommit_of_soleResult hresult
      split at h
      · cases h
      · next hzero =>
        cases h
        exact .inr ⟨rfl, hstage, rfl, gate, sum, rfl, hsum, Bool.eq_false_iff.mpr hzero⟩
  · cases h
  · cases h
  · cases h

theorem Verifier.verdict?_eq_none (h : v'.check.outstanding = v.check.outstanding) :
    v.verdict? v' = none := by
  simp [verdict?, h]

theorem Verifier.verdict?_decommit {gate : DecommitGate} {sum : Element}
    (hout : v.check.outstanding = true) (hback : v'.check.outstanding = false)
    (hstage : v.check.stage = .awaitingOpen) (hgates : v.bench.gates = [.decommit gate])
    (hsum : gate.sum = some sum) :
    v.verdict? v' = if sum.isZero then none else some (.macCheckFailed v.check.number) := by
  simp only [verdict?, hout, hback, hstage, hgates, hsum, Option.bind_some]
  rfl

theorem Verifier.verdict?_absorb (habsorb : v.check.absorb v.bench.gates = (outcome, next))
    (houtcome : outcome = .ok () ∨ outcome = .error (.macCheckFailed number)) :
    v.verdict? { v with check := next } = failureOf outcome := by
  rcases houtcome with rfl | rfl
  · unfold verdict?
    split
    · next hback =>
      have hout : v.check.outstanding = true := (Bool.and_eq_true_iff.mp hback).1
      split
      · next gate hstage hgates =>
        cases hsum : gate.sum with
        | none => rfl
        | some sum =>
          rw [hgates, MacCheck.absorb_checkValues hout hsum hstage] at habsorb
          cases hzero : sum.isZero with
          | true => simp [hzero, failureOf]
          | false => simp [hzero] at habsorb
      · rfl
    · rfl
  · unfold MacCheck.absorb at habsorb
    split at habsorb
    · next hout =>
      rcases MacCheck.of_advance_error habsorb with
        ⟨cause, hcause⟩ | ⟨hback, hstage, hnumber, gate, sum, hgates, hsum, hzero⟩
      · cases hcause
      · cases hnumber
        rw [verdict?_decommit hout hback hstage hgates hsum, hzero]
        rfl
    · cases habsorb

theorem Judge.Examines.silent_eq_none (h : judge.Examines me)
    (hopen : Visit.OfCheck visit → v.bench.desk.rounds.isOpen = true →
      v'.bench.desk.rounds.isOpen = true)
    (hverdict : v.verdict? v' = none) : judge.fault? visit v (.inner none) v' = none := by
  by_cases hvisit : Visit.OfCheck visit
  · obtain ⟨number, hnumber⟩ := hvisit
    obtain ⟨visit, rfl, hphase⟩ := Option.map_eq_some_iff.mp hnumber
    rw [h.judged visit number _ _ _ hphase]
    simp only [Move.failure?, Verifier.fault?, Bench.fault?, hverdict,
      RoundBuffer.closing?_eq_none (hopen ⟨number, hnumber⟩), Option.or_none]
  · exact h.idle _ _ _ hvisit

theorem Judge.Examines.unchanged (h : judge.Examines me) :
    judge.fault? visit v (.inner none) v = none :=
  h.silent_eq_none (fun _ => id) (Verifier.verdict?_eq_none rfl)

theorem Verifier.fault?_bench {visit : Visit} (v : Verifier) (bench bench' : Bench CheckGate Unit)
    (move : Move) : fault? me visit { v with bench } move { v with bench := bench' } =
      bench.fault? (CheckGate.scrutiny me) me visit move bench' := by
  have hverdict : verdict? { v with bench } { v with bench := bench' } = none :=
    verdict?_eq_none rfl
  cases move with
  | inner event =>
    cases event with
    | none => simp only [fault?, hverdict, Option.or_none]
    | some => simp only [fault?, Option.or_none]
  | sent | received | closed => simp only [fault?, Option.or_none]

theorem Judge.Examines.oversees (h : judge.Examines me) (number : UInt64) (v : Verifier) :
    (judge.onPart Verifier.benchPart v).Oversees (CheckGate.scrutiny me) me (.macCheck number) where
  still slots desk rounds := h.still _ ⟨slots, { desk with rounds }⟩
  idle _ _ _ hopen := h.silent_eq_none (fun _ => hopen) (Verifier.verdict?_eq_none rfl)
  sent _ _ _ _ _ := h.sent ..
  judged visit bench move bench' hphase :=
    (h.judged visit number _ _ _ hphase).trans (congrArg _ (v.fault?_bench bench bench' move))

/-! ## Slices -/

/-- The gate in evaluation is the same, or one of a check. -/
def Visit.SinceCheck (visit now : Option Visit) : Prop := now = visit ∨ Visit.OfCheck now

/-- The gates of a check that have been evaluated have left no round open. -/
def Verifier.RoundsClosed (visit : Option Visit) (v : Verifier) : Prop :=
  Visit.OfCheck visit → v.bench.desk.rounds.isOpen = false

theorem CheckGate.IsSlice.ne_nil (h : IsSlice gates) : gates ≠ [] := by
  cases h with
  | commit | decommit => exact List.cons_ne_nil _ _
  | accumulate hne => simpa using hne

theorem MacCheck.outstanding_of_nextSlice {source source' : Source}
    (h : check.nextSlice source = some ((.ok gates, next), source')) :
    check.outstanding = false := by
  unfold nextSlice at h
  split at h
  · cases h
  · next hout => exact Bool.eq_false_iff.mpr hout

theorem Verifier.heeds_absorb (hjudge : judge.Examines me) (hvisit : Visit.OfCheck visit)
    (habsorb : v.check.absorb v.bench.gates = (outcome, next))
    (houtcome : outcome = .ok () ∨ outcome = .error (.macCheckFailed number)) :
    (absorb v.bench.gates).Heeds judge
      (fun _ now v' => now = visit ∧ v' = { v with check := next }) visit v := by
  rw [absorb]
  refine .get_bind hjudge.unchanged ?_
  rw [habsorb]
  have hverdict := verdict?_absorb habsorb houtcome
  obtain ⟨number, hnumber⟩ := hvisit
  obtain ⟨visit, rfl, hphase⟩ := Option.map_eq_some_iff.mp hnumber
  have hfault := hjudge.judged visit number v (.inner none) { v with check := next } hphase
  simp only [Move.failure?, fault?, hverdict, Bench.fault?, RoundBuffer.closing?_eq_none id,
    Option.none_or] at hfault
  cases outcome with
  | ok => exact .of_none hfault ⟨rfl, rfl⟩
  | error error => exact .of_some hfault ⟨hjudge.still { v with check := next } v.bench, rfl⟩

/-- Evaluating a slice makes of its gates what gates may become, and fails for its first fault. -/
theorem Verifier.heeds_evaluate (hjudge : judge.Examines me) (hslice : CheckGate.IsSlice gates)
    (visit : Option Visit) (v : Verifier) :
    (evaluate me).Heeds judge
      (fun _ now v' => (∃ bench, v' = { v with bench } ∧
        List.Forall₂ (CheckGate.Evaluates me) gates bench.gates ∧
        bench.desk.rounds.isOpen = false) ∧ Visit.OfCheck now) visit
      { v with bench := v.bench.load gates (.macCheck v.check.number) me.parties } := by
  have hprocess := (Bench.heeds_process (hjudge.oversees v.check.number v) (CheckGate.governs me)
    gates v.bench visit).and_path
  refine .zoom (hprocess.mono ?_)
  rintro rounds now bench ⟨⟨hempty, hsince⟩, moves, hpath⟩
  have hvigilant : (Bench.process me : Program (Bench CheckGate Unit) Nat).Vigilant fun _ => True :=
    (CheckGate.vigilant_process fun _ _ _ => trivial).anyError
  have hevaluates := hslice.evaluates (hvigilant.ends_of_path hpath)
  exact ⟨⟨bench, rfl, hevaluates, hempty.isOpen⟩, _, hsince.worked hslice.ne_nil⟩

theorem Verifier.heeds_runSlice (hjudge : judge.Examines me) (hne : records ≠ [])
    (more : v.check.hasNext = true) (reached : Reached me number records config turns v.check)
    (hrests : v.RoundsClosed visit) :
    (runSlice me).Heeds judge
      (fun _ now v' => (∃ turns, Reached me number records config turns v'.check) ∧
        v'.bench.desk.rounds.isOpen = false ∧ Visit.SinceCheck visit now) visit v := by
  rw [runSlice, nextSlice, bind_assoc]
  refine .get_bind hjudge.unchanged ?_
  by_cases hnone : v.check.nextSlice v.generator = none
  · rw [hnone]
    trivial
  · have hdraw := reached.exists_draw more hnone
    obtain ⟨gates, handed, source, htaken, hslice, -, hback⟩ := reached.progresses hne more hdraw
    rw [htaken]
    let taken : Verifier := ⟨handed, source, v.bench⟩
    have htake : judge.fault? visit v (.inner none) taken = none := by
      refine hjudge.silent_eq_none (fun _ => id) ?_
      simp [verdict?, MacCheck.outstanding_of_nextSlice htaken]
    have hload : judge.fault? visit taken (.inner none)
        ⟨handed, source, v.bench.load gates (.macCheck handed.number) me.parties⟩ = none := by
      refine hjudge.silent_eq_none (fun hvisit hopen => ?_) (verdict?_eq_none rfl)
      exact absurd ((hrests hvisit).symm.trans hopen) Bool.false_ne_true
    refine .of_none htake (.of_none hload ((heeds_evaluate hjudge hslice visit taken).bind ?_))
    rintro _ now _ ⟨⟨bench, rfl, hevaluates, hclosed⟩, hnow⟩
    obtain ⟨outcome, next, habsorb, hreached, houtcome⟩ := hback _ hevaluates
    refine .get_bind hjudge.unchanged ?_
    refine (heeds_absorb hjudge hnow habsorb (houtcome.imp_right And.left)).mono ?_
    rintro _ _ _ ⟨rfl, rfl⟩
    exact ⟨⟨_, hreached⟩, hclosed, .inr hnow⟩

theorem Verifier.heeds_runSlices (hjudge : judge.Examines me) (hne : records ≠ []) (limit : Nat)
    (reached : Reached me number records config turns v.check) (hrests : v.RoundsClosed visit) :
    (runSlices me limit).Heeds judge
      (fun _ now v' => v'.RoundsClosed now ∧ Visit.SinceCheck visit now) visit v := by
  induction limit generalizing visit turns v with
  | zero => trivial
  | succ limit ih =>
    refine .get_bind hjudge.unchanged ?_
    split
    · next more =>
      refine (heeds_runSlice hjudge hne more reached hrests).bind ?_
      rintro _ now v' ⟨⟨turns', reached'⟩, hclosed', hsince⟩
      refine (ih reached' fun _ => hclosed').mono fun _ later _ ⟨h, hsince'⟩ => ⟨h, ?_⟩
      rcases hsince' with rfl | hlater
      · exact hsince
      · exact .inr hlater
    · exact ⟨hrests, .inl rfl⟩

/-- A check that is run fails for its first fault and for nothing else. -/
theorem Verifier.heeds_execute (hjudge : judge.Examines me) (hne : records ≠ [])
    (hcheck : v.check = .start number records me.modulus config) (hrests : v.RoundsClosed visit) :
    (execute me).Heeds judge
      (fun _ now v' => v'.RoundsClosed now ∧ Visit.SinceCheck visit now) visit v := by
  refine .get_bind hjudge.unchanged ?_
  have reached : Reached me number records config [] v.check := by
    rw [hcheck]
    exact .idle
  exact heeds_runSlices hjudge hne _ reached hrests

end Verdicts
end AuthenticatedMpc
