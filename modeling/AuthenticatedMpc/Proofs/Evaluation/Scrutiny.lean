import AuthenticatedMpc.Proofs.Circuit.Scrutiny
import AuthenticatedMpc.Proofs.Evaluation.Honesty
import AuthenticatedMpc.Proofs.Evaluation.Journey
import AuthenticatedMpc.Proofs.MacCheck.Scrutiny
import AuthenticatedMpc.Proofs.Runs.Tally

/-!
# What is wrong with an evaluation

While a gate of a batch is in evaluation, or after it, the batch can be at fault; while or after one
of a check is, the check can. Hooks and what stands between batches and checks add nothing to this:
an evaluation fails for the first fault of one of them, and for nothing else.
-/

namespace AuthenticatedMpc

variable {me : Party} {config : Config} {hooks : Hooks} {visit now : Option Visit}

theorem Visit.not_ofCheck {batch : UInt64} (h : visit.map Visit.phase = some (.circuit batch)) :
    ¬OfCheck visit := by
  rintro ⟨number, hnumber⟩
  cases h.symm.trans hnumber

/-! ## Hooks -/

/-- A judge of the custody, which finds nothing wrong outside checks. -/
structure Judge.Supervises {S : Type} (judge : Judge (Custody S)) (me : Party) : Prop where
  examines : ∀ custody, (judge.onPart Custody.verifierPart custody).Examines me
  silent : ∀ {visit custody custody'}, custody'.verifier = custody.verifier →
    judge.fault? visit custody (.inner none) custody' = none
  noted : ∀ {visit custody event custody'}, ¬Event.IsEvaluating event →
    judge.fault? visit custody (.inner (some event)) custody' = none

namespace Schedule

variable {judge : Judge (Custody Schedule)} {custody : Custody Schedule}
  {hook : Program (Custody Schedule) Unit}

theorem heeds_verifyLedger (hjudge : judge.Supervises me) (h : custody.verifier.RoundsClosed visit) :
    (verifyLedger config me).Heeds judge
      (fun _ now custody' => custody'.verifier.RoundsClosed now ∧ Visit.SinceCheck visit now) visit
      custody := by
  refine .modify_bind (hjudge.silent rfl) (.get_bind (hjudge.silent rfl) ?_)
  split
  · exact ⟨h, .inl rfl⟩
  · next hempty =>
    have hne : (reset custody).ledger.records ≠ [] := fun hnil =>
      hempty ((Ledger.isEmpty_iff _).mpr hnil)
    let begun := beginCheck me config (reset custody)
    have hexecute : ((Verifier.execute me).zoom Custody.verifierPart).Heeds judge
        (fun _ now custody' => custody'.verifier.RoundsClosed now ∧ Visit.SinceCheck visit now) visit
        begun :=
      .zoom (Verifier.heeds_execute (hjudge.examines begun) hne rfl h)
    have hchecking : ¬Event.IsEvaluating (.checking custody.control.checksPerformed
        custody.ledger.records) := nofun
    refine .record_bind (.of_none (hjudge.noted hchecking) (hexecute.bind ?_))
    rintro _ now custody' h'
    have hverified : ¬Event.IsEvaluating (.verified custody.control.checksPerformed) := nofun
    exact .of_none (hjudge.noted hverified) h'

theorem heeds_hook (hjudge : judge.Supervises me)
    (hhook : ((controller config).restrict hooks).IsHook me hook)
    (h : custody.verifier.RoundsClosed visit) :
    hook.Heeds judge
      (fun _ now custody' => custody'.verifier.RoundsClosed now ∧ Visit.SinceCheck visit now) visit
      custody := by
  cases hhook with
  | beforeBatch reveals =>
    dsimp only [Controller.restrict]
    split
    · refine .get_bind (hjudge.silent rfl) ?_
      dsimp only
      split
      · refine (heeds_verifyLedger hjudge h).bind ?_
        rintro _ now custody' h'
        exact .of_none (hjudge.silent rfl) h'
      · exact .of_none (hjudge.silent rfl) ⟨h, .inl rfl⟩
    · exact ⟨h, .inl rfl⟩
  | afterBatch count =>
    dsimp only [Controller.restrict]
    split
    · refine .modify_bind (hjudge.silent rfl) (.get_bind (hjudge.silent rfl) ?_)
      split
      · exact heeds_verifyLedger hjudge h
      · exact ⟨h, .inl rfl⟩
    · exact ⟨h, .inl rfl⟩
  | afterEvaluation =>
    dsimp only [Controller.restrict]
    split
    · exact heeds_verifyLedger hjudge h
    · exact ⟨h, .inl rfl⟩

end Schedule

/-! ## Evaluations -/

def Setting.hooked (me : Party) (config : Config) (hooks : Hooks) : Setting Schedule :=
  ⟨me, config, (Schedule.controller config).restrict hooks⟩

namespace Evaluator

variable {S : Type}

/-- What is wrong with a move of a party: an error of the transport, or a fault of the batch or of
the check whose gate is in evaluation. -/
def fault? (me : Party) (visit : Option Visit) (before : Evaluator S CircuitGate Board)
    (move : Move) (after : Evaluator S CircuitGate Board) : Option Error :=
  move.failure?.or (visit.bind fun visit =>
    match visit.phase with
    | .circuit _ =>
      (benchPart.get before).fault? (CircuitGate.scrutiny me) me visit move (benchPart.get after)
    | .macCheck _ => before.verifier.fault? me visit move after.verifier)

/-- Nothing has changed but the messages of the round, the bench of the check and the error that is
kept. -/
def Unmoved {G W : Type} (before after : Evaluator S G W) : Prop :=
  ∃ rounds bench aborted,
    after = { before with rounds, verifier := { before.verifier with bench }, aborted }

def judge (me : Party) : Judge (Evaluator S CircuitGate Board) where
  fault? := fault? me
  still := Unmoved

/-- The gates that have been evaluated have left no round open. -/
structure RoundsClosed {G W : Type} (visit : Option Visit) (evaluator : Evaluator S G W) : Prop where
  batch : ∀ batch, visit.map Visit.phase = some (.circuit batch) → evaluator.rounds.isOpen = false
  check : evaluator.verifier.RoundsClosed visit

section Judging

variable {evaluator evaluator' : Evaluator S CircuitGate Board} {custody : Custody S}

theorem fault?_silent
    (hbatch : ∀ batch, visit.map Visit.phase = some (.circuit batch) →
      evaluator.rounds.isOpen = true → evaluator'.rounds.isOpen = true)
    (hcheck : Visit.OfCheck visit → evaluator'.verifier = evaluator.verifier) :
    fault? me visit evaluator (.inner none) evaluator' = none := by
  cases visit with
  | none => rfl
  | some visit =>
    simp only [fault?, Move.failure?, Option.none_or, Option.bind_some]
    split
    · next batch hphase => exact RoundBuffer.closing?_eq_none (hbatch batch (congrArg some hphase))
    · next number hphase =>
      rw [hcheck ⟨number, congrArg some hphase⟩]
      simp only [Verifier.fault?, Verifier.verdict?_eq_none, Bench.fault?,
        RoundBuffer.closing?_eq_none id, Option.or_none]

theorem fault?_noted {event : Event} (h : ¬Event.IsEvaluating event) :
    fault? me visit evaluator (.inner (some event)) evaluator' = none := by
  cases visit with
  | none => rfl
  | some visit =>
    cases event with
    | evaluating phase place round => exact absurd ⟨phase, place, round, rfl⟩ h
    | taken | opened | checking | verified | returned =>
      simp only [fault?, Move.failure?, Verifier.fault?, Bench.fault?, Option.or_none,
        Option.none_or, Option.bind_some]
      split <;> rfl

theorem fault?_sent {q : PartyId} {packet : Packet} {reply : Except NetworkError Unit} :
    fault? me visit evaluator (.sent q packet reply) evaluator' =
      (Move.sent q packet reply).failure? := by
  cases visit with
  | none => exact Option.or_none
  | some visit =>
    simp only [fault?, Verifier.fault?, Bench.fault?, Option.or_none, Option.bind_some]
    split <;> exact Option.or_none

theorem judge_oversees (evaluator : Evaluator S CircuitGate Board) (batch : UInt64) :
    ((judge me).onPart benchPart evaluator).Oversees (CircuitGate.scrutiny me) me
      (.circuit batch) where
  still slots desk rounds := ⟨rounds, evaluator.verifier.bench, evaluator.aborted, rfl⟩
  idle _ _ _ hopen := fault?_silent (fun _ _ => hopen) fun _ => rfl
  sent _ _ _ _ _ := fault?_sent
  judged visit bench move bench' hphase := by
    simp only [Judge.onPart, judge, fault?, Option.bind_some, hphase, benchPart.get_set]

/-- The judge of a party judges its hooks. -/
theorem judge_supervises (evaluator : Evaluator S CircuitGate Board) :
    ((judge me).onPart custodyPart evaluator).Supervises me where
  examines custody :=
    { still := fun v bench => ⟨evaluator.rounds, bench, evaluator.aborted, rfl⟩
      idle := fun _ _ _ hvisit => fault?_silent (fun _ _ => id) fun h => absurd h hvisit
      sent := fun _ _ _ _ _ => fault?_sent
      judged := fun visit number v move v' hphase => by
        simp only [Judge.onPart, judge, fault?, Option.bind_some, hphase]
        rfl }
  silent hsame := fault?_silent (fun _ _ => id) fun _ => hsame
  noted := fault?_noted

theorem RoundsClosed.congr (h : evaluator.RoundsClosed visit)
    (hrounds : evaluator'.rounds = evaluator.rounds)
    (hverifier : evaluator'.verifier = evaluator.verifier) : evaluator'.RoundsClosed visit where
  batch batch hvisit := by rw [hrounds, h.batch batch hvisit]
  check := by
    rw [hverifier]
    exact h.check

theorem RoundsClosed.hook (h : evaluator.RoundsClosed visit)
    (hcheck : custody.verifier.RoundsClosed now)
    (hsince : Visit.SinceCheck visit now) : (custodyPart.set evaluator custody).RoundsClosed now where
  batch batch hbatch := by
    rcases hsince with rfl | hnow
    · exact h.batch batch hbatch
    · exact absurd hnow (Visit.not_ofCheck hbatch)
  check := hcheck

end Judging

/-! ## Batch by batch -/

section Batches

variable {evaluator evaluator' : Evaluator Schedule CircuitGate Board} {gates : List CircuitGate}

theorem heeds_hook {hook : Program (Custody Schedule) Unit}
    (hhook : (Setting.hooked me config hooks).controller.IsHook me hook)
    (h : evaluator.RoundsClosed visit) :
    (hook.zoom custodyPart).Heeds (judge me)
      (fun _ now (evaluator' : Evaluator Schedule CircuitGate Board) => evaluator'.RoundsClosed now) visit
      evaluator := by
  have hcustody := @Schedule.heeds_hook me config hooks visit _ (custodyPart.get evaluator) hook
    (judge_supervises evaluator) hhook h.check
  exact .zoom (hcustody.mono fun _ _ _ ⟨hrests, hsince⟩ => h.hook hrests hsince)

theorem heeds_runBatch (batch : List CircuitGate) (h : evaluator.RoundsClosed visit) :
    (runBatch (.hooked me config hooks) batch).Heeds (judge me)
      (fun _ now evaluator' => evaluator'.RoundsClosed now) visit evaluator := by
  have htaken : ¬Event.IsEvaluating (.taken batch.length) := nofun
  refine .record_bind (.of_none (fault?_noted htaken) ?_)
  have hcounted : RoundsClosed visit { evaluator with taken := evaluator.taken + batch.length } :=
    h.congr rfl rfl
  refine (heeds_hook (.beforeBatch _) hcounted).bind fun _ visit evaluator h => ?_
  have hload : fault? me visit evaluator (.inner none)
      (load (.hooked me config hooks) batch evaluator) = none := by
    refine fault?_silent (fun number hvisit hopen => ?_) fun _ => rfl
    exact absurd ((h.batch number hvisit).symm.trans hopen) Bool.false_ne_true
  refine .modify_bind hload ?_
  have hprocess : ((Bench.process me).zoom benchPart).Heeds (judge me)
      (fun _ now (evaluator' : Evaluator Schedule CircuitGate Board) => evaluator'.RoundsClosed now) visit
      (load (.hooked me config hooks) batch evaluator) := by
    refine .zoom ((Bench.heeds_process (judge_oversees _ evaluator.batches)
      (CircuitGate.governs me) batch (benchPart.get evaluator) visit).mono ?_)
    rintro _ now bench ⟨hempty, hsince⟩
    refine ⟨fun _ _ => hempty.isOpen, fun hnow => ?_⟩
    rcases hsince.visited with rfl | hbatch
    · exact h.check hnow
    · exact absurd hnow (Visit.not_ofCheck hbatch)
  refine hprocess.bind fun _ visit evaluator h => ?_
  refine (heeds_hook (.afterBatch batch.length) h).bind fun _ visit evaluator h => ?_
  obtain ⟨hcustody, hrounds⟩ := evaluator.finishBatch.dealings_releaseVerified
  have hverifier := congrArg Custody.verifier hcustody
  exact .of_none (fault?_silent (fun _ _ hopen => hrounds ▸ hopen) fun _ => hverifier)
    (h.congr hrounds hverifier)

theorem heeds_runBatches (batches : List (List CircuitGate)) (h : evaluator.RoundsClosed visit) :
    (runBatches (.hooked me config hooks) batches).Heeds (judge me)
      (fun _ now evaluator' => evaluator'.RoundsClosed now) visit evaluator := by
  induction batches generalizing visit evaluator with
  | nil => exact h
  | cons batch batches ih => exact (heeds_runBatch batch h).bind fun _ _ _ h => ih h

theorem heeds_runStream (gates : List CircuitGate) (h : evaluator.RoundsClosed visit) :
    (runStream (.hooked me config hooks) gates).Heeds (judge me)
      (fun _ now evaluator' => evaluator'.RoundsClosed now) visit evaluator := by
  have hbegun : evaluator.begin.RoundsClosed visit := h.congr rfl rfl
  refine .modify_bind (fault?_silent (fun _ _ => id) fun _ => rfl) ?_
  refine (heeds_runBatches _ hbegun).bind fun _ visit evaluator h => ?_
  refine (heeds_hook .afterEvaluation h).bind fun _ visit evaluator h => ?_
  obtain ⟨hcustody, hrounds⟩ := evaluator.dealings_releaseVerified
  have hverifier := congrArg Custody.verifier hcustody
  have hreleased := h.congr hrounds hverifier
  exact .modify_bind (fault?_silent (fun _ _ hopen => hrounds ▸ hopen) fun _ => hverifier)
    (.get_bind (fault?_silent (fun _ _ => id) fun _ => rfl) (hreleased.congr rfl rfl))

/-- An evaluation fails for its first fault and for nothing else. -/
theorem heeds_evaluate (gates : List CircuitGate) (haborted : evaluator.aborted = none)
    (h : evaluator.RoundsClosed visit) :
    (evaluate (.hooked me config hooks) gates).Heeds (judge me)
      (fun _ now evaluator' => evaluator'.RoundsClosed now) visit evaluator := by
  refine .get_bind (fault?_silent (fun _ _ => id) fun _ => rfl) ?_
  rw [haborted]
  refine (heeds_runStream gates h).attempt_bind (fun _ _ _ h => h) ?_
  rintro error evaluator _ ⟨rounds, bench, aborted, rfl⟩
  exact ⟨⟨rounds, bench, aborted, rfl⟩, ⟨rounds, bench, some error, rfl⟩, rfl⟩

end Batches
end Evaluator
end AuthenticatedMpc
