import AuthenticatedMpc.Proofs.Circuit.Entering
import AuthenticatedMpc.Proofs.Evaluation.Audit
import AuthenticatedMpc.Proofs.Evaluation.Calls
import AuthenticatedMpc.Proofs.Evaluation.Course
import AuthenticatedMpc.Proofs.Evaluation.Journey

/-!
# No record escapes a check

Whatever the transport does, the records of all checks of a party, followed by its ledger, are what it
has opened, with the MAC shares of its gates in the order of the streams. No check begins before the
one before it has passed, and an evaluation that returns leaves nothing unchecked.
-/

namespace AuthenticatedMpc

def Evaluator.Reveals {S : Type} (evaluator : Evaluator S CircuitGate Board) : Prop :=
  ∃ slot ∈ evaluator.slots, slot.gate.revealsOutput = true

theorem Evaluator.reveals_iff {S : Type} {evaluator : Evaluator S CircuitGate Board}
    {batch : List CircuitGate}
    (h : evaluator.slots.map (fun slot => slot.gate.revealsOutput) =
      batch.map CircuitGate.revealsOutput) :
    evaluator.Reveals ↔ (batch.map Gate.revealsOutput).any id = true := by
  have hany : (batch.map Gate.revealsOutput).any id =
      (evaluator.slots.map fun slot => slot.gate.revealsOutput).any id := by
    rw [h]
    rfl
  rw [hany, List.any_map, List.any_eq_true, Reveals]
  rfl

theorem Evaluator.ledger_releaseVerified {S G W : Type} [Gate G W] (evaluator : Evaluator S G W) :
    evaluator.releaseVerified.ledger = evaluator.ledger :=
  congrArg Custody.ledger evaluator.dealings_releaseVerified.1

/-- What holds of a party at every moment of its evaluations. -/
structure RecordsAudited (me : Party) (config : Config) (stream : List CircuitGate) (now : List Move)
    (evaluator : Evaluator Schedule CircuitGate Board) : Prop where
  balanced : Balanced me config now evaluator.ledger.records
  macs : (openedIn now).map Record.mac <+: CircuitGate.macs stream
  /-- What is queued together with an output is queued on an empty ledger, after all checks have
  passed. -/
  queued : evaluator.Reveals → evaluator.rounds.Quiet ∨ evaluator.ledger.records = [] ∧
    ∀ k < (checksIn now).length, Passed me config now k

/-- What holds between two batches, when the given gates are done. -/
structure GatesAccounted (me : Party) (config : Config) (done : List CircuitGate) (now : List Move)
    (custody : Custody Schedule) (rounds : RoundBuffer) : Prop where
  account : Account me config now custody
  macs : (openedIn now).map Record.mac = CircuitGate.macs done
  quiet : rounds.Quiet

def Terms.recordsAudited (me : Party) (config : Config) (stream : List CircuitGate) :
    Terms (Evaluator Schedule CircuitGate Board) where
  during := RecordsAudited me config stream
  fails _ := True
  assumes _ := True

section Records

variable {me : Party} {config : Config} {stream done batch : List CircuitGate} {past now : List Move}
  {evaluator : Evaluator Schedule CircuitGate Board}

theorem RecordsAudited.still (h : RecordsAudited me config stream past evaluator)
    (hstill : Still past now) :
    RecordsAudited me config stream now evaluator where
  balanced := h.balanced.still hstill
  macs := by rw [hstill.opened_eq]; exact h.macs
  queued hreveals := by
    refine (h.queued hreveals).imp_right (And.imp_right fun hpassed k hk => ?_)
    rw [hstill.checks_eq] at hk
    exact (hpassed k hk).mono hstill.le

theorem Event.IsPause.still {event : Option Event} (h : IsPause event) (past : List Move) :
    Still past (past ++ [Move.inner event]) := by
  refine (Still.refl past).snoc ?_ ?_
  all_goals
    rcases event with _ | event
    · rfl
    · cases event <;> first | rfl | cases h

namespace GatesAccounted

variable {custody : Custody Schedule} {rounds : RoundBuffer}

theorem still (h : GatesAccounted me config done past custody rounds) (hstill : Still past now) :
    GatesAccounted me config done now custody rounds :=
  { h with
    account := h.account.still hstill
    macs := by rw [hstill.opened_eq, h.macs] }

theorem silent (h : GatesAccounted me config done past custody rounds) :
    GatesAccounted me config done (past ++ [Move.inner none]) custody rounds :=
  h.still (Still.refl past).silent

theorem audited
    (h : GatesAccounted me config done now (Evaluator.custodyPart.get evaluator) evaluator.rounds)
    (hdone : done <+: stream) : RecordsAudited me config stream now evaluator where
  balanced := h.account.balanced
  macs := h.macs ▸ CircuitGate.macs_prefix hdone
  queued _ := .inl h.quiet

theorem meets_hook {hook : Program (Custody Schedule) Unit} {post : Custody Schedule → Prop}
    (h : GatesAccounted me config done past (Evaluator.custodyPart.get evaluator) evaluator.rounds)
    (hdone : done <+: stream)
    (hhook : hook.Meets
      ((Terms.balancedSince me config past).contract id fun _ now custody =>
        (Account me config now custody ∧ openedIn now = openedIn past) ∧ post custody) past
      (Evaluator.custodyPart.get evaluator)) :
    (hook.zoom Evaluator.custodyPart).Meets
      ((Terms.recordsAudited me config stream).contract id fun _ now evaluator' => ∃ custody,
        evaluator' = Evaluator.custodyPart.set evaluator custody ∧ post custody ∧
          GatesAccounted me config done now custody evaluator.rounds) past evaluator := by
  refine .zoom (hhook.mono ?_ ?_ (fun _ _ _ _ => id) fun _ => id)
  · intro now custody haudits
    exact {
      balanced := haudits.balanced
      macs := by
        rw [haudits.opened_eq]
        exact (h.audited hdone).macs
      queued := fun _ => .inl h.quiet }
  · rintro _ now custody - ⟨⟨haccount, hopened⟩, hpost⟩
    exact ⟨custody, rfl, hpost, haccount, by rw [hopened, h.macs], h.quiet⟩

/-! ## Batches -/

/-- The account after some records of a batch were entered. -/
theorem account_entered {new : List Record} {bench : Bench CircuitGate Board}
    (h : GatesAccounted me config done past (Evaluator.custodyPart.get evaluator) evaluator.rounds)
    (hentered : Entered batch evaluator.ledger.records past new now bench) :
    Account me config now (Evaluator.custodyPart.get (Evaluator.benchPart.set evaluator bench)) where
  balance := by
    change _ ++ bench.desk.ledger.records = _
    rw [hentered.records_eq, hentered.opened_eq, hentered.checks_eq, ← List.append_assoc]
    exact congrArg (· ++ new) h.account.balance
  numbers := by rw [hentered.checks_eq, h.account.numbers]
  passed k hk := (h.account.passed k (by rwa [← hentered.checks_eq])).mono hentered.le
  performed := by
    rw [hentered.checks_eq]
    exact h.account.performed

/-- A batch is evaluated. What it queues with an output is queued on an empty ledger. -/
theorem meets_process
    (h : GatesAccounted me config done past (Evaluator.custodyPart.get evaluator) evaluator.rounds)
    (hslots : evaluator.slots = batch.map fun gate => ⟨gate, false⟩)
    (hempty : (batch.map Gate.revealsOutput).any id = true → evaluator.ledger.records = [])
    (hbatch : done ++ batch <+: stream) :
    ((Bench.process me).zoom Evaluator.benchPart).Meets
      ((Terms.recordsAudited me config stream).contract id fun _ now evaluator' =>
        GatesAccounted me config (done ++ batch) now (Evaluator.custodyPart.get evaluator')
          evaluator'.rounds) past evaluator := by
  have hbench : Evaluator.benchPart.get evaluator =
      ⟨batch.map fun gate => ⟨gate, false⟩, (Evaluator.benchPart.get evaluator).desk⟩ := by
    rw [← hslots]
    rfl
  have hprocess := @Bench.meets_process_entering batch evaluator.ledger.records past
    (Evaluator.benchPart.get evaluator).desk me rfl h.quiet
  rw [← hbench] at hprocess
  have hopened : ∀ {new now bench},
      Entered batch evaluator.ledger.records past new now bench →
      (openedIn now).map Record.mac = CircuitGate.macs done ++ new.map Record.mac := by
    intro new now bench hentered
    rw [hentered.opened_eq, List.map_append, h.macs]
  refine .zoom (hprocess.mono ?_ ?_ fun _ _ _ _ _ => trivial)
  · rintro now bench ⟨new, hentered, hmacs, hquiet⟩
    have haccount := h.account_entered hentered
    refine ⟨haccount.balanced, ?_, ?_⟩
    · rw [hopened hentered]
      refine List.IsPrefix.trans ?_ (CircuitGate.macs_prefix hbatch)
      rw [CircuitGate.macs_append]
      exact (List.prefix_append_right_inj _).mpr hmacs
    · intro hreveals
      refine hquiet.symm.imp_right fun hnew => ⟨?_, haccount.passed⟩
      have hold := hempty ((Evaluator.reveals_iff hentered.reveals_eq).mp hreveals)
      exact hentered.records_eq.trans (by rw [hold, hnew, List.append_nil])
  · rintro _ now bench - ⟨new, hentered, hmacs, hquiet⟩
    refine ⟨h.account_entered hentered, ?_, hquiet⟩
    rw [hopened hentered, hmacs, CircuitGate.macs_append]

theorem meets_runBatch
    (h : GatesAccounted me config done past (Evaluator.custodyPart.get evaluator) evaluator.rounds)
    (hbatch : done ++ batch <+: stream) :
    (Evaluator.runBatch (.standard me config) batch).Meets
      ((Terms.recordsAudited me config stream).contract id fun _ now evaluator =>
        GatesAccounted me config (done ++ batch) now (Evaluator.custodyPart.get evaluator)
          evaluator.rounds) past evaluator := by
  have hdone : done <+: stream := (List.prefix_append ..).trans hbatch
  have h₁ : GatesAccounted me config done (past ++ [Move.inner (some (.taken batch.length))])
      (Evaluator.custodyPart.get evaluator) evaluator.rounds :=
    h.still ((Still.refl past).snoc rfl rfl)
  have hbefore := (Account.hookInvariant me config _).meets_beforeBatch ⟨h₁.account, rfl⟩
    (batch.map Gate.revealsOutput)
  have hhook := @meets_hook me config stream done _
    { evaluator with taken := evaluator.taken + batch.length } _ _ h₁ hdone hbefore
  refine .record_bind (h.audited hdone) (hhook.bind_terms ?_)
  rintro _ past₂ _ ⟨custody, rfl, ⟨hempty, -⟩, h₂⟩
  have h₃ : GatesAccounted me config done (past₂ ++ [Move.inner none]) custody
      (.start (.circuit evaluator.batches) me.parties) :=
    { h₂.silent with quiet := RoundBuffer.quiet_start _ _ }
  have hprocess := @meets_process me config stream done batch _
    (Evaluator.load (.standard me config) batch (Evaluator.custodyPart.set
      { evaluator with taken := evaluator.taken + batch.length } custody)) h₃ rfl hempty hbatch
  refine .modify_bind (audited h₂ hdone) (hprocess.bind_terms ?_)
  intro _ past₄ evaluator₄ h₄
  have hafter := (Account.hookInvariant me config _).meets_afterBatch ⟨h₄.account, rfl⟩ batch.length
  refine (h₄.meets_hook hbatch hafter).bind_terms ?_
  rintro _ past₅ _ ⟨custody', rfl, -, h₅⟩
  let finished := (Evaluator.custodyPart.set evaluator₄ custody').finishBatch
  obtain ⟨hcustody, hrounds⟩ := finished.dealings_releaseVerified
  have h₆ : GatesAccounted me config (done ++ batch) (past₅ ++ [Move.inner none])
      (Evaluator.custodyPart.get finished.releaseVerified) finished.releaseVerified.rounds := by
    rw [hcustody, hrounds]
    exact h₅.silent
  exact ⟨audited h₅ hbatch, h₆.audited hbatch, h₆⟩

/-- What holds between two batches is carried through all calls, each of which ends with an empty
ledger. -/
theorem batchInvariant (me : Party) (config : Config) (stream : List CircuitGate) :
    Evaluator.BatchInvariant (.recordsAudited me config stream) (.standard me config) stream
      (GatesAccounted me config) fun custody => custody.ledger.records = [] where
  during hdone h := h.audited hdone
  pause hevent h := h.still (hevent.still _)
  abort _ hevent h := { h.still (hevent.still _) with }
  batch h hbatch _ := h.meets_runBatch hbatch
  finish {_ past _} h hdone := by
    have hverify := (Account.hookInvariant me config _).meets_verifyLedger ⟨h.account, rfl⟩
    refine (h.meets_hook hdone hverify).mono_terms ?_
    rintro _ now _ ⟨custody, rfl, hempty, h'⟩
    exact ⟨h', hempty⟩

end GatesAccounted

/-- After an error only what holds at every moment is left. -/
abbrev PlayerAudited (me : Party) (config : Config) (stream done : List CircuitGate) (now : List Move)
    (player : Player Schedule CircuitGate Board) : Prop :=
  player.BatchInvariantHolds (.recordsAudited me config stream) (GatesAccounted me config)
    (fun custody => custody.ledger.records = []) done now

theorem PlayerAudited.start (generator : Source) :
    PlayerAudited me config stream [] [] { evaluator := .start .start generator .empty } where
  during := ⟨⟨rfl, rfl, nofun⟩, List.nil_prefix, fun _ => .inl (RoundBuffer.quiet_start _ _)⟩
  between _ := ⟨⟨rfl, rfl, nofun, rfl⟩, rfl, RoundBuffer.quiet_start _ _⟩
  returned _ := nofun

theorem meets_playCalls_start (hconfig : config.validate = .ok ()) (me : Party) (generator : Source)
    (calls : List (List CircuitGate)) :
    (Player.playCalls (.standard me config) calls).Meets
      ((Terms.recordsAudited me config calls.flatten).contract Player.evaluator fun _ =>
        PlayerAudited me config calls.flatten calls.flatten) []
      { evaluator := .start .start generator .empty } :=
  (GatesAccounted.batchInvariant me config calls.flatten).meets_playCalls
    (Config.maxBatchSize_pos hconfig) (PlayerAudited.start generator) (List.prefix_refl _)

/-- At every moment of all calls, the records of all checks, in the order of their numbers, and those
of the ledger are what was opened, each with the MAC share of its gate and in the order of the
streams; all checks but the last one have passed. When a call has returned without an error, the
ledger is empty, everything in the streams was opened, and all checks have passed. -/
theorem records_checked_once (hconfig : config.validate = .ok ()) (me : Party) (generator : Source)
    (calls : List (List CircuitGate)) :
    let start : Player Schedule CircuitGate Board := { evaluator := .start .start generator .empty }
    (∀ moves actor, Path ⟨Player.playCalls (.standard me config) calls, start⟩ moves actor →
      (checksIn moves).flatMap Prod.snd ++ actor.state.evaluator.ledger.records = openedIn moves ∧
      (checksIn moves).map Prod.fst = (List.range (checksIn moves).length).map Nat.toUInt64 ∧
      (openedIn moves).map Record.mac <+: CircuitGate.macs calls.flatten ∧
      ∀ k, k + 1 < (checksIn moves).length → Passed me config moves k) ∧
    ∀ moves player, Path ⟨Player.playCalls (.standard me config) calls, start⟩ moves
        ⟨.pure (), player⟩ → ∀ summary, player.outcome = some (.ok summary) →
      player.evaluator.ledger.records = [] ∧
      (openedIn moves).map Record.mac = CircuitGate.macs calls.flatten ∧
      ∀ k < (checksIn moves).length, Passed me config moves k := by
  intro start
  have hmeets := meets_playCalls_start hconfig me generator calls
  constructor
  · intro moves actor hpath
    have haudited := (hmeets.path hpath fun _ _ => trivial).during
    exact ⟨haudited.balanced.balance, haudited.balanced.numbers, haudited.macs,
      haudited.balanced.passed⟩
  · intro moves player hpath summary houtcome
    have hcalled := (hmeets.path hpath fun _ _ => trivial).2
    obtain ⟨hbetween, hempty⟩ := hcalled.returned summary houtcome
    exact ⟨hempty, hbetween.macs, hbetween.account.passed⟩

/-- The first of two parties with the shares 0 and 4 of the value 4 modulo 7 has a run in which it
opens the value and checks it. -/
theorem records_checked_once_seven :
    let table : Table :=
      ⟨2, ⟨.ofNat 7, by decide⟩, fun i => .ofNat (i + 1), by decide, by decide⟩
    let deal : Deal := ⟨1, .ofNat 4, fun i => ⟨.ofNat (4 * i), .ofNat (i + 2)⟩⟩
    let start : Player Schedule CircuitGate Board := { evaluator := .start .start default .empty }
    let calls : List (List CircuitGate) := [[.output (deal.opening 0 false)]]
    Config.standard.validate = .ok () ∧ ∃ moves player summary,
      Path ⟨Player.playCalls (.standard (table.party 0) .standard) calls, start⟩ moves
        ⟨.pure (), player⟩ ∧ player.outcome = some (.ok summary) ∧
      (openedIn moves).map Record.mac = [.ofNat 2] ∧
      (checksIn moves).flatMap Prod.snd = openedIn moves ∧
      ∀ k < (checksIn moves).length, Passed (table.party 0) .standard moves k := by
  intro table deal start calls
  have hvalid : deal.Valid table := ⟨by decide, by decide, by decide +kernel⟩
  have hconfig : Config.standard.validate = .ok () := by decide
  obtain ⟨moves, final, summary, hpath, houtcome⟩ := exists_path_output hconfig hvalid Source.draws_default 0
  obtain ⟨hmoments, hend⟩ := records_checked_once hconfig (table.party 0) default calls
  obtain ⟨hempty, hmacs, hpassed⟩ := hend moves final hpath summary houtcome
  have hbalance := (hmoments moves _ hpath).1
  rw [hempty, List.append_nil] at hbalance
  exact ⟨hconfig, moves, final, summary, hpath, houtcome, hmacs, hbalance, hpassed⟩

end Records
end AuthenticatedMpc
