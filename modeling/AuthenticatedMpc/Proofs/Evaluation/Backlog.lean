import AuthenticatedMpc.Proofs.Circuit.Entering
import AuthenticatedMpc.Proofs.Evaluation.Calls
import AuthenticatedMpc.Proofs.Evaluation.Course
import AuthenticatedMpc.Proofs.Evaluation.Honesty
import AuthenticatedMpc.Proofs.Evaluation.Journey

/-!
# How much is left unverified

Between batches the ledger holds at most one record for each gate that the controller has counted
since its last check, and a hook that returns has counted no more gates than the threshold. A batch
adds at most one record for each of its gates, so whatever the transport does there are never more
records than the threshold and a batch together.
-/

namespace AuthenticatedMpc

/-! ## What the hooks count -/

namespace Schedule

variable {me : Party} {config : Config} {past : List Move} {custody custody' : Custody Schedule}

/-- A hook leaves the records alone or takes all of them. -/
def KeepsOrEmptiesLedger (custody custody' : Custody Schedule) : Prop :=
  custody'.ledger = custody.ledger ∨ custody'.ledger.records = []

/-- All is verified, and no gate has been counted since. -/
def AllVerified (custody : Custody Schedule) : Prop :=
  custody.ledger.records = [] ∧ custody.control.gatesSinceCheck = 0

theorem meets_conclude_of_verifier {number : UInt64} {inv : Custody Schedule → Prop}
    (h : ∀ verifier, inv { custody with verifier }) :
    (conclude me number).Meets (.ofState inv fun _ => inv) past custody := by
  have hexecute : ((Verifier.execute me).zoom Custody.verifierPart).Meets
      (.ofState inv fun _ => inv) past custody := .of_zoom h fun _ => h
  exact hexecute.bind_state fun _ _ _ hnow => ⟨hnow, hnow, hnow⟩

theorem meets_verifyLedger_cleared :
    (verifyLedger config me).Meets
    (.ofState (KeepsOrEmptiesLedger custody) fun _ => AllVerified) past custody := by
  have hstart : KeepsOrEmptiesLedger custody custody := .inl rfl
  have hreset : KeepsOrEmptiesLedger custody (reset custody) := .inl rfl
  refine .modify_bind hstart (.get_bind hreset ?_)
  split
  · next hempty => exact ⟨hreset, (Ledger.isEmpty_iff _).mp hempty, rfl⟩
  · have hcheck : ∀ verifier,
        AllVerified { beginCheck me config (reset custody) with verifier } := fun _ => ⟨rfl, rfl⟩
    exact .record_bind hreset ((meets_conclude_of_verifier hcheck).mono (fun _ _ h => .inr h.1)
      (fun _ _ _ _ => id) fun _ _ _ _ h => .inr h.1)

theorem meets_beforeBatch_cleared (reveals : List Bool) :
    (beforeBatch config me reveals).Meets
      (.ofState (KeepsOrEmptiesLedger custody) fun _ custody' => AllVerified custody' ∨
        custody'.ledger = custody.ledger ∧
          custody'.control.gatesSinceCheck = custody.control.gatesSinceCheck) past custody := by
  have hstart : KeepsOrEmptiesLedger custody custody := .inl rfl
  refine .get_bind hstart ?_
  split
  · refine meets_verifyLedger_cleared.bind_state fun _ past custody' hverified => ?_
    exact ⟨.inr hverified.1, .inr hverified.1, .inl hverified⟩
  · exact ⟨hstart, hstart, .inr ⟨rfl, rfl⟩⟩

/-- After a batch all is verified, or its gates are counted and they are not too many. -/
theorem meets_afterBatch_cleared (count : Nat) :
    (afterBatch config me count).Meets
      (.ofState (KeepsOrEmptiesLedger custody) fun _ custody' => AllVerified custody' ∨
        custody'.ledger = custody.ledger ∧
          custody'.control.gatesSinceCheck = custody.control.gatesSinceCheck + count.toUInt64 ∧
          custody'.control.gatesSinceCheck ≤ config.macCheckThreshold) past custody := by
  have hstart : KeepsOrEmptiesLedger custody custody := .inl rfl
  have hcount : KeepsOrEmptiesLedger custody (countGates count custody) := .inl rfl
  refine .modify_bind hstart (.get_bind hcount ?_)
  split
  · refine meets_verifyLedger_cleared.mono (fun _ _ => id) ?_ fun _ _ _ _ => id
    exact fun _ _ _ _ => .inl
  · next hskip =>
    rw [checkRequired, Bool.not_eq_true, Bool.or_eq_false_iff, decide_eq_false_iff_not] at hskip
    exact ⟨hcount, .inr ⟨rfl, rfl, UInt64.not_lt.mp hskip.2⟩⟩

/-- Hooks that return have not counted more gates than the threshold. -/
theorem gatesSinceCheck_le {start : Custody Schedule}
    (hstart : start.control.gatesSinceCheck ≤ config.macCheckThreshold)
    (h : (controller config).Reaches me start past custody) :
    custody.control.gatesSinceCheck ≤ config.macCheckThreshold := by
  induction h with
  | start => exact hstart
  | between _ _ ih => exact ih
  | @hook past moves custody custody' hook _ hhook hpath ih =>
    have hverified : AllVerified custody' →
        custody'.control.gatesSinceCheck ≤ config.macCheckThreshold := by
      rintro ⟨-, hzero⟩
      rw [hzero, UInt64.le_iff_toNat_le]
      exact Nat.zero_le _
    cases hhook with
    | beforeBatch reveals =>
      have hmeets := @meets_beforeBatch_cleared me config past custody reveals
      rcases (hmeets.path hpath fun _ _ => trivial).2 with hempty | ⟨-, hsame⟩
      · exact hverified hempty
      · rw [hsame]
        exact ih
    | afterBatch count =>
      have hmeets := @meets_afterBatch_cleared me config past custody count
      rcases (hmeets.path hpath fun _ _ => trivial).2 with hempty | ⟨-, -, hle⟩
      · exact hverified hempty
      · exact hle
    | afterEvaluation =>
      have hmeets := @meets_verifyLedger_cleared me config past custody
      exact hverified (hmeets.path hpath fun _ _ => trivial).2

end Schedule

/-! ## Hooks in a run -/

namespace Controller

variable {S : Type} {controller : Controller S} {me : Party} {start custody custody' : Custody S}
  {past now moves : List Move} {hook : Program (Custody S) Unit}

/-- The controller has come to this custody by hooks that have returned, or a hook that was called
then has not returned. -/
inductive ReachesDuringHooks (controller : Controller S) (me : Party) (start : Custody S) :
    List Move → Custody S → Prop
  | rests {now : List Move} {custody : Custody S} (h : controller.Reaches me start now custody) :
      ReachesDuringHooks controller me start now custody
  | serves {past moves after : List Move} {custody custody' : Custody S}
      {hook rest : Program (Custody S) Unit} (before : controller.Reaches me start past custody)
      (h : controller.IsHook me hook) (path : Path ⟨hook, custody⟩ moves ⟨rest, custody'⟩)
      (hrest : rest ≠ .pure ()) :
      ReachesDuringHooks controller me start (past ++ moves ++ after) custody'

theorem ReachesDuringHooks.mono (h : controller.ReachesDuringHooks me start past custody)
    (hpast : past <+: now) :
    controller.ReachesDuringHooks me start now custody := by
  obtain ⟨moves, rfl⟩ := hpast
  cases h with
  | rests h => exact .rests (h.between (List.prefix_refl _))
  | serves before hhook path hrest =>
    rw [List.append_assoc]
    exact .serves before hhook path hrest

theorem Reaches.reachesDuringHooks {rest : Program (Custody S) Unit}
    (h : controller.Reaches me start past custody) (hhook : controller.IsHook me hook)
    (hpath : Path ⟨hook, custody⟩ moves ⟨rest, custody'⟩) :
    controller.ReachesDuringHooks me start (past ++ moves) custody' := by
  have hserves : rest ≠ .pure () →
      controller.ReachesDuringHooks me start (past ++ moves ++ []) custody' :=
    .serves h hhook hpath
  rw [List.append_nil] at hserves
  cases rest with
  | pure => exact .rests (h.hook hhook hpath)
  | fail | never | step | send | receive | close => exact hserves nofun

end Controller

/-! ## Batches -/

theorem CircuitGate.length_macs_le (gates : List CircuitGate) :
    (macs gates).length ≤ gates.length := by
  rw [macs, List.length_map]
  exact List.length_filterMap_le ..

/-- The most records that may be unverified. -/
def Config.recordLimit (config : Config) : Nat :=
  config.macCheckThreshold.toNat + config.maxBatchSize.toNat

/-- At every moment the controller has come there by its hooks, and there are not too many records. -/
def Terms.limited (me : Party) (config : Config) (start : Custody Schedule) :
    Terms (Evaluator Schedule CircuitGate Board) where
  during now evaluator :=
    (Schedule.controller config).ReachesDuringHooks me start now (Evaluator.custodyPart.get evaluator) ∧
      evaluator.ledger.length ≤ config.recordLimit
  fails _ := True
  assumes _ := True

/-- Between batches each record is of a gate that was counted. -/
structure RecordsCounted (me : Party) (config : Config) (start : Custody Schedule)
    (done : List CircuitGate) (now : List Move) (custody : Custody Schedule)
    (rounds : RoundBuffer) : Prop where
  reaches : (Schedule.controller config).Reaches me start now custody
  length_le : custody.ledger.length ≤ custody.control.gatesSinceCheck.toNat
  counted_le : custody.control.gatesSinceCheck.toNat ≤ done.length
  quiet : rounds.Quiet

section Backlog

variable {me : Party} {config : Config} {start : Custody Schedule} {past now : List Move}
  {evaluator : Evaluator Schedule CircuitGate Board} {stream done batch : List CircuitGate}

theorem Controller.Reaches.meets_hook {hook : Program (Custody Schedule) Unit}
    {post : Custody Schedule → Prop}
    (h : (Schedule.controller config).Reaches me start past (Evaluator.custodyPart.get evaluator))
    (hhook : (Schedule.controller config).IsHook me hook)
    (hspares : hook.Meets (.ofState (Schedule.KeepsOrEmptiesLedger (Evaluator.custodyPart.get evaluator))
      fun _ => post) past (Evaluator.custodyPart.get evaluator))
    (hlength : evaluator.ledger.length ≤ config.recordLimit) :
    (hook.zoom Evaluator.custodyPart).Meets
      ((Terms.limited me config start).contract id fun _ now evaluator' => ∃ custody,
        evaluator' = Evaluator.custodyPart.set evaluator custody ∧
          (Schedule.controller config).Reaches me start now custody ∧ post custody) past
      evaluator := by
  refine .zoom (((Program.Meets.of_paths hook past _).and hspares).mono ?_ ?_
    (fun _ _ _ _ _ => trivial) fun _ _ => ⟨trivial, trivial⟩)
  · rintro _ custody ⟨⟨moves, rest, rfl, hpath⟩, hrecords⟩
    refine ⟨h.reachesDuringHooks hhook hpath, ?_⟩
    change custody.ledger.length ≤ _
    rcases hrecords with hsame | hempty
    · rw [hsame]
      exact hlength
    · rw [Ledger.length, hempty]
      exact Nat.zero_le _
  · rintro _ _ custody - ⟨⟨moves, rfl, hpath⟩, hpost⟩
    exact ⟨custody, rfl, h.hook hhook hpath, hpost⟩

/-- A batch enters at most one record for each of its gates. -/
theorem Controller.Reaches.meets_process
    (h : (Schedule.controller config).Reaches me start past (Evaluator.custodyPart.get evaluator))
    (hslots : evaluator.slots = batch.map fun gate => ⟨gate, false⟩)
    (hquiet : evaluator.rounds.Quiet)
    (hlength : evaluator.ledger.length + batch.length ≤ config.recordLimit) :
    ((Bench.process me).zoom Evaluator.benchPart).Meets
      ((Terms.limited me config start).contract id fun _ now evaluator' =>
        (Schedule.controller config).Reaches me start now (Evaluator.custodyPart.get evaluator') ∧
          evaluator'.control = evaluator.control ∧ evaluator'.rounds.Quiet ∧
          evaluator'.ledger.length ≤ evaluator.ledger.length + batch.length) past evaluator := by
  have hbench : Evaluator.benchPart.get evaluator =
      ⟨batch.map fun gate => ⟨gate, false⟩, (Evaluator.benchPart.get evaluator).desk⟩ := by
    rw [← hslots]
    rfl
  have hprocess := @Bench.meets_process_entering batch evaluator.ledger.records past
    (Evaluator.benchPart.get evaluator).desk me rfl hquiet
  rw [← hbench] at hprocess
  have hentered : ∀ {new now} {bench : Bench CircuitGate Board},
      Entered batch evaluator.ledger.records past new now bench →
      new.map Record.mac <+: CircuitGate.macs batch →
      (Schedule.controller config).Reaches me start now
          (Evaluator.custodyPart.get (Evaluator.benchPart.set evaluator bench)) ∧
        bench.desk.ledger.length ≤ evaluator.ledger.length + batch.length := by
    intro new now bench hentered hmacs
    have hnew : new.length ≤ batch.length := by
      have hle := hmacs.length_le.trans (CircuitGate.length_macs_le batch)
      rwa [List.length_map] at hle
    have hrecords := hentered.records_eq
    obtain ⟨moves, rfl⟩ := hentered.le
    refine ⟨h.between (hrecords ▸ List.prefix_append ..), ?_⟩
    rw [Ledger.length, hrecords, List.length_append]
    exact Nat.add_le_add_left hnew _
  refine .zoom (hprocess.mono ?_ ?_ fun _ _ _ _ _ => trivial)
  · rintro now bench ⟨new, hnew, hmacs, -⟩
    obtain ⟨hreaches, hle⟩ := hentered hnew hmacs
    exact ⟨.rests hreaches, hle.trans hlength⟩
  · rintro _ now bench - ⟨new, hnew, hmacs, hquiet⟩
    obtain ⟨hreaches, hle⟩ := hentered hnew (hmacs ▸ List.prefix_refl _)
    exact ⟨hreaches, rfl, hquiet, hle⟩

namespace RecordsCounted

variable {custody : Custody Schedule} {rounds : RoundBuffer}

theorem gatesSinceCheck_le (h : RecordsCounted me config start done now custody rounds)
    (hstart : start.control.gatesSinceCheck ≤ config.macCheckThreshold) :
    custody.control.gatesSinceCheck.toNat ≤ config.macCheckThreshold.toNat :=
  UInt64.le_iff_toNat_le.mp (Schedule.gatesSinceCheck_le hstart h.reaches)

theorem inner (h : RecordsCounted me config start done past custody rounds) (event : Option Event) :
    RecordsCounted me config start done (past ++ [Move.inner event]) custody rounds :=
  { h with reaches := h.reaches.between (List.prefix_refl _) }

theorem limited
    (h : RecordsCounted me config start done now (Evaluator.custodyPart.get evaluator) evaluator.rounds)
    (hstart : start.control.gatesSinceCheck ≤ config.macCheckThreshold) :
    (Terms.limited me config start).during now evaluator := by
  refine ⟨.rests h.reaches, ?_⟩
  exact (h.length_le.trans (h.gatesSinceCheck_le hstart)).trans (Nat.le_add_right ..)

theorem of_allVerified (hreaches : (Schedule.controller config).Reaches me start now custody)
    (hverified : Schedule.AllVerified custody) (hquiet : rounds.Quiet) :
    RecordsCounted me config start done now custody rounds where
  reaches := hreaches
  length_le := by
    rw [Ledger.length, hverified.1]
    exact Nat.zero_le _
  counted_le := by
    rw [hverified.2]
    exact Nat.zero_le _
  quiet := hquiet

theorem beforeBatch {custody' : Custody Schedule}
    (h : RecordsCounted me config start done past custody rounds)
    (hreaches : (Schedule.controller config).Reaches me start now custody')
    (hverified : Schedule.AllVerified custody' ∨ custody'.ledger = custody.ledger ∧
      custody'.control.gatesSinceCheck = custody.control.gatesSinceCheck) :
    RecordsCounted me config start done now custody' rounds := by
  rcases hverified with hverified | ⟨hledger, hgates⟩
  · exact .of_allVerified hreaches hverified h.quiet
  · refine ⟨hreaches, ?_, ?_, h.quiet⟩
    · rw [hledger, hgates]
      exact h.length_le
    · rw [hgates]
      exact h.counted_le

theorem releaseVerified
    (h : RecordsCounted me config start done now (Evaluator.custodyPart.get evaluator) evaluator.rounds) :
    RecordsCounted me config start done now (Evaluator.custodyPart.get evaluator.releaseVerified)
      evaluator.releaseVerified.rounds := by
  obtain ⟨hcustody, hrounds⟩ := evaluator.dealings_releaseVerified
  rw [hcustody, hrounds]
  exact h

theorem count {custody' : Custody Schedule} {rounds' : RoundBuffer}
    (h : RecordsCounted me config start done past custody rounds)
    (hreaches : (Schedule.controller config).Reaches me start now custody')
    (hrecords : custody'.ledger.length ≤ custody.ledger.length + batch.length)
    (hgates : custody'.control.gatesSinceCheck =
      custody.control.gatesSinceCheck + batch.length.toUInt64)
    (hlength : (done ++ batch).length < 2 ^ 64) (hquiet : rounds'.Quiet) :
    RecordsCounted me config start (done ++ batch) now custody' rounds' := by
  have hsum : custody'.control.gatesSinceCheck.toNat =
      custody.control.gatesSinceCheck.toNat + batch.length := by
    have hcounted := h.counted_le
    rw [List.length_append] at hlength
    have hcount : batch.length.toUInt64.toNat = batch.length := Nat.mod_eq_of_lt (by omega)
    rw [hgates, UInt64.toNat_add, hcount, Nat.mod_eq_of_lt (by omega)]
  refine ⟨hreaches, ?_, ?_, hquiet⟩
  · rw [hsum]
    exact hrecords.trans (Nat.add_le_add_right h.length_le _)
  · rw [hsum, List.length_append]
    exact Nat.add_le_add_right h.counted_le _

theorem meets_runBatch
    (h : RecordsCounted me config start done past (Evaluator.custodyPart.get evaluator) evaluator.rounds)
    (hstart : start.control.gatesSinceCheck ≤ config.macCheckThreshold)
    (hbatch : done ++ batch <+: stream) (hstream : stream.length < 2 ^ 64)
    (hlength : batch.length ≤ config.maxBatchSize.toNat) :
    (Evaluator.runBatch (.standard me config) batch).Meets
      ((Terms.limited me config start).contract id fun _ now evaluator =>
        RecordsCounted me config start (done ++ batch) now (Evaluator.custodyPart.get evaluator)
          evaluator.rounds) past evaluator := by
  have htaken := h.inner (some (.taken batch.length))
  have hbefore := @Controller.Reaches.meets_hook me config start _
    { evaluator with taken := evaluator.taken + batch.length } _ _ htaken.reaches
    (.beforeBatch (batch.map Gate.revealsOutput)) (Schedule.meets_beforeBatch_cleared _)
    (h.limited hstart).2
  refine .record_bind (h.limited hstart) (hbefore.bind_terms ?_)
  rintro _ past₂ _ ⟨custody, rfl, hreaches₂, hverified₂⟩
  have h₂ : RecordsCounted me config start done past₂ custody evaluator.rounds :=
    h.beforeBatch hreaches₂ hverified₂
  have hroom : custody.ledger.length + batch.length ≤ config.recordLimit :=
    Nat.add_le_add (h₂.length_le.trans (h₂.gatesSinceCheck_le hstart)) hlength
  have hprocess := @Controller.Reaches.meets_process me config start _
    (Evaluator.load (.standard me config) batch (Evaluator.custodyPart.set
      { evaluator with taken := evaluator.taken + batch.length } custody)) batch
    (h₂.inner none).reaches rfl (RoundBuffer.quiet_start _ _) hroom
  refine .modify_bind (limited h₂ hstart) (hprocess.bind_terms ?_)
  rintro _ past₄ evaluator₄ ⟨hreaches₄, hcontrol, hquiet, hentered⟩
  have hafter := hreaches₄.meets_hook (.afterBatch batch.length)
    (Schedule.meets_afterBatch_cleared _) (hentered.trans hroom)
  refine hafter.bind_terms ?_
  rintro _ past₅ _ ⟨custody', rfl, hreaches₅, hverified₅⟩
  have h₅ : RecordsCounted me config start (done ++ batch) past₅ custody' evaluator₄.rounds := by
    rcases hverified₅ with hverified | ⟨hledger, hgates, -⟩
    · exact .of_allVerified hreaches₅ hverified hquiet
    · have hledger : custody'.ledger.length ≤ custody.ledger.length + batch.length := by
        rw [hledger]
        exact hentered
      have hgates : custody'.control.gatesSinceCheck =
          custody.control.gatesSinceCheck + batch.length.toUInt64 := by
        rw [hgates]
        exact congrArg (·.gatesSinceCheck + _) hcontrol
      exact h₂.count hreaches₅ hledger hgates (hbatch.length_le.trans_lt hstream) hquiet
  let finished := (Evaluator.custodyPart.set evaluator₄ custody').finishBatch
  have h₆ : RecordsCounted me config start (done ++ batch) (past₅ ++ [Move.inner none])
      (Evaluator.custodyPart.get finished) finished.rounds := h₅.inner none
  exact ⟨limited h₅ hstart, h₆.releaseVerified.limited hstart, h₆.releaseVerified⟩

theorem batchInvariant (hstart : start.control.gatesSinceCheck ≤ config.macCheckThreshold)
    (hstream : stream.length < 2 ^ 64) :
    Evaluator.BatchInvariant (.limited me config start) (.standard me config) stream
      (RecordsCounted me config start) fun _ => True where
  during _ h := h.limited hstart
  pause _ h := h.inner _
  abort _ _ h := ⟨h.1.mono (List.prefix_append ..), h.2⟩
  batch h hbatch hlength := h.meets_runBatch hstart hbatch hstream hlength
  finish {_ past evaluator} h _ := by
    refine (h.reaches.meets_hook .afterEvaluation Schedule.meets_verifyLedger_cleared
      (h.limited hstart).2).mono_terms ?_
    rintro _ now _ ⟨custody, rfl, hreaches, hverified⟩
    exact ⟨.of_allVerified hreaches hverified h.quiet, trivial⟩

end RecordsCounted

/-! ## All calls -/

theorem Config.recordLimit_le (hconfig : config.validate = .ok ()) :
    config.recordLimit ≤ 2 * config.macCheckThreshold.toNat := by
  have hbatch : config.maxBatchSize ≤ config.macCheckThreshold := by
    unfold validate at hconfig
    split at hconfig
    · cases hconfig
    · split at hconfig
      · cases hconfig
      · next hle => exact UInt64.not_lt.mp hle
  rw [recordLimit, Nat.two_mul]
  exact Nat.add_le_add_left (UInt64.le_iff_toNat_le.mp hbatch) _

/-- When a hook has returned, the controller counts no more gates than the threshold. At every
moment of all calls the controller has come there by hooks that have returned, or one has not
returned yet; and the ledger holds no more records than the threshold and a batch together, which is
at most twice the threshold. -/
theorem unverified_bounded (hconfig : config.validate = .ok ()) (me : Party) (generator : Source)
    (calls : List (List CircuitGate)) (hcalls : calls.flatten.length < 2 ^ 64) :
    let start : Player Schedule CircuitGate Board := { evaluator := .start .start generator .empty }
    let first := Evaluator.custodyPart.get start.evaluator
    (∀ past custody, (Schedule.controller config).Reaches me first past custody →
      custody.control.gatesSinceCheck ≤ config.macCheckThreshold) ∧
    (∀ moves actor, Path ⟨Player.playCalls (.standard me config) calls, start⟩ moves actor →
      (Schedule.controller config).ReachesDuringHooks me first moves
        (Evaluator.custodyPart.get actor.state.evaluator) ∧
      actor.state.evaluator.ledger.length ≤
        config.macCheckThreshold.toNat + config.maxBatchSize.toNat) ∧
    config.macCheckThreshold.toNat + config.maxBatchSize.toNat ≤
      2 * config.macCheckThreshold.toNat := by
  intro start first
  have hfirst : first.control.gatesSinceCheck ≤ config.macCheckThreshold :=
    UInt64.le_iff_toNat_le.mpr (Nat.zero_le _)
  have hcounted : RecordsCounted me config first [] [] first start.evaluator.rounds :=
    .of_allVerified .start ⟨rfl, rfl⟩ (RoundBuffer.quiet_start _ _)
  have hstart : start.BatchInvariantHolds (.limited me config first) (RecordsCounted me config first)
      (fun _ => True) [] [] :=
    ⟨hcounted.limited hfirst, fun _ => hcounted, fun _ => nofun⟩
  have hmeets := (RecordsCounted.batchInvariant hfirst hcalls).meets_playCalls
    (Config.maxBatchSize_pos hconfig) hstart (List.prefix_refl _)
  refine ⟨fun _ _ => Schedule.gatesSinceCheck_le hfirst, fun moves actor hpath => ?_,
    Config.recordLimit_le hconfig⟩
  exact (hmeets.path hpath fun _ _ => trivial).during

/-- The first of two parties opens the value 4 modulo 7 with a threshold of one gate. It has a run
to the end, and never more than two records. -/
theorem unverified_bounded_two :
    let table : Table :=
      ⟨2, ⟨.ofNat 7, by decide⟩, fun i => .ofNat (i + 1), by decide, by decide⟩
    let deal : Deal := ⟨1, .ofNat 4, fun i => ⟨.ofNat (4 * i), .ofNat (i + 2)⟩⟩
    let config : Config := ⟨1, 1, 128, 1024⟩
    let calls : List (List CircuitGate) := [[.output (deal.opening 0 false)]]
    let run : Actor (Player Schedule CircuitGate Board) Unit :=
      ⟨Player.playCalls (.standard (table.party 0) config) calls,
        { evaluator := .start .start default .empty }⟩
    config.validate = .ok () ∧ calls.flatten.length < 2 ^ 64 ∧
      (∃ moves final summary, Path run moves ⟨.pure (), final⟩ ∧
        final.outcome = some (.ok summary)) ∧
      ∀ moves actor, Path run moves actor → actor.state.evaluator.ledger.length ≤ 2 := by
  intro table deal config calls run
  have hvalid : deal.Valid table := ⟨by decide, by decide, by decide +kernel⟩
  have hconfig : config.validate = .ok () := by decide
  have hrun := exists_path_output hconfig hvalid Source.draws_default 0
  have hlength : calls.flatten.length < 2 ^ 64 := by decide
  obtain ⟨-, hmoments, -⟩ := unverified_bounded hconfig (table.party 0) default calls hlength
  exact ⟨hconfig, hlength, hrun, fun moves actor hpath => (hmoments moves actor hpath).2⟩

end Backlog
end AuthenticatedMpc
