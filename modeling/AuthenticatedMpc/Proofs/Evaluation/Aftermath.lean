import AuthenticatedMpc.Proofs.Evaluation.Audit
import AuthenticatedMpc.Proofs.Runs.Parts
import AuthenticatedMpc.Simulation.Keeper

/-!
# Calls after an error

A check takes its records with it, also when it fails. A controller that is called again after an
error has every record either in its ledger or in one of its checks; and a check that has not passed
has failed with the error that the call which ran it has returned.
-/

namespace AuthenticatedMpc

/-! ## Calls in any order -/

def ScheduleCall.appended? : ScheduleCall → Option Record
  | append record => some record
  | _ => none

/-- A call that has returned: what it has done, and its result. -/
structure ServedCall where
  call : ScheduleCall
  moves : List Move
  outcome : Except Error Unit

abbrev CallLog := List ServedCall

namespace CallLog

def moves (log : CallLog) : List Move := log.flatMap ServedCall.moves

def appended (log : CallLog) : List Record := log.filterMap fun entry => entry.call.appended?

/-- The check of the given place was begun by a call of the log. Its program ended with an error,
with which that call returned. -/
def FailedIn (me : Party) (config : Config) (log : CallLog) (k : Nat) : Prop :=
  ∃ (before after : CallLog) (call : ScheduleCall) (front during : List Move) (number : UInt64)
      (records : List Record) (error : Error),
    log = before ++ ⟨call, front ++ .inner (some (.checking number records)) :: during,
      .error error⟩ :: after ∧
    (checksIn (before.moves ++ front)).length = k ∧
    ∃ start final : Verifier, start.check = MacCheck.start number records me.modulus config ∧
      Path ⟨Verifier.execute me, start⟩ during ⟨.fail error, final⟩

variable {me : Party} {config : Config} {log : CallLog} {entry : ServedCall} {k : Nat}

@[simp] theorem moves_append (log more : CallLog) : (log ++ more).moves = log.moves ++ more.moves :=
  List.flatMap_append

@[simp] theorem moves_singleton (entry : ServedCall) : CallLog.moves [entry] = entry.moves :=
  List.flatMap_singleton ..

@[simp] theorem appended_append (log more : CallLog) :
    (log ++ more).appended = log.appended ++ more.appended := List.filterMap_append

theorem FailedIn.append (h : log.FailedIn me config k) (more : CallLog) :
    FailedIn me config (log ++ more) k := by
  obtain ⟨before, after, call, front, during, number, records, error, rfl, hcheck⟩ := h
  exact ⟨before, after ++ more, call, front, during, number, records, error, by simp, hcheck⟩

theorem FailedIn.exists_error (h : log.FailedIn me config k) :
    ∃ entry ∈ log, ∃ error, entry.outcome = .error error := by
  obtain ⟨before, after, call, front, during, number, records, error, rfl, -⟩ := h
  exact ⟨_, List.mem_append_right _ (List.mem_cons_self ..), error, rfl⟩

/-- A call that returns without an error is not the one in which a check failed. -/
theorem FailedIn.of_concat_ok (h : FailedIn me config (log ++ [entry]) k)
    (hok : entry.outcome = .ok ()) : log.FailedIn me config k := by
  obtain ⟨before, after, call, front, during, number, records, error, hlog, hcheck⟩ := h
  rcases List.eq_nil_or_concat after with rfl | ⟨rest, last, rfl⟩
  · obtain ⟨-, hentry⟩ := List.append_inj' hlog rfl
    cases hentry
    cases hok
  · rw [List.concat_eq_append, ← List.cons_append, ← List.append_assoc] at hlog
    obtain ⟨rfl, -⟩ := List.append_inj' hlog rfl
    exact ⟨before, rest, call, front, during, number, records, error, rfl, hcheck⟩

end CallLog

/-- What comes of calls of a party's controller, whatever the transport does. A call is made whether
or not those before it have returned errors. -/
inductive Served (me : Party) (config : Config) (start : Custody Schedule) :
    CallLog → Custody Schedule → Prop
  | start : Served me config start [] start
  | call {log : CallLog} {moves : List Move} {custody custody' : Custody Schedule}
      (call : ScheduleCall) {outcome : Except Error Unit}
      (served : Served me config start log custody)
      (path : Path ⟨call.program me (Schedule.controller config), custody⟩ moves
        ⟨.ofExcept outcome, custody'⟩) :
      Served me config start (log ++ [⟨call, moves, outcome⟩]) custody'

variable {me : Party} {config : Config} {past now moves : List Move} {records : List Record}
  {custody custody' start : Custody Schedule} {outcome : Except Error Unit}

/-! ## What a hook does -/

namespace Schedule

/-- What a hook does from its call to its end: it may check all records of the ledger, and it ends
with the error of a check that fails. -/
inductive HookRun (me : Party) (config : Config) (custody : Custody Schedule) :
    List Move → Except Error Unit → Custody Schedule → Prop
  | idle {moves : List Move} (hsilent : Silent moves) (gatesSinceCheck : UInt64)
      (checkPending : Bool) :
      HookRun me config custody moves (.ok ())
        { custody with control := { custody.control with gatesSinceCheck, checkPending } }
  | passed {front during back : List Move} {verifier final : Verifier} (hfront : Silent front)
      (hback : Silent back) (gatesSinceCheck : UInt64) (checkPending : Bool)
      (hcheck : verifier.check = MacCheck.start custody.control.checksPerformed
        custody.ledger.records me.modulus config)
      (path : Path ⟨Verifier.execute me, verifier⟩ during ⟨.pure (), final⟩) :
      HookRun me config custody
        (front ++ .inner (some (.checking custody.control.checksPerformed
            custody.ledger.records)) :: during ++
          .inner (some (.verified custody.control.checksPerformed)) :: back) (.ok ())
        ⟨⟨gatesSinceCheck, checkPending, custody.control.checksPerformed + 1⟩, .empty, final⟩
  | failed {front during : List Move} {verifier final : Verifier} {error : Error}
      (hfront : Silent front) (gatesSinceCheck : UInt64) (checkPending : Bool)
      (hcheck : verifier.check = MacCheck.start custody.control.checksPerformed
        custody.ledger.records me.modulus config)
      (path : Path ⟨Verifier.execute me, verifier⟩ during ⟨.fail error, final⟩) :
      HookRun me config custody
        (front ++ .inner (some (.checking custody.control.checksPerformed
          custody.ledger.records)) :: during) (.error error)
        ⟨⟨gatesSinceCheck, checkPending, custody.control.checksPerformed + 1⟩, .empty, final⟩

namespace HookRun

theorem silent_front {gatesSinceCheck : UInt64} {checkPending : Bool}
    (h : HookRun me config
      { custody with control := { custody.control with gatesSinceCheck, checkPending } } moves
      outcome custody') : HookRun me config custody (.inner none :: moves) outcome custody' := by
  cases h with
  | idle hsilent gates isPending => exact .idle hsilent.cons gates isPending
  | passed hfront hback gates isPending hcheck path =>
    exact .passed hfront.cons hback gates isPending hcheck path
  | failed hfront gates isPending hcheck path =>
    exact .failed hfront.cons gates isPending hcheck path

theorem silent_back (h : HookRun me config custody moves (.ok ()) custody')
    (gatesSinceCheck : UInt64) (checkPending : Bool) :
    HookRun me config custody (moves ++ [Move.inner none]) (.ok ())
      { custody' with control := { custody'.control with gatesSinceCheck, checkPending } } := by
  have hlast : Silent [.inner none] := Silent.nil.cons
  cases h with
  | idle hsilent gates isPending => exact .idle (hsilent.append hlast) _ _
  | passed hfront hback gates isPending hcheck path =>
    have h := HookRun.passed hfront (hback.append hlast) gatesSinceCheck checkPending hcheck path
    simpa using h

end HookRun

theorem hookRun_conclude (h : Path ⟨conclude me custody.control.checksPerformed,
      beginCheck me config custody⟩ moves ⟨.ofExcept outcome, custody'⟩) :
    HookRun me config custody
      (.inner (some (.checking custody.control.checksPerformed custody.ledger.records)) :: moves)
      outcome custody' ∧ custody'.ledger.records = [] := by
  rcases h.ended_of_bind with ⟨error, rfl, hexecute⟩ | ⟨during, back, _, t, rfl, hexecute, hmark⟩
  · obtain ⟨final, rfl, hpath⟩ := hexecute.ended_of_zoom
    exact ⟨.failed Silent.nil custody.control.gatesSinceCheck custody.control.checkPending rfl
      hpath, rfl⟩
  · obtain ⟨final, rfl, hpath⟩ := hexecute.ended_of_zoom
    obtain ⟨rest, rfl, hend⟩ := Path.ended_of_step hmark
    obtain ⟨rfl, rfl, rfl⟩ := hend.ended_of_pure
    exact ⟨.passed Silent.nil Silent.nil custody.control.gatesSinceCheck
      custody.control.checkPending rfl hpath, rfl⟩

theorem hookRun_verifyLedger
    (h : Path ⟨verifyLedger config me, custody⟩ moves ⟨.ofExcept outcome, custody'⟩) :
    HookRun me config custody moves outcome custody' ∧ custody'.ledger.records = [] := by
  obtain ⟨_, rfl, hreset⟩ := h.ended_of_modify_bind
  obtain ⟨_, rfl, hget⟩ := hreset.ended_of_get_bind
  suffices hrun : HookRun me config (reset custody) _ outcome custody' ∧
      custody'.ledger.records = [] from
    ⟨HookRun.silent_front (HookRun.silent_front hrun.1), hrun.2⟩
  split at hget
  · next hempty =>
    obtain ⟨rfl, rfl, rfl⟩ := hget.ended_of_pure
    exact ⟨.idle Silent.nil _ _, (Ledger.isEmpty_iff _).mp hempty⟩
  · obtain ⟨_, rfl, hconclude⟩ := hget.ended_of_record_bind
    exact hookRun_conclude hconclude

theorem hookRun_of_isHook {hook : Program (Custody Schedule) Unit}
    (hhook : (controller config).IsHook me hook)
    (h : Path ⟨hook, custody⟩ moves ⟨.ofExcept outcome, custody'⟩) :
    HookRun me config custody moves outcome custody' := by
  cases hhook with
  | afterEvaluation => exact (hookRun_verifyLedger h).1
  | afterBatch count =>
    obtain ⟨_, rfl, hcount⟩ := Path.ended_of_modify_bind h
    obtain ⟨_, rfl, hget⟩ := hcount.ended_of_get_bind
    suffices hrun : HookRun me config (countGates count custody) _ outcome custody' from
      HookRun.silent_front (HookRun.silent_front hrun)
    split at hget
    · exact (hookRun_verifyLedger hget).1
    · obtain ⟨rfl, rfl, rfl⟩ := hget.ended_of_pure
      exact .idle Silent.nil _ _
  | beforeBatch reveals =>
    obtain ⟨_, rfl, hget⟩ := Path.ended_of_get_bind h
    suffices hrun : HookRun me config custody _ outcome custody' from HookRun.silent_front hrun
    split at hget
    · rcases hget.ended_of_bind with ⟨error, rfl, hfail⟩ | ⟨front, back, _, t, rfl, hverify, hset⟩
      · exact (hookRun_verifyLedger hfail).1
      · obtain ⟨rest, rfl, hend⟩ := Path.ended_of_step hset
        obtain ⟨rfl, rfl, rfl⟩ := hend.ended_of_pure
        exact (hookRun_verifyLedger hverify).1.silent_back _ _
    · obtain ⟨rest, rfl, hend⟩ := Path.ended_of_step hget
      obtain ⟨rfl, rfl, rfl⟩ := hend.ended_of_pure
      exact .idle Silent.nil.cons _ _

end Schedule

/-! ## Records that a failed check has taken -/

/-- Between calls the records of all checks and then those of the ledger are what the log has
recorded; each check has passed, or the call that ran it has returned its error. -/
structure ChecksAccounted (me : Party) (config : Config) (log : CallLog) (records : List Record) :
    Prop where
  balance : (checksIn log.moves).flatMap Prod.snd ++ records = log.appended
  settled : ∀ k < (checksIn log.moves).length,
    Passed me config log.moves k ∨ log.FailedIn me config k

theorem Silent.checksIn_eq_nil (h : Silent moves) : checksIn moves = [] :=
  List.filterMap_eq_nil_iff.mpr fun move hmove => by
    rw [h move hmove]
    rfl

theorem checksIn_execute {start final : Verifier} {program : Program Verifier Unit}
    (h : Path ⟨Verifier.execute me, start⟩ moves ⟨program, final⟩) : checksIn moves = [] :=
  have hvigilant : (Verifier.execute me).Vigilant Event.IsEvaluating :=
    Verifier.vigilant_execute fun phase place round => ⟨phase, place, round, rfl⟩
  (hvigilant.still h []).checks_eq

namespace ChecksAccounted

variable {log : CallLog} {entry : ServedCall} {records' : List Record}

theorem settled_append (h : ChecksAccounted me config log records) (more : CallLog) {k : Nat}
    (hk : k < (checksIn log.moves).length) :
    Passed me config (log ++ more).moves k ∨ CallLog.FailedIn me config (log ++ more) k := by
  rcases h.settled k hk with hpassed | hfailed
  · refine .inl (hpassed.mono ?_)
    rw [CallLog.moves_append]
    exact List.prefix_append ..
  · exact .inr (hfailed.append more)

theorem unchecked (h : ChecksAccounted me config log records) (hnone : checksIn entry.moves = [])
    (hrecords : records' = records ++ entry.call.appended?.toList) :
    ChecksAccounted me config (log ++ [entry]) records' := by
  have hchecks : checksIn (log ++ [entry]).moves = checksIn log.moves := by
    rw [CallLog.moves_append, CallLog.moves_singleton, checksIn_append, hnone, List.append_nil]
  refine ⟨?_, fun k hk => h.settled_append [entry] (by rwa [hchecks] at hk)⟩
  rw [hchecks, hrecords, ← List.append_assoc, h.balance, CallLog.appended_append]
  cases hcall : entry.call.appended? <;> simp [CallLog.appended, hcall]

theorem checked (h : ChecksAccounted me config log records) (hcall : entry.call.appended? = none)
    (number : UInt64) (hchecks : checksIn entry.moves = [(number, records)])
    (hlast : Passed me config (log ++ [entry]).moves (checksIn log.moves).length ∨
      CallLog.FailedIn me config (log ++ [entry]) (checksIn log.moves).length) :
    ChecksAccounted me config (log ++ [entry]) [] := by
  have hmoves : checksIn (log ++ [entry]).moves = checksIn log.moves ++ [(number, records)] := by
    rw [CallLog.moves_append, CallLog.moves_singleton, checksIn_append, hchecks]
  refine ⟨?_, fun k hk => ?_⟩
  · rw [hmoves, List.flatMap_append, List.flatMap_singleton, List.append_nil, h.balance,
      CallLog.appended_append]
    simp [CallLog.appended, hcall]
  · rw [hmoves, List.length_append, List.length_singleton] at hk
    rcases Nat.lt_succ_iff_lt_or_eq.mp hk with hlt | rfl
    · exact h.settled_append [entry] hlt
    · exact hlast

/-- A hook keeps the account, and its error stands for its check if that fails. -/
theorem hook (h : ChecksAccounted me config log custody.ledger.records)
    (hrun : Schedule.HookRun me config custody moves outcome custody') (call : ScheduleCall)
    (hcall : call.appended? = none) :
    ChecksAccounted me config (log ++ [⟨call, moves, outcome⟩]) custody'.ledger.records := by
  have hplace : ∀ {front : List Move}, Silent front →
      (checksIn (log.moves ++ front)).length = (checksIn log.moves).length := fun hfront => by
    rw [checksIn_append, hfront.checksIn_eq_nil, List.append_nil]
  cases hrun with
  | idle hsilent =>
    refine h.unchecked hsilent.checksIn_eq_nil ?_
    simp [hcall]
  | @passed front during back verifier final hfront hback _ _ hcheck path =>
    refine h.checked hcall custody.control.checksPerformed ?_ (.inl ?_)
    · rw [checksIn_append, checksIn_append, hfront.checksIn_eq_nil, List.nil_append]
      change (_ :: checksIn during) ++ checksIn back = _
      rw [checksIn_execute path, hback.checksIn_eq_nil, List.append_nil]
    · refine ⟨log.moves ++ front, custody.control.checksPerformed, custody.ledger.records, during,
        back, by simp, hplace hfront, verifier, final, hcheck, path⟩
  | @failed front during verifier final error hfront _ _ hcheck path =>
    refine h.checked hcall custody.control.checksPerformed ?_ (.inr ?_)
    · rw [checksIn_append, hfront.checksIn_eq_nil, List.nil_append]
      change _ :: checksIn during = _
      rw [checksIn_execute path]
    · exact ⟨log, [], call, front, during, custody.control.checksPerformed, custody.ledger.records,
        error, rfl, hplace hfront, verifier, final, hcheck, path⟩

end ChecksAccounted

theorem Served.checksAccounted {log : CallLog} (hstart : start.ledger.records = [])
    (served : Served me config start log custody) :
    ChecksAccounted me config log custody.ledger.records := by
  induction served with
  | start => exact ⟨hstart, nofun⟩
  | @call log moves custody custody' call outcome served path ih =>
    have hhook : ∀ {hook : Program (Custody Schedule) Unit},
        (Schedule.controller config).IsHook me hook →
        Path ⟨hook, custody⟩ moves ⟨.ofExcept outcome, custody'⟩ → call.appended? = none →
        ChecksAccounted me config (log ++ [⟨call, moves, outcome⟩]) custody'.ledger.records :=
      fun hhook path hcall => ih.hook (Schedule.hookRun_of_isHook hhook path) call hcall
    cases call with
    | append record =>
      obtain ⟨rest, rfl, hend⟩ := Path.ended_of_step path
      obtain ⟨rfl, rfl, rfl⟩ := hend.ended_of_pure
      exact ih.unchecked rfl rfl
    | beforeBatch reveals => exact hhook (.beforeBatch reveals) path rfl
    | afterBatch count => exact hhook (.afterBatch count) path rfl
    | afterEvaluation => exact hhook .afterEvaluation path rfl

theorem Served.last {log : CallLog} {call : ScheduleCall}
    (served : Served me config start (log ++ [⟨call, moves, outcome⟩]) custody) :
    ∃ before, Path ⟨call.program me (Schedule.controller config), before⟩ moves
      ⟨.ofExcept outcome, custody⟩ := by
  generalize hlog : log ++ [ServedCall.mk call moves outcome] = whole at served
  cases served with
  | start => simp at hlog
  | call call served path =>
    obtain ⟨-, heq⟩ := List.append_inj' hlog rfl
    cases heq
    exact ⟨_, path⟩

/-- When the last hook returns without an error, every value recorded before has been taken by a
check, once and in its order. Each check has passed, unless the call that ran it has returned its
error; so if no call before has returned an error, every value is covered. -/
theorem Served.covered_or_failed {log : CallLog} {last : List Move}
    (hstart : start.ledger.records = [])
    (served : Served me config start (log ++ [⟨.afterEvaluation, last, .ok ()⟩]) custody) :
    custody.ledger.records = [] ∧
      (checksIn (log.moves ++ last)).flatMap Prod.snd = log.appended ∧
      (∀ k < (checksIn (log.moves ++ last)).length,
        Passed me config (log.moves ++ last) k ∨ log.FailedIn me config k) ∧
      ((∀ entry ∈ log, entry.outcome = .ok ()) →
        ∀ record ∈ log.appended, Covered me (log.moves ++ last) record) := by
  have h := served.checksAccounted hstart
  obtain ⟨before, hlast⟩ := served.last
  have hempty : custody.ledger.records = [] := (Schedule.hookRun_verifyLedger hlast).2
  have hmoves : CallLog.moves (log ++ [⟨.afterEvaluation, last, .ok ()⟩]) = log.moves ++ last := by
    simp
  have hbalance : (checksIn (log.moves ++ last)).flatMap Prod.snd = log.appended := by
    have hall := h.balance
    rw [hempty, List.append_nil, hmoves, CallLog.appended_append] at hall
    exact hall.trans (List.append_nil _)
  have hsettled : ∀ k < (checksIn (log.moves ++ last)).length,
      Passed me config (log.moves ++ last) k ∨ log.FailedIn me config k := by
    intro k hk
    rw [← hmoves] at hk
    exact (h.settled k hk).imp (by rw [hmoves]; exact id) (·.of_concat_ok rfl)
  refine ⟨hempty, hbalance, hsettled, fun hlog record hrecord => ?_⟩
  rw [← hbalance] at hrecord
  refine covered_of_forall_passed
    (fun k hk => (hsettled k hk).resolve_right fun hfailed => ?_) hrecord
  obtain ⟨entry, hentry, error, herror⟩ := hfailed.exists_error
  rw [hlog entry hentry] at herror
  cases herror

theorem Schedule.HookRun.verified_notMem {error : Error}
    (h : Schedule.HookRun me config custody moves (.error error) custody') (number : UInt64) :
    .inner (some (.verified number)) ∉ moves := by
  cases h with
  | @failed front during verifier final error hfront _ _ hcheck path =>
    have hvigilant : (Verifier.execute me).Vigilant Event.IsEvaluating :=
      Verifier.vigilant_execute fun phase place round => ⟨phase, place, round, rfl⟩
    intro hmem
    rcases List.mem_append.mp hmem with hsilent | hmem
    · cases hfront _ hsilent
    · rcases List.mem_cons.mp hmem with heq | hduring
      · cases heq
      · obtain ⟨_, _, _, heq⟩ := hvigilant.forall_event path _ hduring
        cases heq

/-- The first of two parties records a value, and then cannot send the messages of its check. A
second attempt finds nothing to check. -/
theorem exists_served_failed :
    let me : Party := ⟨0, 2, ⟨.ofNat 7, by decide⟩, .ofNat 2, by decide, by decide, by decide⟩
    let record : Record := ⟨.ofNat 3, .ofNat 5⟩
    ∃ (log : CallLog) (last : List Move) (custody : Custody Schedule),
      Served me .standard ⟨.start, .empty, .idle default⟩
        (log ++ [⟨.afterEvaluation, last, .ok ()⟩]) custody ∧
      log.appended = [record] ∧
      ∀ number, .inner (some (.verified number)) ∉ log.moves ++ last := by
  intro me record
  let recorded : Custody Schedule := ⟨.start, ⟨[record]⟩, .idle default⟩
  have hrefused : (Actor.refuse .connectionClosed 100
      ⟨Schedule.verifyLedger .standard me, recorded⟩).2.program.failure? =
        some (.network .connectionClosed) := by
    decide +kernel
  obtain ⟨moves, final, hfail⟩ := Path.exists_fail hrefused
  obtain ⟨hrun, hempty⟩ := Schedule.hookRun_verifyLedger hfail
  have hagain : Path ⟨Schedule.verifyLedger .standard me, final⟩ [.inner none, .inner none]
      ⟨.ofExcept (.ok ()), Schedule.reset final⟩ := by
    have hisEmpty : (Schedule.reset final).ledger.isEmpty = true :=
      (Ledger.isEmpty_iff _).mpr hempty
    refine .head (.inner ..) (.head (.inner ..) ?_)
    simp only [id_eq, Program.pure_bind, if_pos hisEmpty]
    exact .refl _
  have hrecord : Path ⟨(ScheduleCall.append record).program me (Schedule.controller .standard),
      ⟨.start, .empty, .idle default⟩⟩ [.inner (some (.opened record))]
      ⟨.ofExcept (.ok ()), recorded⟩ :=
    .head (.inner ..) (.refl _)
  have served := ((Served.start.call _ hrecord).call .afterEvaluation hfail).call .afterEvaluation
    hagain
  refine ⟨_, _, _, served, rfl, fun number hmem => ?_⟩
  have hmoves := hrun.verified_notMem number
  simp_all [CallLog.moves]

/-- A failed check has taken the value with it. -/
theorem covered_or_failed_of_refused :
    let me : Party := ⟨0, 2, ⟨.ofNat 7, by decide⟩, .ofNat 2, by decide, by decide, by decide⟩
    let record : Record := ⟨.ofNat 3, .ofNat 5⟩
    let start : Custody Schedule := ⟨.start, .empty, .idle default⟩
    start.ledger.records = [] ∧ ∃ (log : CallLog) (last : List Move) (custody : Custody Schedule),
      Served me .standard start (log ++ [⟨.afterEvaluation, last, .ok ()⟩]) custody ∧
      log.appended = [record] ∧ custody.ledger.records = [] ∧
      (checksIn (log.moves ++ last)).flatMap Prod.snd = [record] ∧
      ∀ k < (checksIn (log.moves ++ last)).length,
        Passed me .standard (log.moves ++ last) k ∨ log.FailedIn me .standard k := by
  intro me record start
  obtain ⟨log, last, custody, served, happended, -⟩ := exists_served_failed
  obtain ⟨hempty, hbalance, hsettled, -⟩ := served.covered_or_failed rfl
  exact ⟨rfl, log, last, custody, served, happended, hempty, hbalance.trans happended, hsettled⟩

/-- After a check that has failed, an evaluation may end without an error although a value has never
been in a check that has passed. -/
theorem not_covered_of_refused :
    let me : Party := ⟨0, 2, ⟨.ofNat 7, by decide⟩, .ofNat 2, by decide, by decide, by decide⟩
    let record : Record := ⟨.ofNat 3, .ofNat 5⟩
    let start : Custody Schedule := ⟨.start, .empty, .idle default⟩
    ∃ (log : CallLog) (last : List Move) (custody : Custody Schedule),
      Served me .standard start (log ++ [⟨.afterEvaluation, last, .ok ()⟩]) custody ∧
      record ∈ log.appended ∧ ¬Covered me (log.moves ++ last) record := by
  intro me record start
  obtain ⟨log, last, custody, served, happended, hverified⟩ := exists_served_failed
  refine ⟨log, last, custody, served, happended ▸ List.mem_singleton_self record, ?_⟩
  rintro ⟨front, number, records, during, back, heq, -⟩
  exact hverified number (by simp [heq])

end AuthenticatedMpc
