import AuthenticatedMpc.Proofs.Evaluation.Timetable
import AuthenticatedMpc.Proofs.MacCheck.Acting

/-!
# The forecast of an evaluation

All that a party does towards its peers, but for the check values, can be told before it begins: it
follows from the configuration, the modulus, the generator, the kinds of the gates and the shares of the
values that they open. A forecast computes it from these, and the acts of a party under the veil are those
of its forecast, as far as the packets of its peers let it come.
-/

namespace AuthenticatedMpc

/-! ## Gates -/

/-- What a forecast is told of a gate: its kind, and the share of the value that it opens. -/
inductive GateView where
  | opening (value : Element)
  | output (value : Element)
  | compute (revealsOutput : Bool)
deriving DecidableEq, Repr

namespace GateView

def kind : GateView → GateKind
  | opening _ => .opening
  | output _ => .output
  | compute revealsOutput => .compute revealsOutput

def message? : GateView → Option Payload
  | opening value | output value => some (Modulus.encode value)
  | compute _ => none

end GateView

theorem Opening.meets_evaluate_zero {me : Party} {script : List Act} {past : List Move}
    {desk : Desk Board} {opening : Opening} (hscript : actsOf past <+: script) :
    (opening.evaluate me 0).Meets ((Terms.acting script).contract Desk.board fun result now desk' =>
      result = (opening, .moreRounds) ∧ actsOf now = actsOf past ∧
        desk'.rounds = desk.rounds.postAll me.id (Modulus.encode opening.share.value)) past desk := by
  have hposted : actsOf (past ++ [Move.inner none]) <+: script := by rwa [actsOf_inner]
  exact ⟨hscript, hposted, rfl, actsOf_inner none, rfl⟩

theorem Opening.meets_evaluate_one {me : Party} {phase : Phase} {base script : List Act}
    {past : List Move} {desk : Desk Board} {opening : Opening}
    (h : Attending me phase base [] past desk.rounds) (hscript : base ++ me.peers.map .take <+: script) :
    (opening.evaluate me 1).Meets ((Terms.acting script).contract Desk.board fun result now desk' =>
      result.2 = .done ∧ Hearing me phase base me.peers now desk'.rounds) past desk := by
  rw [evaluate, if_neg Nat.one_ne_zero]
  refine (h.meets_gather hscript).bind_terms ?_
  intro value now desk' hhearing
  have hnow : actsOf now <+: script := by rwa [hhearing.acts]
  have hrecorded := hhearing.congr (actsOf_inner (some (.opened ⟨value, opening.share.mac⟩))) rfl
  exact .record_bind hnow ⟨by rwa [← actsOf_inner] at hnow, rfl, hrecorded⟩

theorem LocalGate.meets_evaluate_acting {script : List Act} {past : List Move} {desk : Desk Board}
    {gate : LocalGate} (hscript : actsOf past <+: script) :
    gate.evaluate.Meets ((Terms.acting script).contract Desk.board fun _ now desk' =>
      actsOf now = actsOf past ∧ desk' = desk) past desk := by
  have hseen : actsOf (past ++ [Move.inner none]) <+: script := by rwa [actsOf_inner]
  refine .get_bind hscript ?_
  change Program.Meets _ (Program.ofExcept (gate.act (desk.board :: gate.seen)) >>= _) _ _
  cases gate.act (desk.board :: gate.seen) with
  | ok status => exact ⟨hseen, actsOf_inner none, rfl⟩
  | error error => exact ⟨hseen, trivial⟩

namespace CircuitGate

def view : CircuitGate → GateView
  | opening gate => .opening gate.share.value
  | output gate => .output gate.share.value
  | compute gate => .compute gate.revealsOutput

@[simp] theorem kind_view (gate : CircuitGate) : gate.view.kind = gate.kind := by
  cases gate <;> rfl

@[simp] theorem map_kind_view (gates : List CircuitGate) :
    (gates.map view).map GateView.kind = gates.map kind := by
  rw [List.map_map]
  exact List.map_congr_left fun gate _ => gate.kind_view

theorem voices (me : Party) : Gate.Voices (W := Board) me fun gate : CircuitGate => gate.view.message? where
  silent {gate round script past desk} hmessage hscript := by
    cases gate with
    | opening | output => cases hmessage
    | compute gate =>
      refine (LocalGate.meets_evaluate_acting hscript).bind_terms ?_
      rintro _ now _ ⟨hacts, rfl⟩
      exact ⟨by rwa [← hacts] at hscript, rfl, hacts, rfl⟩
  post {gate payload script past desk} hmessage hscript := by
    cases gate with
    | opening gate =>
      cases hmessage
      refine (Opening.meets_evaluate_zero hscript).bind_terms ?_
      rintro _ now desk' ⟨rfl, hacts, hrounds⟩
      have hnow : actsOf now <+: script := by rwa [hacts]
      have hacts' : actsOf (now ++ [Move.inner none]) = actsOf past := by rw [actsOf_inner, hacts]
      exact .modify_bind hnow ⟨by rwa [← actsOf_inner] at hnow, rfl, rfl, hacts', hrounds⟩
    | output gate =>
      cases hmessage
      refine (Opening.meets_evaluate_zero hscript).bind_terms ?_
      rintro _ now desk' ⟨rfl, hacts, hrounds⟩
      exact ⟨by rwa [← hacts] at hscript, rfl, rfl, hacts, hrounds⟩
    | compute => cases hmessage
  read {gate payload phase base script past desk} hmessage h hscript := by
    cases gate with
    | opening gate =>
      refine (Opening.meets_evaluate_one h hscript).bind_terms ?_
      rintro ⟨gate, _⟩ now desk' ⟨rfl, hhearing⟩
      have hnow : actsOf now <+: script := by rwa [hhearing.acts]
      exact .modify_bind hnow
        ⟨by rwa [← actsOf_inner] at hnow, rfl, hhearing.congr (actsOf_inner none) rfl⟩
    | output gate =>
      refine (Opening.meets_evaluate_one h hscript).bind_terms ?_
      rintro ⟨gate, _⟩ now desk' ⟨rfl, hhearing⟩
      exact ⟨by rwa [← hhearing.acts] at hscript, rfl, hhearing⟩
    | compute => cases hmessage

end CircuitGate

/-! ## Forecasts -/

/-- A timetable, with the generator of the party and its acts so far under the veil. -/
structure Forecast where
  table : Timetable := {}
  generator : Source
  acts : List Act := []

namespace Forecast

section Computing

variable (peers : List PartyId) (p : Modulus) (config : Config)

/-- Verifying the ledger. A check draws from the generator, and the draws are all that is said of it. -/
def verify (forecast : Forecast) : Forecast :=
  let verified := { forecast with table := forecast.table.verify }
  if forecast.table.unverified = 0 then verified
  else
    match p.drawCheck forecast.generator with
    -- If the draws have no end then neither has the check.
    | none => verified
    | some (draws, generator) =>
      { verified with
        generator
        acts := forecast.acts ++ Verifier.recital peers forecast.table.checks.toUInt64 draws }

def openBatch (views : List GateView) (forecast : Forecast) : Forecast :=
  { forecast with
    table := forecast.table.openBatch (views.map GateView.kind)
    acts := forecast.acts ++
      utterance peers ⟨.circuit forecast.table.batches.toUInt64, views.filterMap GateView.message?⟩ }

def verifyIf (due : Bool) (forecast : Forecast) : Forecast :=
  if due then forecast.verify peers p else forecast

def runBatch (forecast : Forecast) (views : List GateView) : Forecast :=
  let reveals := (views.map GateView.kind).any GateKind.revealsOutput
  let forecast := (forecast.verifyIf peers p reveals).openBatch peers views
  forecast.verifyIf peers p
    (reveals || decide (config.macCheckThreshold < forecast.table.gates.toUInt64))

def evaluate (forecast : Forecast) (views : List GateView) : Forecast :=
  ((batches config.maxBatchSize.toNat views).foldl (runBatch peers p config) forecast).verify peers p

def script (source : Source) (calls : List (List GateView)) : List Act :=
  (calls.foldl (evaluate peers p config) { generator := source }).acts

end Computing

variable {peers : List PartyId} {p : Modulus} {config : Config} {forecast : Forecast}
  {views : List GateView} {due : Bool}

@[simp] theorem table_verify : (forecast.verify peers p).table = forecast.table.verify := by
  unfold verify
  split
  · rfl
  · split <;> rfl

@[simp] theorem table_verifyIf : (forecast.verifyIf peers p due).table = forecast.table.verifyIf due := by
  cases due with
  | false => rfl
  | true => exact table_verify

theorem table_openBatch :
    (forecast.openBatch peers views).table = forecast.table.openBatch (views.map GateView.kind) := rfl

theorem verify_reset : verify peers p { forecast with table := { forecast.table with gates := 0 } } =
    forecast.verify peers p := by
  have htable : Timetable.verify { forecast.table with gates := 0 } = forecast.table.verify := rfl
  unfold verify
  rw [htable]

@[simp] theorem table_runBatch : (forecast.runBatch peers p config views).table =
    forecast.table.runBatch config (views.map GateView.kind) := by
  rw [runBatch, Timetable.runBatch, table_verifyIf, table_openBatch, table_verifyIf]

@[simp] theorem table_foldl {config : Config} (batches : List (List GateView)) :
    (batches.foldl (runBatch peers p config) forecast).table =
      (batches.map (List.map GateView.kind)).foldl (Timetable.runBatch config) forecast.table := by
  induction batches generalizing forecast with
  | nil => rfl
  | cons views batches ih => rw [List.foldl_cons, ih, table_runBatch, List.map_cons, List.foldl_cons]

@[simp] theorem table_evaluate : (forecast.evaluate peers p config views).table =
    forecast.table.evaluate config (views.map GateView.kind) := by
  rw [evaluate, table_verify, table_foldl, ← batches_map, Timetable.evaluate]

/-! ### What has been forecast stays -/

theorem acts_prefix_verify : forecast.acts <+: (forecast.verify peers p).acts := by
  unfold verify
  split
  · exact List.prefix_refl _
  · split
    · exact List.prefix_refl _
    · exact List.prefix_append ..

theorem acts_prefix_verifyIf : forecast.acts <+: (forecast.verifyIf peers p due).acts := by
  cases due with
  | false => exact List.prefix_refl _
  | true => exact acts_prefix_verify

theorem acts_prefix_openBatch : forecast.acts <+: (forecast.openBatch peers views).acts :=
  List.prefix_append ..

theorem acts_prefix_foldl {α : Type} {next : Forecast → α → Forecast}
    (h : ∀ forecast a, forecast.acts <+: (next forecast a).acts) (l : List α) :
    forecast.acts <+: (l.foldl next forecast).acts := by
  induction l generalizing forecast with
  | nil => exact List.prefix_refl _
  | cons a l ih => exact (h forecast a).trans ih

theorem acts_prefix_runBatch : forecast.acts <+: (forecast.runBatch peers p config views).acts :=
  acts_prefix_verifyIf.trans (acts_prefix_openBatch.trans acts_prefix_verifyIf)

theorem acts_prefix_evaluate : forecast.acts <+: (forecast.evaluate peers p config views).acts :=
  (acts_prefix_foldl (fun _ _ => acts_prefix_runBatch) _).trans acts_prefix_verify

/-! ## Hooks -/

/-- The moves of a party and its custody are as the forecast says. -/
structure MatchesCustody (forecast : Forecast) (me : Party) (moves : List Move)
    (custody : Custody Schedule) :
    Prop extends forecast.table.MatchesCustody me moves custody where
  recited : Recited me 0 forecast.acts moves
  generator_eq : custody.verifier.generator = forecast.generator

section Hooks

variable {me : Party} {script : List Act} {past : List Move} {custody custody' : Custody Schedule}

theorem MatchesCustody.silent (h : forecast.MatchesCustody me past custody) {event : Option Event}
    (hchecks : custody'.control.checksPerformed = custody.control.checksPerformed)
    (hgates : custody'.control.gatesSinceCheck = custody.control.gatesSinceCheck)
    (hledger : custody'.ledger = custody.ledger)
    (hgenerator : custody'.verifier.generator = custody.verifier.generator) :
    forecast.MatchesCustody me (past ++ [Move.inner event]) custody' where
  toMatchesCustody := h.toMatchesCustody.silent hchecks hgates hledger
  recited := h.recited.inner event
  generator_eq := hgenerator.trans h.generator_eq

theorem MatchesCustody.meets_check (h : forecast.MatchesCustody me past custody)
    (hrecords : custody.ledger.records ≠ [])
    (hscript : (forecast.verify me.peers me.modulus).acts <+: script) :
    (Verifier.execute me).Meets (.reciting script fun _ now verifier =>
      Recited me 0 (forecast.verify me.peers me.modulus).acts now ∧
        verifier.generator = (forecast.verify me.peers me.modulus).generator) past
      (Schedule.beginCheck me config custody).verifier := by
  have hfresh : Verifier.Fresh me (Schedule.beginCheck me config custody).verifier.check :=
    Verifier.fresh_start hrecords
  have hsome : forecast.table.unverified ≠ 0 := by
    rw [← h.unverified]
    exact mt List.length_eq_zero_iff.mp hrecords
  have hbegun : (Schedule.beginCheck me config custody).verifier.generator = forecast.generator :=
    h.generator_eq
  cases hdraw : me.modulus.drawCheck forecast.generator with
  | none =>
    -- The check waits for its first draw and says nothing.
    have hforever : me.modulus.draw (Schedule.beginCheck me config custody).verifier.generator = none := by
      rw [hbegun, Option.eq_none_iff_forall_ne_some]
      rintro ⟨own, source⟩ hown
      obtain ⟨draws, source', hdrawn⟩ := Modulus.exists_drawCheck hown
      cases hdraw.symm.trans hdrawn
    have hnow : veil (actsOf past) <+: script := h.recited.during (acts_prefix_verify.trans hscript)
    refine hfresh.meets_execute_of_draw_eq_none hforever hnow ?_
    intro past hpast
    change veil _ <+: script
    rwa [actsOf_inner]
  | some drawn =>
    obtain ⟨draws, source⟩ := drawn
    have hverify : forecast.verify me.peers me.modulus =
        { table := forecast.table.verify
          generator := source
          acts := forecast.acts ++
            Verifier.recital me.peers forecast.table.checks.toUInt64 draws } := by
      rw [verify, if_neg hsome, hdraw]
    have hexecute := @Verifier.Fresh.meets_execute_reciting me _ _ past
      (Schedule.beginCheck me config custody).verifier source draws hfresh (by rwa [hbegun]) h.recited rfl
    rw [show (Schedule.beginCheck me config custody).verifier.check.number =
      forecast.table.checks.toUInt64 from h.checks] at hexecute
    rw [hverify] at hscript ⊢
    exact (hexecute.reciting_mono hscript).mono_terms fun _ now verifier hsaid =>
      ⟨⟨hsaid.1.veil_eq, hsaid.1.countP_eq⟩, hsaid.2⟩

theorem MatchesCustody.meets_verifyLedger (h : forecast.MatchesCustody me past custody)
    (hscript : (forecast.verify me.peers me.modulus).acts <+: script) :
    (Schedule.verifyLedger config me).Meets (.reciting script fun _ =>
      (forecast.verify me.peers me.modulus).MatchesCustody me) past custody := by
  have hwithin : forecast.acts <+: script := acts_prefix_verify.trans hscript
  let started : Forecast := { forecast with table := { forecast.table with gates := 0 } }
  have hreset : started.MatchesCustody me (past ++ [Move.inner none]) (Schedule.reset custody) :=
    ⟨{ h.toMatchesCustody.silent rfl rfl rfl with gates := rfl }, h.recited.inner none, h.generator_eq⟩
  have hnow : started.MatchesCustody me (past ++ [Move.inner none] ++ [Move.inner none])
      (Schedule.reset custody) :=
    hreset.silent rfl rfl rfl rfl
  have hrecites : (Schedule.verifyLedger config me).Meets (.reciting script fun _ now custody' =>
      Recited me 0 (forecast.verify me.peers me.modulus).acts now ∧
        custody'.verifier.generator = (forecast.verify me.peers me.modulus).generator) past custody := by
    refine .modify_bind (h.recited.during hwithin) (.get_bind (hreset.recited.during hwithin) ?_)
    split
    · next hempty =>
      have hnone : forecast.table.unverified = 0 := by
        rw [← h.unverified, show custody.ledger.records = [] from (Ledger.isEmpty_iff _).mp hempty]
        rfl
      rw [verify, if_pos hnone]
      exact ⟨hnow.recited.during hwithin, hnow.recited, hnow.generator_eq⟩
    · next hsome =>
      have hrecords : (Schedule.reset custody).ledger.records ≠ [] := fun hnil =>
        hsome ((Ledger.isEmpty_iff _).mpr hnil)
      have hchecking : started.MatchesCustody me (past ++ [Move.inner none] ++ [Move.inner none] ++
          [Move.inner (some (.checking custody.control.checksPerformed custody.ledger.records))])
          (Schedule.reset custody) := hnow.silent rfl rfl rfl rfl
      rw [← verify_reset] at hscript ⊢
      have hexecute : ((Verifier.execute me).zoom Custody.verifierPart).Meets
          (.reciting script fun _ now custody' =>
            Recited me 0 (started.verify me.peers me.modulus).acts now ∧
              custody'.verifier.generator = (started.verify me.peers me.modulus).generator)
          _ (Schedule.beginCheck me config (Schedule.reset custody)) :=
        .zoom (hchecking.meets_check hrecords hscript)
      refine .record_bind (hnow.recited.during hwithin) (hexecute.bind_terms ?_)
      rintro _ now custody' ⟨hrecited, hgenerator⟩
      have hend := hrecited.inner (some (.verified custody.control.checksPerformed))
      exact ⟨hrecited.during hscript, hend.during hscript, hend, hgenerator⟩
  have hboth := hrecites.and_paths (Q := fun _ => forecast.table.verify.MatchesCustody me)
    fun _ _ _ hpath => (h.toMatchesCustody.verifyLedger hpath).1
  refine hboth.mono_terms ?_
  rintro _ now custody' ⟨⟨hrecited, hgenerator⟩, hmatches⟩
  rw [← @table_verify me.peers me.modulus] at hmatches
  exact ⟨hmatches, hrecited, hgenerator⟩

theorem MatchesCustody.meets_beforeBatch (h : forecast.MatchesCustody me past custody)
    (hpending : custody.control.checkPending = false) {reveals : List Bool}
    (hscript : (forecast.verifyIf me.peers me.modulus (reveals.any id)).acts <+: script) :
    (Schedule.beforeBatch config me reveals).Meets (.reciting script fun _ now custody' =>
      (forecast.verifyIf me.peers me.modulus (reveals.any id)).MatchesCustody me now custody' ∧
        custody'.control.checkPending = reveals.any id) past custody := by
  have hwithin : forecast.acts <+: script := acts_prefix_verifyIf.trans hscript
  have hnow :
      forecast.MatchesCustody me (past ++ [Move.inner none]) custody := h.silent rfl rfl rfl rfl
  refine .get_bind (h.recited.during hwithin) ?_
  rw [hpending, Bool.or_false]
  split
  · next hreveals =>
    rw [verifyIf, if_pos hreveals] at hscript ⊢
    refine (hnow.meets_verifyLedger hscript).bind_terms ?_
    intro _ now custody' hmatches
    have hset : (forecast.verify me.peers me.modulus).MatchesCustody me (now ++ [Move.inner none])
        (Schedule.setPending (reveals.any id) custody') := hmatches.silent rfl rfl rfl rfl
    exact ⟨hmatches.recited.during hscript, hset.recited.during hscript, hset, rfl⟩
  · next hreveals =>
    have hset : forecast.MatchesCustody me (past ++ [Move.inner none] ++ [Move.inner none])
        (Schedule.setPending (reveals.any id) custody) := hnow.silent rfl rfl rfl rfl
    rw [verifyIf, if_neg hreveals]
    exact ⟨hnow.recited.during hwithin, hset.recited.during hwithin, hset, rfl⟩

/-- The forecast once the gates of a batch are done, before they are counted. -/
def opened (peers : List PartyId) (views : List GateView) (forecast : Forecast) : Forecast :=
  { forecast.openBatch peers views with
    table := { forecast.table.openBatch (views.map GateView.kind) with gates := forecast.table.gates } }

theorem MatchesCustody.meets_process (h : forecast.MatchesCustody me past custody)
    {batch : List CircuitGate}
    {desk : Desk Board} (hledger : desk.ledger = custody.ledger)
    (hrounds : desk.rounds = .start (.circuit forecast.table.batches.toUInt64) me.parties)
    (hscript : (forecast.openBatch me.peers (batch.map CircuitGate.view)).acts <+: script) :
    (Bench.process me).Meets (.reciting script fun _ now bench =>
      (forecast.opened me.peers (batch.map CircuitGate.view)).MatchesCustody me now
        { custody with ledger := bench.desk.ledger }) past
      ⟨batch.map fun gate => ⟨gate, false⟩, desk⟩ := by
  let packet : Packet :=
    ⟨.circuit forecast.table.batches.toUInt64, batch.filterMap fun gate => gate.view.message?⟩
  -- None of the packets belongs to a check, so the veil leaves them as they are.
  have hcheck : ∀ act ∈ utterance me.peers packet, ∀ peer, act.isCheckTo peer = false := by
    unfold utterance
    split
    · exact fun act hact => nomatch hact
    · exact fun act => isCheckTo_of_mem_speech
  have hacts : (forecast.openBatch me.peers (batch.map CircuitGate.view)).acts =
      forecast.acts ++ utterance me.peers packet := by
    rw [openBatch, List.filterMap_map]
    rfl
  have hprocess := @Bench.meets_process_acting _ _ _ me (fun gate : CircuitGate => gate.view.message?) _
    _ past desk batch (CircuitGate.voices me) hrounds (List.prefix_refl _)
  have hrecites : (Bench.process me).Meets (.reciting script fun _ now _ =>
      Recited me 0 (forecast.opened me.peers (batch.map CircuitGate.view)).acts now) past
      ⟨batch.map fun gate => ⟨gate, false⟩, desk⟩ := by
    refine hprocess.mono (fun now _ hnow => ?_) (fun _ now _ _ hnow => ?_) fun _ _ _ _ => id
    · have hveil := isPrefix_veil hnow
      rw [h.recited.veil_append hcheck, ← hacts] at hveil
      exact hveil.trans hscript
    · have hrecited := h.recited.append hcheck hnow
      rwa [← hacts] at hrecited
  have hboth := hrecites.and_paths (Q := fun _ now bench =>
    Timetable.MatchesCustody
      { forecast.table.openBatch (batch.map CircuitGate.kind) with gates := forecast.table.gates } me now
      { custody with ledger := bench.desk.ledger })
    fun _ _ _ hpath => h.toMatchesCustody.process hledger hrounds hpath
  refine hboth.mono_terms ?_
  rintro _ now bench ⟨hrecited, hmatches⟩
  rw [← CircuitGate.map_kind_view] at hmatches
  exact ⟨hmatches, hrecited, h.generator_eq⟩

theorem MatchesCustody.meets_afterBatch
    (h : (forecast.opened me.peers views).MatchesCustody me past custody)
    (hpending : custody.control.checkPending = due)
    (hscript : (verifyIf me.peers me.modulus
      (due || decide (config.macCheckThreshold < (forecast.openBatch me.peers views).table.gates.toUInt64))
      (forecast.openBatch me.peers views)).acts <+: script) :
    (Schedule.afterBatch config me views.length).Meets (.reciting script fun _ =>
      (verifyIf me.peers me.modulus
        (due || decide (config.macCheckThreshold < (forecast.openBatch me.peers views).table.gates.toUInt64))
        (forecast.openBatch me.peers views)).MatchesCustody me) past custody := by
  let counted := forecast.openBatch me.peers views
  have hgates : counted.table.gates = forecast.table.gates + views.length :=
    congrArg (forecast.table.gates + ·) (List.length_map _)
  have hcount : counted.MatchesCustody me (past ++ [Move.inner none])
      (Schedule.countGates views.length custody) :=
    ⟨{ h.toMatchesCustody.silent rfl rfl rfl with
        gates := by
          rw [hgates, Timetable.toUInt64_add]
          exact congrArg (· + views.length.toUInt64) h.gates }, h.recited.inner none, h.generator_eq⟩
  have hnow : counted.MatchesCustody me (past ++ [Move.inner none] ++ [Move.inner none])
      (Schedule.countGates views.length custody) := hcount.silent rfl rfl rfl rfl
  have hwithin : counted.acts <+: script := acts_prefix_verifyIf.trans hscript
  have hdue : Schedule.checkRequired (Schedule.countGates views.length custody).control.gatesSinceCheck
      config.macCheckThreshold (Schedule.countGates views.length custody).control.checkPending =
      (due || decide (config.macCheckThreshold < counted.table.gates.toUInt64)) := by
    rw [hnow.gates, ← hpending]
    rfl
  refine .modify_bind (h.recited.during hwithin) (.get_bind (hcount.recited.during hwithin) ?_)
  rw [hdue]
  split
  · next hrequired =>
    rw [verifyIf, if_pos hrequired] at hscript ⊢
    exact hnow.meets_verifyLedger hscript
  · next hrequired =>
    rw [verifyIf, if_neg hrequired]
    exact ⟨hnow.recited.during hwithin, hnow⟩

end Hooks

/-! ## Evaluations -/

/-- Between batches, a party is as the forecast says. -/
structure MatchesEvaluator (forecast : Forecast) (me : Party) (moves : List Move)
    (evaluator : Evaluator Schedule CircuitGate Board) : Prop
    extends forecast.table.MatchesEvaluator me moves evaluator where
  recited : Recited me 0 forecast.acts moves
  generator_eq : evaluator.verifier.generator = forecast.generator

section Evaluations

variable {me : Party} {script : List Act} {past : List Move}
  {evaluator : Evaluator Schedule CircuitGate Board}

theorem MatchesEvaluator.inner (h : forecast.MatchesEvaluator me past evaluator)
    {event : Option Event} :
    forecast.MatchesEvaluator me (past ++ [Move.inner event]) evaluator :=
  ⟨⟨h.toMatchesCustody.silent rfl rfl rfl, h.batches, h.pending⟩, h.recited.inner event, h.generator_eq⟩

theorem MatchesEvaluator.matchesCustody (h : forecast.MatchesEvaluator me past evaluator) :
    forecast.MatchesCustody me past (Evaluator.custodyPart.get evaluator) :=
  ⟨h.toMatchesCustody, h.recited, h.generator_eq⟩

@[simp] theorem generator_releaseVerified :
    evaluator.releaseVerified.verifier.generator = evaluator.verifier.generator := by
  unfold Evaluator.releaseVerified
  split <;> rfl

/-- A program whose runs keep to the timetable, and which recites what is forecast. -/
theorem meets_matchesEvaluator {α : Type} {program : Program (Evaluator Schedule CircuitGate Board) α}
    (hrecites : program.Meets (.reciting script fun _ now e =>
      Recited me 0 forecast.acts now ∧ e.verifier.generator = forecast.generator) past evaluator)
    (htable : ∀ moves value e, Path ⟨program, evaluator⟩ moves ⟨.pure value, e⟩ →
      forecast.table.MatchesEvaluator me (past ++ moves) e) :
    program.Meets (.reciting script fun _ => forecast.MatchesEvaluator me) past evaluator := by
  have hboth := hrecites.and_paths (Q := fun _ => forecast.table.MatchesEvaluator me) htable
  refine hboth.mono_terms ?_
  rintro _ now e ⟨⟨hrecited, hgenerator⟩, hmatches⟩
  exact ⟨hmatches, hrecited, hgenerator⟩

theorem MatchesCustody.meets_loaded
    (h : forecast.MatchesCustody me past (Evaluator.custodyPart.get evaluator))
    (hbatches : evaluator.batches = forecast.table.batches.toUInt64) {batch : List CircuitGate}
    (hscript : (forecast.openBatch me.peers (batch.map CircuitGate.view)).acts <+: script) :
    ((Bench.process me).zoom Evaluator.benchPart).Meets (.reciting script fun _ now e =>
      (forecast.opened me.peers (batch.map CircuitGate.view)).MatchesCustody me now
        (Evaluator.custodyPart.get e) ∧
          e.control.checkPending = evaluator.control.checkPending) (past ++ [Move.inner none])
      (Evaluator.load (.standard me config) batch evaluator) := by
  have hloaded : forecast.MatchesCustody me (past ++ [Move.inner none])
      (Evaluator.custodyPart.get evaluator) :=
    h.silent rfl rfl rfl rfl
  refine .zoom ((hloaded.meets_process rfl ?_ hscript).mono_terms ?_)
  · rw [← hbatches]
    rfl
  · exact fun _ now bench hmatches => ⟨hmatches, rfl⟩

theorem MatchesEvaluator.recites_runBatch (h : forecast.MatchesEvaluator me past evaluator)
    {batch : List CircuitGate}
    (hscript : (forecast.runBatch me.peers me.modulus config (batch.map CircuitGate.view)).acts <+: script) :
    (Evaluator.runBatch (.standard me config) batch).Meets (.reciting script fun _ now e =>
      Recited me 0 (forecast.runBatch me.peers me.modulus config (batch.map CircuitGate.view)).acts now ∧
        e.verifier.generator =
          (forecast.runBatch me.peers me.modulus config (batch.map CircuitGate.view)).generator) past
      evaluator := by
  let reveals := ((batch.map CircuitGate.view).map GateView.kind).any GateKind.revealsOutput
  let verified := forecast.verifyIf me.peers me.modulus reveals
  have hreveals : (batch.map Gate.revealsOutput).any id = reveals := by
    simp [reveals, List.any_map, Function.comp_def, CircuitGate.revealsOutput_kind]
  -- Whatever comes first in the forecast is still within the script.
  have hopened : (verified.openBatch me.peers (batch.map CircuitGate.view)).acts <+: script :=
    acts_prefix_verifyIf.trans hscript
  have hverified : verified.acts <+: script := acts_prefix_openBatch.trans hopened
  have htaken : forecast.MatchesCustody me (past ++ [Move.inner (some (.taken batch.length))])
      (Evaluator.custodyPart.get evaluator) := h.matchesCustody.silent rfl rfl rfl rfl
  have hbefore : ((Schedule.beforeBatch config me (batch.map Gate.revealsOutput)).zoom
      Evaluator.custodyPart).Meets (.reciting script fun _ now e =>
        verified.MatchesCustody me now (Evaluator.custodyPart.get e) ∧ e.control.checkPending = reveals ∧
          e.batches = evaluator.batches) (past ++ [Move.inner (some (.taken batch.length))])
      { evaluator with taken := evaluator.taken + batch.length } := by
    refine .zoom ((htaken.meets_beforeBatch h.pending (hreveals ▸ hverified)).mono_terms ?_)
    rw [hreveals]
    rintro _ now custody ⟨hmatches, hpending⟩
    exact ⟨hmatches, hpending, rfl⟩
  refine .record_bind (h.recited.during (acts_prefix_verifyIf.trans hverified)) (hbefore.bind_terms ?_)
  rintro _ past₂ evaluator₂ ⟨h₂, hpending₂, hbatches₂⟩
  have hbatches : evaluator₂.batches = verified.table.batches.toUInt64 := by
    rw [table_verifyIf, Timetable.batches_verifyIf, ← h.batches, hbatches₂]
  refine .modify_bind (h₂.recited.during hverified) ((h₂.meets_loaded hbatches hopened).bind_terms ?_)
  rintro _ past₃ evaluator₃ ⟨h₃, hpending₃⟩
  have hafter : ((Schedule.afterBatch config me batch.length).zoom Evaluator.custodyPart).Meets
      (.reciting script fun _ now e =>
        (forecast.runBatch me.peers me.modulus config (batch.map CircuitGate.view)).MatchesCustody me now
          (Evaluator.custodyPart.get e)) past₃ evaluator₃ := by
    rw [show batch.length = (batch.map CircuitGate.view).length from (List.length_map _).symm]
    exact .zoom (h₃.meets_afterBatch (hpending₃.trans hpending₂) hscript)
  refine hafter.bind_terms fun _ past₄ evaluator₄ h₄ => ?_
  have hend := h₄.recited.inner none
  exact ⟨h₄.recited.during hscript, hend.during hscript, hend,
    generator_releaseVerified.trans h₄.generator_eq⟩

theorem MatchesEvaluator.meets_runBatch (h : forecast.MatchesEvaluator me past evaluator)
    {batch : List CircuitGate}
    (hscript : (forecast.runBatch me.peers me.modulus config (batch.map CircuitGate.view)).acts <+: script) :
    (Evaluator.runBatch (.standard me config) batch).Meets (.reciting script fun _ =>
      (forecast.runBatch me.peers me.modulus config (batch.map CircuitGate.view)).MatchesEvaluator me) past
      evaluator := by
  refine meets_matchesEvaluator (h.recites_runBatch hscript) fun moves _ e hpath => ?_
  rw [table_runBatch, CircuitGate.map_kind_view]
  exact h.toMatchesEvaluator.runBatch hpath

theorem MatchesEvaluator.meets_runBatches (h : forecast.MatchesEvaluator me past evaluator)
    {batches : List (List CircuitGate)}
    (hscript : ((batches.map (List.map CircuitGate.view)).foldl (runBatch me.peers me.modulus config)
      forecast).acts <+: script) :
    (Evaluator.runBatches (.standard me config) batches).Meets (.reciting script fun _ =>
      ((batches.map (List.map CircuitGate.view)).foldl (runBatch me.peers me.modulus config)
        forecast).MatchesEvaluator me) past evaluator := by
  induction batches generalizing forecast past evaluator with
  | nil => exact ⟨h.recited.during hscript, h⟩
  | cons batch batches ih =>
    have hbatch : (forecast.runBatch me.peers me.modulus config (batch.map CircuitGate.view)).acts <+:
        script := (acts_prefix_foldl (fun _ _ => acts_prefix_runBatch) _).trans hscript
    exact (h.meets_runBatch hbatch).bind_terms fun _ _ _ hnext => ih hnext hscript

theorem MatchesEvaluator.recites_runStream (h : forecast.MatchesEvaluator me past evaluator)
    {gates : List CircuitGate}
    (hscript : (forecast.evaluate me.peers me.modulus config (gates.map CircuitGate.view)).acts <+: script) :
    (Evaluator.runStream (.standard me config) gates).Meets (.reciting script fun _ now e =>
      Recited me 0 (forecast.evaluate me.peers me.modulus config (gates.map CircuitGate.view)).acts now ∧
        e.verifier.generator =
          (forecast.evaluate me.peers me.modulus config (gates.map CircuitGate.view)).generator) past
      evaluator := by
  let run := (batches config.maxBatchSize.toNat (gates.map CircuitGate.view)).foldl
    (runBatch me.peers me.modulus config) forecast
  have hrun : run.acts <+: script := acts_prefix_verify.trans hscript
  have hwithin : forecast.acts <+: script := acts_prefix_evaluate.trans hscript
  have hbegin : forecast.MatchesEvaluator me (past ++ [Move.inner none]) evaluator.begin :=
    ⟨⟨h.toMatchesCustody.silent rfl rfl rfl, h.batches, h.pending⟩, h.recited.inner none, h.generator_eq⟩
  have hbatches := @MatchesEvaluator.meets_runBatches config forecast me script _ _ hbegin
    (batches config.maxBatchSize.toNat gates)
  rw [← batches_map] at hbatches
  refine .modify_bind (h.recited.during hwithin) ((hbatches hrun).bind_terms ?_)
  intro _ past₂ evaluator₂ h₂
  have hverify : ((Schedule.verifyLedger config me).zoom Evaluator.custodyPart).Meets
      (.reciting script fun _ now e => (run.verify me.peers me.modulus).MatchesCustody me now
        (Evaluator.custodyPart.get e)) past₂ evaluator₂ :=
    .zoom (h₂.matchesCustody.meets_verifyLedger hscript)
  refine hverify.bind_terms fun _ past₃ evaluator₃ h₃ => ?_
  have hnow := h₃.recited.inner none
  have hend := hnow.inner none
  exact .modify_bind (h₃.recited.during hscript) (.get_bind (hnow.during hscript)
    ⟨hend.during hscript, hend, generator_releaseVerified.trans h₃.generator_eq⟩)

theorem MatchesEvaluator.meets_runStream (h : forecast.MatchesEvaluator me past evaluator)
    {gates : List CircuitGate}
    (hscript : (forecast.evaluate me.peers me.modulus config (gates.map CircuitGate.view)).acts <+: script) :
    (Evaluator.runStream (.standard me config) gates).Meets (.reciting script fun _ =>
      (forecast.evaluate me.peers me.modulus config (gates.map CircuitGate.view)).MatchesEvaluator me) past
      evaluator := by
  refine meets_matchesEvaluator (h.recites_runStream hscript) fun moves _ e hpath => ?_
  rw [table_evaluate, CircuitGate.map_kind_view]
  exact h.toMatchesEvaluator.runStream hpath

theorem MatchesEvaluator.meets_evaluate (h : forecast.MatchesEvaluator me past evaluator)
    {gates : List CircuitGate}
    (hscript : (forecast.evaluate me.peers me.modulus config (gates.map CircuitGate.view)).acts <+: script) :
    (Evaluator.evaluate (.standard me config) gates).Meets
      { during := fun now _ => veil (actsOf now) <+: script
        returns := fun _ =>
          (forecast.evaluate me.peers me.modulus config (gates.map CircuitGate.view)).MatchesEvaluator me
        fails := fun _ _ e => e.aborted ≠ none } past evaluator := by
  have hwithin : forecast.acts <+: script := acts_prefix_evaluate.trans hscript
  have hnow : forecast.MatchesEvaluator me (past ++ [Move.inner none]) evaluator := h.inner
  refine .get_bind (h.recited.during hwithin) ?_
  cases haborted : evaluator.aborted with
  | some error => exact ⟨hnow.recited.during hwithin, by simp [haborted]⟩
  | none =>
    refine .attempt_bind ((hnow.meets_runStream hscript).mono (fun _ _ => id) ?_ ?_)
    · exact fun summary now e hduring hmatches => ⟨hduring, hmatches⟩
    · intro error now e hduring _
      have hkept : veil (actsOf (now ++ [Move.inner none])) <+: script := by rwa [actsOf_inner]
      exact ⟨hduring, hkept, Option.some_ne_none error⟩

end Evaluations

/-! ## Calls -/

section Calls

variable {me : Party} {script : List Act} {past : List Move}
  {player : Player Schedule CircuitGate Board}

/-- After an error nothing is said, and no call returns anything else. -/
def HasFailed (player : Player Schedule CircuitGate Board) : Prop :=
  player.evaluator.aborted ≠ none ∧ ∃ error, player.outcome = some (.error error)

theorem meets_playCall {gates : List CircuitGate}
    {done : List Move → Evaluator Schedule CircuitGate Board → Prop}
    (hdone : ∀ {now evaluator event}, done now evaluator → done (now ++ [Move.inner event]) evaluator)
    (h : (Evaluator.evaluate (.standard me config) gates).Meets
      { during := fun now _ => veil (actsOf now) <+: script
        returns := fun _ => done
        fails := fun _ _ e => e.aborted ≠ none } past player.evaluator) :
    (Player.playCall (.standard me config) gates).Meets (.reciting script fun _ now player' =>
      veil (actsOf now) <+: script ∧ (done now player'.evaluator ∨ HasFailed player')) past player := by
  have hend : ∀ {outcome : Except Error Summary} {now : List Move}
      {player : Player Schedule CircuitGate Board}, veil (actsOf now) <+: script →
      (done now player.evaluator ∨ HasFailed { player with outcome := some outcome }) →
      (do Program.modify fun player => { player with outcome := some outcome }
          Program.mark .returned
          Program.modify fun player => { player with call := player.call + 1 } :
        Program (Player Schedule CircuitGate Board) Unit).Meets (.reciting script fun _ now player' =>
          veil (actsOf now) <+: script ∧ (done now player'.evaluator ∨ HasFailed player')) now player := by
    intro outcome now player hnow hready
    have hkept : veil (actsOf (now ++ [Move.inner none])) <+: script := by rwa [actsOf_inner]
    have hmarked : veil (actsOf (now ++ [Move.inner none] ++ [Move.inner (some .returned)])) <+: script := by
      rwa [actsOf_inner]
    have hcounted : veil (actsOf (now ++ [Move.inner none] ++ [Move.inner (some .returned)] ++
        [Move.inner none])) <+: script := by
      rwa [actsOf_inner]
    exact .modify_bind hnow (.mark_bind hkept ⟨hmarked, hcounted, hcounted,
      hready.imp_left fun h => hdone (hdone (hdone h))⟩)
  refine .attempt_bind (.zoom (h.mono (fun _ _ => id) ?_ ?_))
  · exact fun summary now e hnow hready => hend hnow (.inl hready)
  · exact fun error now e hnow haborted => hend hnow (.inr ⟨haborted, error, rfl⟩)

theorem HasFailed.meets_playCalls (h : HasFailed player) (hnow : veil (actsOf past) <+: script)
    {calls : List (List CircuitGate)} :
    (Player.playCalls (.standard me config) calls).Meets (.reciting script fun _ _ => HasFailed) past
      player := by
  induction calls generalizing past player with
  | nil => exact ⟨hnow, h⟩
  | cons gates calls ih =>
    obtain ⟨error, herror⟩ := Option.ne_none_iff_exists'.mp h.1
    have hfail : (Evaluator.evaluate (.standard me config) gates).Meets
        { during := fun now _ => veil (actsOf now) <+: script
          returns := fun _ _ _ => False
          fails := fun _ _ e => e.aborted ≠ none } past player.evaluator := by
      refine .get_bind hnow ?_
      rw [herror]
      exact ⟨by rwa [← actsOf_inner] at hnow, h.1⟩
    refine (meets_playCall False.elim hfail).bind_terms ?_
    rintro _ now player' ⟨hnow, hdone | hsilenced⟩
    · exact hdone.elim
    · exact ih hsilenced hnow

theorem MatchesEvaluator.meets_playCalls (h : forecast.MatchesEvaluator me past player.evaluator)
    {calls : List (List CircuitGate)}
    (hscript : ((calls.map (List.map CircuitGate.view)).foldl (evaluate me.peers me.modulus config)
      forecast).acts <+: script) :
    (Player.playCalls (.standard me config) calls).Meets (.reciting script fun _ now player' =>
      ((calls.map (List.map CircuitGate.view)).foldl (evaluate me.peers me.modulus config)
        forecast).MatchesEvaluator me now player'.evaluator ∨ HasFailed player') past player := by
  induction calls generalizing forecast past player with
  | nil => exact ⟨h.recited.during hscript, .inl h⟩
  | cons gates calls ih =>
    have hcall : (forecast.evaluate me.peers me.modulus config (gates.map CircuitGate.view)).acts <+:
        script := (acts_prefix_foldl (fun _ _ => acts_prefix_evaluate) _).trans hscript
    refine (meets_playCall (fun hdone => hdone.inner) (h.meets_evaluate hcall)).bind_terms ?_
    rintro _ now player' ⟨hnow, hnext | hsilenced⟩
    · exact ih hnext hscript
    · exact (hsilenced.meets_playCalls hnow).mono_terms fun _ _ _ => .inr

end Calls

end Forecast

/-- At every moment of calls, whatever the transport replies, the acts of the party under the veil are
those of the script as far as they come; and all of them if the calls have returned without an error. -/
theorem Player.veil_acts {me : Party} {config : Config} {source : Source}
    {calls : List (List CircuitGate)} {moves : List Move}
    {actor : Actor (Player Schedule CircuitGate Board) Unit}
    (hpath : Path ⟨playCalls (.standard me config) calls, { evaluator := .start .start source .empty }⟩
      moves actor) :
    let script := Forecast.script me.peers me.modulus config source (calls.map (List.map CircuitGate.view))
    veil (actsOf moves) <+: script ∧
      (actor.program = .pure () → (∀ error, actor.state.outcome ≠ some (.error error)) →
        veil (actsOf moves) = script) := by
  intro script
  have hstart :
      Forecast.MatchesEvaluator { generator := source } me [] (.start .start source .empty) :=
    ⟨⟨⟨fun _ _ => rfl, rfl, rfl, rfl⟩, rfl, rfl⟩, ⟨rfl, fun _ _ => rfl⟩, rfl⟩
  have hmeets := (hstart.meets_playCalls (List.prefix_refl script)).path hpath fun _ _ => trivial
  refine ⟨hmeets.during, ?_⟩
  intro hprogram hok
  rw [hprogram] at hmeets
  obtain hmatches | ⟨-, error, herror⟩ := hmeets.2
  · exact hmatches.recited.veil_eq
  · exact absurd herror (hok error)

end AuthenticatedMpc
