import AuthenticatedMpc.Proofs.Evaluation.Accounts
import AuthenticatedMpc.Proofs.Evaluation.Calls
import AuthenticatedMpc.Proofs.Evaluation.Journey

/-!
# The timetable of an evaluation

How many packets a party sends, in which phases, and how long their messages are, is public: it follows
from the configuration and the kinds of the gates. A timetable computes it from these alone, and calls
that return keep to it, whatever the shares, the keys, the generator and the packets of the peers are.
-/

namespace AuthenticatedMpc

/-- What is seen of a packet by those who cannot read its messages. -/
structure Outline where
  phase : Phase
  lengths : List Nat
deriving DecidableEq, Repr

def Packet.outline (packet : Packet) : Outline := ⟨packet.phase, packet.messages.map List.length⟩

/-- What is public of a gate. -/
inductive GateKind where
  | opening
  | output
  | compute (revealsOutput : Bool)
deriving DecidableEq, Repr

namespace GateKind

def opens : GateKind → Bool
  | opening | output => true
  | compute _ => false

def revealsOutput : GateKind → Bool
  | opening => false
  | output => true
  | compute revealsOutput => revealsOutput

end GateKind

namespace CircuitGate

def kind : CircuitGate → GateKind
  | opening _ => .opening
  | output _ => .output
  | compute gate => .compute gate.revealsOutput

theorem revealsOutput_kind (gate : CircuitGate) : gate.kind.revealsOutput = Gate.revealsOutput gate := by
  cases gate <;> rfl

theorem countP_opens_kind (gates : List CircuitGate) :
    (gates.map kind).countP GateKind.opens = (openings gates).length := by
  induction gates with
  | nil => rfl
  | cons gate gates ih =>
    rw [List.map_cons]
    cases gate with
    | opening | output =>
      rw [List.countP_cons_of_pos rfl, ih]
      rfl
    | compute =>
      rw [List.countP_cons_of_neg (by simp [kind, GateKind.opens]), ih]
      rfl

end CircuitGate

/-- How far the evaluations of a party have come, as far as all can know, and what was sent to each peer
so far. Numbers are put in packets and compared with the threshold as 64-bit words. -/
structure Timetable where
  /-- The number of batches so far, in all calls. -/
  batches : Nat := 0
  /-- The number of checks so far. -/
  checks : Nat := 0
  /-- The number of gates since the ledger was last verified. -/
  gates : Nat := 0
  /-- The number of values that were opened and not checked. -/
  unverified : Nat := 0
  sent : List Outline := []

namespace Timetable

/-- Verifying the ledger. However many values there are, a check of them takes a commitment and a reveal
for the combiner, and a commitment and a reveal for the sum of the check values; without values there is
no check. -/
def verify (table : Timetable) : Timetable :=
  if table.unverified = 0 then { table with gates := 0 }
  else
    { table with
      checks := table.checks + 1
      gates := 0
      unverified := 0
      sent := table.sent ++
        [32, 48, 32, 48].map fun length => ⟨.macCheck table.checks.toUInt64, [length]⟩ }

@[simp] theorem batches_verify (table : Timetable) : table.verify.batches = table.batches := by
  unfold verify
  split <;> rfl

/-- The gates of a batch. All its openings go out in one packet. -/
def openBatch (kinds : List GateKind) (table : Timetable) : Timetable :=
  let count := kinds.countP GateKind.opens
  { table with
    batches := table.batches + 1
    gates := table.gates + kinds.length
    unverified := table.unverified + count
    sent := table.sent ++
      if count = 0 then [] else [⟨.circuit table.batches.toUInt64, List.replicate count 16⟩] }

def verifyIf (due : Bool) (table : Timetable) : Timetable := if due then table.verify else table

@[simp] theorem batches_verifyIf (due : Bool) (table : Timetable) :
    (table.verifyIf due).batches = table.batches := by
  cases due <;> simp [verifyIf]

/-- A batch. The ledger is verified before and after a batch with an output, and after a batch with which
more gates have run than the threshold. -/
def runBatch (config : Config) (table : Timetable) (kinds : List GateKind) : Timetable :=
  let reveals := kinds.any GateKind.revealsOutput
  let table := (table.verifyIf reveals).openBatch kinds
  table.verifyIf (reveals || decide (config.macCheckThreshold < table.gates.toUInt64))

/-- A call: all batches of its gates, and at its end the ledger is verified. -/
def evaluate (config : Config) (table : Timetable) (kinds : List GateKind) : Timetable :=
  ((AuthenticatedMpc.batches config.maxBatchSize.toNat kinds).foldl (runBatch config) table).verify

/-- The packets that calls with gates of these kinds send to each peer. -/
def outlines (config : Config) (calls : List (List GateKind)) : List Outline :=
  (calls.foldl (evaluate config) {}).sent

end Timetable

/-! ## What the parts of an evaluation send -/

section Parts

variable {me : Party} {config : Config} {moves : List Move} {q : PartyId}

theorem outline_contributions (phase : Phase) (others : PartyId → Element × Nonce) (q : PartyId) :
    (contributions phase others).map (fun packets => (packets q).outline) =
      [⟨phase, [32]⟩, ⟨phase, [48]⟩] := by
  simp [contributions, Packet.outline, Commitment.length_reveal, Commitment.revealLength,
    Limbs.byteLength, (Commitment.commit ..).length_digest]

theorem Verifier.Fresh.outlines_execute {v v' : Verifier} (h : Fresh me v.check)
    (hpath : Path ⟨execute me, v⟩ moves ⟨.ofExcept (.ok ()), v'⟩) (hq : q ∈ me.peers) :
    (sentTo q (talkOf moves)).map Packet.outline =
      [32, 48, 32, 48].map fun length => ⟨.macCheck v.check.number, [length]⟩ := by
  have hmeets := @Fresh.meets_execute me v [] h
  obtain ⟨-, random, values, htalk, -⟩ := hmeets.path hpath fun _ _ => trivial
  rw [List.nil_append] at htalk
  rw [htalk, show talkOf [] = [] from rfl, List.nil_append, sentTo_conversation hq, List.map_map,
    List.map_append]
  exact congrArg₂ (· ++ ·) (outline_contributions ..) (outline_contributions ..)

/-- A batch sends one packet, with one share for each opening, or none if it opens nothing; it records
all that it opens. -/
theorem Bench.outlines_process {gates : List CircuitGate} {desk : Desk Board} {number : UInt64}
    {rounds : Nat} {bench : Bench CircuitGate Board}
    (hrounds : desk.rounds = .start (.circuit number) me.parties)
    (hpath : Path ⟨process me, ⟨gates.map fun gate => ⟨gate, false⟩, desk⟩⟩ moves
      ⟨.ofExcept (.ok rounds), bench⟩) :
    (∀ q ∈ me.peers, (sentTo q (talkOf moves)).map Packet.outline =
      if (CircuitGate.openings gates).length = 0 then []
      else [⟨.circuit number, List.replicate (CircuitGate.openings gates).length 16⟩]) ∧
      bench.desk.ledger.records.length =
        desk.ledger.records.length + (CircuitGate.openings gates).length := by
  have hsound : ∀ gate ∈ gates, gate.Sound (fun _ => True) Terms.any.fails :=
    fun gate _ => gate.sound_any
  by_cases hopenings : CircuitGate.openings gates = []
  · have hterms : Terms.any.SuitsBatch me [] (.circuit number) [] (fun _ _ => True) fun _ => True :=
      Terms.any_suitsBatch
    obtain ⟨-, hexchanged, hlined⟩ :=
      (meets_process_nothing hterms.toSuits hopenings exchanged_nil hsound trivial hrounds).path hpath
        fun _ _ => trivial
    rw [List.nil_append] at hexchanged
    rw [hopenings, hlined.records_eq]
    refine ⟨?_, rfl⟩
    intro q hq
    rw [hexchanged.sentTo q hq]
    rfl
  · obtain ⟨-, made, new, hopens, hexchanged, hlined⟩ :=
      (meets_process_openings Terms.any_suitsBatch exchanged_nil hsound trivial hrounds).path hpath
        fun _ _ => trivial
    rw [List.nil_append, List.nil_append] at hexchanged
    cases hopens with
    | nothing hnil => exact absurd hnil hopenings
    | exchange packets _ hown _ hmacs _ =>
      have hlength := congrArg List.length hmacs
      rw [List.length_map, List.length_map] at hlength
      rw [hlined.records_eq, List.length_append, hlength]
      refine ⟨?_, rfl⟩
      intro q hq
      rw [hexchanged.sentTo q hq, if_neg (mt List.length_eq_zero_iff.mp hopenings), List.map_singleton,
        List.map_singleton, hown, Packet.outline, List.map_map]
      have hlengths : List.length ∘ Opening.message = Function.const _ 16 := by
        funext opening
        exact opening.share.value.length_toBytes
      rw [hlengths, List.map_const]

end Parts

/-! ## Hooks -/

namespace Timetable

/-- The moves of a party and its custody are as the timetable says. -/
structure MatchesCustody (table : Timetable) (me : Party) (moves : List Move)
    (custody : Custody Schedule) :
    Prop where
  sent : ∀ q ∈ me.peers, (sentTo q (talkOf moves)).map Packet.outline = table.sent
  checks : custody.control.checksPerformed = table.checks.toUInt64
  gates : custody.control.gatesSinceCheck = table.gates.toUInt64
  unverified : custody.ledger.records.length = table.unverified

variable {table : Timetable} {me : Party} {config : Config} {past moves : List Move}
  {custody custody' : Custody Schedule}

theorem toUInt64_add (m n : Nat) : (m + n).toUInt64 = m.toUInt64 + n.toUInt64 := by
  simp [Nat.toUInt64]

theorem sent_append {q : PartyId} {outlines more : List Outline}
    (h : (sentTo q (talkOf past)).map Packet.outline = outlines)
    (hmore : (sentTo q (talkOf moves)).map Packet.outline = more) :
    (sentTo q (talkOf (past ++ moves))).map Packet.outline = outlines ++ more := by
  rw [talkOf_append, sentTo_append, List.map_append, h, hmore]

theorem MatchesCustody.verifyLedger (h : table.MatchesCustody me past custody)
    (hpath : Path ⟨Schedule.verifyLedger config me, custody⟩ moves ⟨.ofExcept (.ok ()), custody'⟩) :
    table.verify.MatchesCustody me (past ++ moves) custody' ∧ custody'.control.checkPending = false := by
  obtain ⟨moves, rfl, hget⟩ := hpath.ended_of_modify_bind
  obtain ⟨moves, rfl, hrest⟩ := hget.ended_of_get_bind
  split at hrest
  · next hempty =>
    obtain ⟨rfl, -, rfl⟩ := hrest.ended_of_pure
    have hnone : table.unverified = 0 := by
      rw [← h.unverified, show custody.ledger.records = [] from (Ledger.isEmpty_iff _).mp hempty]
      rfl
    rw [verify, if_pos hnone]
    refine ⟨⟨?_, h.checks, rfl, h.unverified⟩, rfl⟩
    intro q hq
    rw [← List.append_nil table.sent]
    exact sent_append (h.sent q hq) rfl
  · next hsome =>
    have hrecords : custody.ledger.records ≠ [] := fun hnil => hsome ((Ledger.isEmpty_iff _).mpr hnil)
    obtain ⟨moves, rfl, hcheck⟩ := hrest.ended_of_record_bind
    obtain ⟨front, back, _, _, rfl, hzoom, hmark⟩ := hcheck.ended_of_bind_ok
    obtain ⟨verifier, rfl, hexecute⟩ := hzoom.ended_of_zoom
    obtain ⟨back, rfl, hend⟩ := hmark.ended_of_step
    obtain ⟨rfl, -, rfl⟩ := hend.ended_of_pure
    have hfresh : Verifier.Fresh me (Schedule.beginCheck me config (Schedule.reset custody)).verifier.check :=
      Verifier.fresh_start hrecords
    have hsome : table.unverified ≠ 0 := by
      rw [← h.unverified]
      exact mt List.length_eq_zero_iff.mp hrecords
    rw [verify, if_neg hsome]
    refine ⟨⟨?_, ?_, rfl, rfl⟩, rfl⟩
    · intro q hq
      have htalk := hfresh.outlines_execute hexecute hq
      rw [← h.checks]
      refine sent_append (h.sent q hq) (Eq.trans ?_ htalk)
      rw [← List.append_nil (talkOf front)]
      exact congrArg (fun talk => (sentTo q talk).map Packet.outline) (talkOf_append ..)
    · rw [toUInt64_add, ← h.checks]
      rfl

theorem MatchesCustody.silent (h : table.MatchesCustody me past custody) {event : Option Event}
    (hchecks : custody'.control.checksPerformed = custody.control.checksPerformed)
    (hgates : custody'.control.gatesSinceCheck = custody.control.gatesSinceCheck)
    (hledger : custody'.ledger = custody.ledger) :
    table.MatchesCustody me (past ++ [Move.inner event]) custody' where
  sent := by simpa using h.sent
  checks := hchecks.trans h.checks
  gates := hgates.trans h.gates
  unverified := hledger ▸ h.unverified

theorem MatchesCustody.beforeBatch (h : table.MatchesCustody me past custody)
    (hpending : custody.control.checkPending = false) {reveals : List Bool}
    (hpath : Path ⟨Schedule.beforeBatch config me reveals, custody⟩ moves
      ⟨.ofExcept (.ok ()), custody'⟩) :
    (table.verifyIf (reveals.any id)).MatchesCustody me (past ++ moves) custody' ∧
      custody'.control.checkPending = reveals.any id := by
  obtain ⟨moves, rfl, hrest⟩ := hpath.ended_of_get_bind
  have hnow : table.MatchesCustody me (past ++ [Move.inner none]) custody := h.silent rfl rfl rfl
  rw [hpending, Bool.or_false] at hrest
  rw [List.append_cons past]
  split at hrest
  · next hreveals =>
    obtain ⟨front, back, _, _, rfl, hverify, hset⟩ := hrest.ended_of_bind_ok
    obtain ⟨back, rfl, hend⟩ := hset.ended_of_step
    obtain ⟨rfl, -, rfl⟩ := hend.ended_of_pure
    rw [verifyIf, if_pos hreveals, ← List.append_assoc]
    exact ⟨(hnow.verifyLedger hverify).1.silent rfl rfl rfl, rfl⟩
  · next hreveals =>
    obtain ⟨back, rfl, hend⟩ := hrest.ended_of_step
    obtain ⟨rfl, -, rfl⟩ := hend.ended_of_pure
    rw [verifyIf, if_neg hreveals]
    exact ⟨hnow.silent rfl rfl rfl, rfl⟩

theorem MatchesCustody.afterBatch (h : table.MatchesCustody me past custody) {count : Nat}
    (hpath : Path ⟨Schedule.afterBatch config me count, custody⟩ moves
      ⟨.ofExcept (.ok ()), custody'⟩) :
    let counted := { table with gates := table.gates + count }
    (counted.verifyIf (custody.control.checkPending ||
      decide (config.macCheckThreshold < counted.gates.toUInt64))).MatchesCustody me
        (past ++ moves) custody' ∧
      custody'.control.checkPending = false := by
  intro counted
  obtain ⟨moves, rfl, hget⟩ := hpath.ended_of_modify_bind
  obtain ⟨moves, rfl, hrest⟩ := hget.ended_of_get_bind
  have hcount :
      counted.MatchesCustody me (past ++ [Move.inner none]) (Schedule.countGates count custody) :=
    { h.silent rfl rfl rfl with
      gates := by
        rw [toUInt64_add, ← h.gates]
        rfl }
  have hnow : counted.MatchesCustody me (past ++ [Move.inner none] ++ [Move.inner none])
      (Schedule.countGates count custody) := hcount.silent rfl rfl rfl
  have hdue : Schedule.checkRequired (Schedule.countGates count custody).control.gatesSinceCheck
      config.macCheckThreshold (Schedule.countGates count custody).control.checkPending =
      (custody.control.checkPending || decide (config.macCheckThreshold < counted.gates.toUInt64)) := by
    rw [hnow.gates]
    rfl
  rw [hdue] at hrest
  rw [List.append_cons past, List.append_cons]
  split at hrest
  · next hrequired =>
    rw [verifyIf, if_pos hrequired]
    exact hnow.verifyLedger hrest
  · next hrequired =>
    obtain ⟨rfl, -, rfl⟩ := hrest.ended_of_pure
    rw [verifyIf, if_neg hrequired, List.append_nil]
    refine ⟨hnow, ?_⟩
    exact (Bool.or_eq_false_iff.mp (Bool.eq_false_of_not_eq_true hrequired)).1

end Timetable

/-! ## Evaluations -/

namespace Timetable

/-- Between batches, a party is as the timetable says. -/
structure MatchesEvaluator (table : Timetable) (me : Party) (moves : List Move)
    (evaluator : Evaluator Schedule CircuitGate Board) : Prop
    extends table.MatchesCustody me moves (Evaluator.custodyPart.get evaluator) where
  batches : evaluator.batches = table.batches.toUInt64
  pending : evaluator.control.checkPending = false

variable {table : Timetable} {me : Party} {config : Config} {past moves : List Move}
  {evaluator evaluator' : Evaluator Schedule CircuitGate Board}

theorem MatchesEvaluator.releaseVerified (h : table.MatchesEvaluator me past evaluator) :
    table.MatchesEvaluator me past evaluator.releaseVerified := by
  unfold Evaluator.releaseVerified
  split
  · exact ⟨h.toMatchesCustody, h.batches, h.pending⟩
  · exact h

/-- What is open of a batch once its gates are done, before they are counted. -/
theorem MatchesCustody.process {custody : Custody Schedule} (h : table.MatchesCustody me past custody)
    {batch : List CircuitGate} {desk : Desk Board} {rounds : Nat} {bench : Bench CircuitGate Board}
    (hledger : desk.ledger = custody.ledger)
    (hrounds : desk.rounds = .start (.circuit table.batches.toUInt64) me.parties)
    (hpath : Path ⟨Bench.process me, ⟨batch.map fun gate => ⟨gate, false⟩, desk⟩⟩ moves
      ⟨.ofExcept (.ok rounds), bench⟩) :
    { table.openBatch (batch.map CircuitGate.kind) with gates := table.gates }.MatchesCustody me
      (past ++ moves) { custody with ledger := bench.desk.ledger } := by
  obtain ⟨hsent, hlength⟩ := Bench.outlines_process hrounds hpath
  have hcount := CircuitGate.countP_opens_kind batch
  refine ⟨?_, h.checks, h.gates, ?_⟩
  · intro q hq
    rw [openBatch, hcount]
    exact sent_append (h.sent q hq) (hsent q hq)
  · rw [openBatch, hcount, ← h.unverified, ← hledger]
    exact hlength

theorem MatchesEvaluator.runBatch (h : table.MatchesEvaluator me past evaluator)
    {batch : List CircuitGate}
    (hpath : Path ⟨Evaluator.runBatch (.standard me config) batch, evaluator⟩ moves
      ⟨.ofExcept (.ok ()), evaluator'⟩) :
    (table.runBatch config (batch.map CircuitGate.kind)).MatchesEvaluator me
    (past ++ moves) evaluator' := by
  obtain ⟨moves, rfl, hhook⟩ := hpath.ended_of_record_bind
  obtain ⟨front, back, _, _, rfl, hzoom, hload⟩ := hhook.ended_of_bind_ok
  obtain ⟨custody, rfl, hbefore⟩ := hzoom.ended_of_zoom
  obtain ⟨moves, rfl, hbench⟩ := hload.ended_of_modify_bind
  obtain ⟨middle, back, rounds, _, rfl, hzoom, hhook⟩ := hbench.ended_of_bind_ok
  obtain ⟨bench, rfl, hprocess⟩ := hzoom.ended_of_zoom
  obtain ⟨last, back, _, _, rfl, hzoom, hfinish⟩ := hhook.ended_of_bind_ok
  obtain ⟨custody', rfl, hafter⟩ := hzoom.ended_of_zoom
  obtain ⟨back, rfl, hend⟩ := hfinish.ended_of_step
  obtain ⟨rfl, -, rfl⟩ := hend.ended_of_pure
  have hreveals : (batch.map Gate.revealsOutput).any id =
      (batch.map CircuitGate.kind).any GateKind.revealsOutput := by
    simp [List.any_map, Function.comp_def, CircuitGate.revealsOutput_kind]
  have htaken : table.MatchesCustody me (past ++ [Move.inner (some (.taken batch.length))])
      (Evaluator.custodyPart.get evaluator) := h.toMatchesCustody.silent rfl rfl rfl
  obtain ⟨hbefore, hpending⟩ := htaken.beforeBatch h.pending hbefore
  rw [hreveals] at hbefore hpending
  have hloaded : (table.verifyIf _).MatchesCustody me (_ ++ [Move.inner none]) custody :=
    hbefore.silent rfl rfl rfl
  have hrounds : (Evaluator.load (.standard me config) batch
      (Evaluator.custodyPart.set evaluator custody)).rounds = .start (.circuit
        (table.verifyIf ((batch.map CircuitGate.kind).any GateKind.revealsOutput)).batches.toUInt64)
          me.parties := by
    rw [batches_verifyIf, ← h.batches]
    rfl
  have hopened := hloaded.process rfl hrounds hprocess
  replace hafter : Path ⟨Schedule.afterBatch config me (batch.map CircuitGate.kind).length,
      { custody with ledger := bench.desk.ledger }⟩ last ⟨.ofExcept (.ok ()), custody'⟩ := by
    rw [List.length_map]
    exact hafter
  obtain ⟨hdone, hpending'⟩ := hopened.afterBatch hafter
  dsimp only at hdone
  rw [hpending] at hdone
  have hrun : (table.runBatch config (batch.map CircuitGate.kind)).MatchesCustody me
      (past ++ [Move.inner (some (.taken batch.length))] ++ front ++ [Move.inner none] ++ middle ++
        last ++ [Move.inner none]) custody' := MatchesCustody.silent hdone rfl rfl rfl
  simp only [List.append_assoc, List.singleton_append] at hrun
  refine MatchesEvaluator.releaseVerified ⟨hrun, ?_, hpending'⟩
  rw [runBatch, batches_verifyIf, openBatch, batches_verifyIf, toUInt64_add, ← h.batches]
  rfl

theorem MatchesEvaluator.runBatches {batches : List (List CircuitGate)}
    (h : table.MatchesEvaluator me past evaluator)
    (hpath : Path ⟨Evaluator.runBatches (.standard me config) batches, evaluator⟩ moves
      ⟨.ofExcept (.ok ()), evaluator'⟩) :
    ((batches.map (List.map CircuitGate.kind)).foldl (Timetable.runBatch config) table).MatchesEvaluator me
      (past ++ moves) evaluator' := by
  induction batches generalizing table past moves evaluator with
  | nil =>
    obtain ⟨rfl, -, rfl⟩ := hpath.ended_of_pure
    rwa [List.append_nil]
  | cons batch batches ih =>
    obtain ⟨front, back, _, _, rfl, hbatch, hrest⟩ := hpath.ended_of_bind_ok
    rw [← List.append_assoc]
    exact ih (h.runBatch hbatch) hrest

theorem MatchesEvaluator.runStream {gates : List CircuitGate} {summary : Summary}
    (h : table.MatchesEvaluator me past evaluator)
    (hpath : Path ⟨Evaluator.runStream (.standard me config) gates, evaluator⟩ moves
      ⟨.ofExcept (.ok summary), evaluator'⟩) :
    (table.evaluate config (gates.map CircuitGate.kind)).MatchesEvaluator me
    (past ++ moves) evaluator' := by
  obtain ⟨moves, rfl, hrun⟩ := hpath.ended_of_modify_bind
  obtain ⟨front, back, _, middle, rfl, hbatches, hhook⟩ := hrun.ended_of_bind_ok
  obtain ⟨last, back, _, _, rfl, hzoom, hfinish⟩ := hhook.ended_of_bind_ok
  obtain ⟨custody, rfl, hverify⟩ := hzoom.ended_of_zoom
  obtain ⟨back, rfl, hget⟩ := hfinish.ended_of_modify_bind
  obtain ⟨back, rfl, hend⟩ := hget.ended_of_get_bind
  obtain ⟨rfl, -, rfl⟩ := hend.ended_of_pure
  have hbegin : table.MatchesEvaluator me (past ++ [Move.inner none]) evaluator.begin :=
    ⟨h.toMatchesCustody.silent rfl rfl rfl, h.batches, h.pending⟩
  have hmiddle := hbegin.runBatches hbatches
  obtain ⟨hmatches, hpending⟩ := hmiddle.toMatchesCustody.verifyLedger hverify
  rw [← batches_map] at hmiddle hmatches
  have hdone : (table.evaluate config (gates.map CircuitGate.kind)).MatchesCustody me
      (past ++ [Move.inner none] ++ front ++ last ++ [Move.inner none] ++ [Move.inner none]) custody :=
    MatchesCustody.silent (MatchesCustody.silent hmatches rfl rfl rfl) rfl rfl rfl
  simp only [List.append_assoc, List.singleton_append] at hdone
  have hclosed : (table.evaluate config (gates.map CircuitGate.kind)).MatchesEvaluator me _
      (Evaluator.custodyPart.set middle custody) := ⟨hdone, ?_, hpending⟩
  · exact ⟨hclosed.releaseVerified.toMatchesCustody, hclosed.releaseVerified.batches,
      hclosed.releaseVerified.pending⟩
  · rw [Timetable.evaluate, batches_verify]
    exact hmiddle.batches

end Timetable

/-! ## Calls -/

section Calls

variable {setting : Setting Schedule} {moves : List Move} {gates : List CircuitGate}
  {outcome : Except Error Summary} {evaluator evaluator' : Evaluator Schedule CircuitGate Board}
  {player player' : Player Schedule CircuitGate Board}

theorem Evaluator.aborted_or_stream
    (hpath : Path ⟨evaluate setting gates, evaluator⟩ moves ⟨.ofExcept outcome, evaluator'⟩) :
    (∃ error, outcome = .error error ∧ evaluator'.aborted = some error) ∨
      ∃ summary rest, outcome = .ok summary ∧ evaluator.aborted = none ∧ moves = .inner none :: rest ∧
        Path ⟨runStream setting gates, evaluator⟩ rest ⟨.ofExcept (.ok summary), evaluator'⟩ := by
  obtain ⟨error, haborted, rfl, -, rfl⟩ |
      ⟨haborted, ⟨summary, rest, rfl, hmoves, hstream⟩ | ⟨error, _, _, rfl, -, rfl, -⟩⟩ :=
    ended_of_evaluate hpath
  · exact .inl ⟨error, rfl, haborted⟩
  · exact .inr ⟨summary, rest, rfl, haborted, hmoves, hstream⟩
  · exact .inl ⟨error, rfl, rfl⟩

theorem Player.ended_of_playCall
    (hpath : Path ⟨playCall setting gates, player⟩ moves ⟨.ofExcept (.ok ()), player'⟩) :
    ∃ outcome front,
      Path ⟨Evaluator.evaluate setting gates, player.evaluator⟩ front
        ⟨.ofExcept outcome, player'.evaluator⟩ ∧
      player'.outcome = some outcome ∧ talkOf moves = talkOf front := by
  obtain ⟨front, back, outcome, _, rfl, hzoom, hrest⟩ := hpath.ended_of_attempt_bind
  obtain ⟨evaluator, rfl, hevaluate⟩ := hzoom.ended_of_zoom
  obtain ⟨back, rfl, hmark⟩ := hrest.ended_of_modify_bind
  obtain ⟨back, rfl, hcount⟩ := hmark.ended_of_step
  obtain ⟨back, rfl, hend⟩ := hcount.ended_of_step
  obtain ⟨rfl, -, rfl⟩ := hend.ended_of_pure
  refine ⟨outcome, front, hevaluate, rfl, ?_⟩
  rw [talkOf_append]
  exact List.append_nil _

theorem Player.exists_error_of_aborted {calls : List (List CircuitGate)}
    (haborted : player.evaluator.aborted ≠ none) (houtcome : ∃ error, player.outcome = some (.error error))
    (hpath : Path ⟨playCalls setting calls, player⟩ moves ⟨.ofExcept (.ok ()), player'⟩) :
    ∃ error, player'.outcome = some (.error error) := by
  induction calls generalizing player moves with
  | nil =>
    obtain ⟨rfl, -, rfl⟩ := hpath.ended_of_pure
    exact houtcome
  | cons gates calls ih =>
    obtain ⟨front, back, _, _, rfl, hcall, hrest⟩ := hpath.ended_of_bind_ok
    obtain ⟨outcome, _, hevaluate, hkept, -⟩ := ended_of_playCall hcall
    obtain ⟨error, rfl, herror⟩ | ⟨_, _, _, hnone, -⟩ := Evaluator.aborted_or_stream hevaluate
    · exact ih (by simp [herror]) ⟨error, hkept⟩ hrest
    · exact absurd hnone haborted

theorem Timetable.MatchesEvaluator.playCalls {table : Timetable} {me : Party} {config : Config}
    {past : List Move} {calls : List (List CircuitGate)}
    (h : table.MatchesEvaluator me past player.evaluator)
    (hpath : Path ⟨Player.playCalls (.standard me config) calls, player⟩ moves
      ⟨.ofExcept (.ok ()), player'⟩)
    (hok : ∀ error, player'.outcome ≠ some (.error error)) :
    ((calls.map (List.map CircuitGate.kind)).foldl (Timetable.evaluate config) table).MatchesEvaluator me
      (past ++ moves) player'.evaluator := by
  induction calls generalizing table past moves player with
  | nil =>
    obtain ⟨rfl, -, rfl⟩ := hpath.ended_of_pure
    rwa [List.append_nil]
  | cons gates calls ih =>
    obtain ⟨front, back, _, middle, rfl, hcall, hrest⟩ := hpath.ended_of_bind_ok
    obtain ⟨outcome, moves, hevaluate, hkept, htalk⟩ := Player.ended_of_playCall hcall
    obtain ⟨error, rfl, herror⟩ | ⟨summary, rest, rfl, -, rfl, hstream⟩ :=
      Evaluator.aborted_or_stream hevaluate
    · obtain ⟨error', herror'⟩ := Player.exists_error_of_aborted (by simp [herror]) ⟨error, hkept⟩ hrest
      exact absurd herror' (hok error')
    rw [← List.append_assoc]
    refine ih ?_ hrest
    have hdone := h.runStream hstream
    refine ⟨⟨?_, hdone.checks, hdone.gates, hdone.unverified⟩, hdone.batches, hdone.pending⟩
    intro q hq
    rw [← hdone.sent q hq, talkOf_append, talkOf_append, htalk]
    rfl

end Calls

/-- Whatever the shares, the keys, the generator and the replies of the transport are: when calls have
all returned without an error, what can be seen of the packets that the party has sent to a peer, in
order, is what the timetable says of the configuration and the kinds of the gates. An error is final, so
if the last call has returned without one then all have. -/
theorem Player.outlines_sent {me : Party} {config : Config} {source : Source}
    {calls : List (List CircuitGate)} {moves : List Move} {final : Player Schedule CircuitGate Board}
    (hpath : Path ⟨playCalls (.standard me config) calls, { evaluator := .start .start source .empty }⟩
      moves ⟨.pure (), final⟩)
    (hok : ∀ error, final.outcome ≠ some (.error error)) :
    ∀ q ∈ me.peers, (sentTo q (talkOf moves)).map Packet.outline =
      Timetable.outlines config (calls.map (List.map CircuitGate.kind)) := by
  have hstart : Timetable.MatchesEvaluator {} me [] (.start .start source .empty) :=
    ⟨⟨fun _ _ => rfl, rfl, rfl, rfl⟩, rfl, rfl⟩
  exact (hstart.playCalls hpath hok).sent

/-- Two parties open values in batches of at most two gates, and the second batch has an output: the
ledger is verified before that batch, after it and at the end of the second call. -/
theorem Player.outlines_sent_seven :
    let table : Table :=
      ⟨2, ⟨.ofNat 7, by decide⟩, fun i => .ofNat (i + 1), by decide, by decide⟩
    let deal (handle : Handle) : Deal := ⟨handle, .ofNat 5, fun i => ⟨.ofNat (i + 2), .ofNat i⟩⟩
    let config : Config := ⟨2, 2, 128, 1024⟩
    let calls : List (List DealtGate) :=
      [[.opening (deal 0), .opening (deal 1), .output (deal 2)], [.opening (deal 3)]]
    let check (number : UInt64) : List Outline :=
      [⟨.macCheck number, [32]⟩, ⟨.macCheck number, [48]⟩, ⟨.macCheck number, [32]⟩,
        ⟨.macCheck number, [48]⟩]
    ∃ moves final, Path ⟨playCalls (.standard (table.party 0) config)
        (calls.map (List.map (DealtGate.gate 0))), { evaluator := .start .start default .empty }⟩ moves
        ⟨.pure (), final⟩ ∧
      (∀ error, final.outcome ≠ some (.error error)) ∧
      (sentTo 1 (talkOf moves)).map Packet.outline = [⟨.circuit 0, [16, 16]⟩] ++ check 0 ++
        [⟨.circuit 1, [16]⟩] ++ check 1 ++ [⟨.circuit 2, [16]⟩] ++ check 2 := by
  intro table deal config calls check
  have hzero : (deal 0).Valid table := ⟨by decide, by decide, by decide +kernel⟩
  have hvalid : ∀ handle, (deal handle).Valid table := fun _ => ⟨hzero.value_lt, hzero.mac_lt, hzero.openAll_eq⟩
  have hcomputes : ∀ front gates back, calls = front ++ gates :: back →
      DealtGate.StreamComputes table (DealtGate.deals calls.flatten) (DealtGate.deals front.flatten)
        gates := by
    intro front gates back hcalls before gate after hgates i sights _
    have hmem : gate ∈ calls.flatten := by
      rw [hcalls, hgates]
      simp
    have hgate : ∀ gate ∈ calls.flatten, gate.Finishes i sights := by
      simp [calls, DealtGate.Finishes]
    exact hgate gate hmem
  obtain ⟨moves, final, summary, hpath, houtcome⟩ :=
    @exists_path_outcome_eq table config calls (fun _ => default) (by decide)
      (by simp [calls, DealtGate.deals, DealtGate.deal?, hvalid]) (by decide) hcomputes
      (fun _ => Source.draws_default) (List.cons_ne_nil _ _) 0
  have hok : ∀ error, final.outcome ≠ some (.error error) := by simp [houtcome]
  refine ⟨moves, final, hpath, hok, ?_⟩
  rw [outlines_sent hpath hok 1 (by decide)]
  decide

end AuthenticatedMpc
