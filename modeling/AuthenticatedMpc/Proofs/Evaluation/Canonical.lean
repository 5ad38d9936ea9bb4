import AuthenticatedMpc.Proofs.Evaluation.Course
import AuthenticatedMpc.Proofs.MacCheck.Canonical
import AuthenticatedMpc.Simulation.Player

/-!
# Canonical values under attack

The field operations are exact on reduced elements only, and nothing checks their results again. So
everything a party ever holds has to be reduced, and it is: whatever bytes the peers send, what is not
the encoding of a reduced element is refused before it is added to anything.
-/

namespace AuthenticatedMpc

variable {p : Modulus} {me : Party} {config : Config}

/-! ## The hooks -/

structure Custody.Canonical (p : Modulus) (custody : Custody Schedule) : Prop where
  ledger : custody.ledger.Reduced p
  verifier : custody.verifier.Canonical p

namespace Schedule

theorem upholds_verifyLedger :
    (verifyLedger config me).Upholds (.canonical me.modulus) (Custody.Canonical me.modulus)
      fun _ => True := by
  refine (Program.Upholds.modify fun _ h => ⟨h.ledger, h.verifier⟩).bind fun _ _ =>
    .get_bind fun custody hcustody => ?_
  split
  · exact .pure trivial
  · have hchecking : (Manner.canonical me.modulus).marks
        (.checking custody.control.checksPerformed custody.ledger.records) := hcustody.ledger
    refine (Program.Upholds.record hchecking fun custody h => ?_).bind fun _ _ =>
      (Verifier.upholds_execute.zoom (fun _ h => h.verifier) fun _ _ h hverifier =>
        ⟨h.ledger, hverifier⟩).bind fun _ _ => .mark trivial
    exact ⟨nofun, MacCheck.canonical_start h.ledger _ config, h.verifier.bench⟩

theorem upholds_beforeBatch (reveals : List Bool) :
    (beforeBatch config me reveals).Upholds (.canonical me.modulus) (Custody.Canonical me.modulus)
      fun _ => True := by
  have hpending : (Program.modify (setPending (reveals.any id))).Upholds (.canonical me.modulus)
      (Custody.Canonical me.modulus) fun _ => True :=
    .modify fun _ h => ⟨h.ledger, h.verifier⟩
  refine .get_bind fun custody _ => ?_
  split
  · exact upholds_verifyLedger.bind fun _ _ => hpending
  · exact hpending

theorem upholds_afterBatch (count : Nat) :
    (afterBatch config me count).Upholds (.canonical me.modulus) (Custody.Canonical me.modulus)
      fun _ => True := by
  refine (Program.Upholds.modify fun _ h => ⟨h.ledger, h.verifier⟩).bind fun _ _ =>
    .get_bind fun custody _ => ?_
  split
  · exact upholds_verifyLedger
  · exact .pure trivial

end Schedule

/-! ## Evaluations -/

/-- Every field element that a party holds is reduced, and every message that it has queued is
canonical. -/
structure Evaluator.Canonical (p : Modulus) (evaluator : Evaluator Schedule CircuitGate Board) : Prop where
  custody : (custodyPart.get evaluator).Canonical p
  bench : (benchPart.get evaluator).Canonical p
  staged : ∀ gate ∈ evaluator.staged, gate.Reduced p

namespace Evaluator

variable {evaluator : Evaluator Schedule CircuitGate Board}

theorem canonical_start (generator : Source) : (start .start generator .empty).Canonical p where
  custody := ⟨nofun, Verifier.canonical_idle generator⟩
  bench := ⟨nofun, @RoundBuffer.mannered_start _ _ (.circuit 0) trivial 0, nofun, nofun⟩
  staged := nofun

namespace Canonical

theorem releaseVerified (h : evaluator.Canonical p) : evaluator.releaseVerified.Canonical p := by
  have hrelease : ∀ {staged : List CircuitGate} {board : Board}, (∀ gate ∈ staged, gate.Reduced p) →
      board.Reduced p → (staged.foldl (fun board gate => Gate.release gate board) board).Reduced p := by
    intro staged
    induction staged with
    | nil => exact fun _ hboard => hboard
    | cons gate staged ih =>
      intro board hstaged hboard
      obtain ⟨hgate, hstaged⟩ := List.forall_mem_cons.mp hstaged
      exact ih hstaged (hgate.release hboard)
  unfold Evaluator.releaseVerified
  split
  · exact ⟨h.custody, ⟨h.bench.slots, h.bench.desk.rounds, h.bench.desk.keeps.1,
      hrelease h.staged h.bench.desk.keeps.2⟩, nofun⟩
  · exact h

theorem finishBatch (h : evaluator.Canonical p) : evaluator.finishBatch.Canonical p where
  custody := h.custody
  bench := h.bench
  staged gate hgate := by
    obtain hgate | hgate := List.mem_append.mp hgate
    · exact h.staged gate hgate
    · obtain ⟨slot, hslot, rfl⟩ := List.mem_map.mp (List.mem_of_mem_filter hgate)
      exact h.bench.slots slot hslot

end Canonical

variable {gates : List CircuitGate}

theorem upholds_hook {hook : Program (Custody Schedule) Unit}
    (h : hook.Upholds (.canonical p) (Custody.Canonical p) fun _ => True) :
    (hook.zoom custodyPart : Program (Evaluator Schedule CircuitGate Board) Unit).Upholds (.canonical p)
      (Canonical p) fun _ => True :=
  h.zoom (fun _ h => h.custody) fun _ _ h hcustody =>
    ⟨hcustody, ⟨h.bench.slots, h.bench.desk.rounds, hcustody.ledger, h.bench.desk.keeps.2⟩, h.staged⟩

theorem upholds_process :
    ((Bench.process me).zoom benchPart : Program (Evaluator Schedule CircuitGate Board) Nat).Upholds
      (.canonical me.modulus) (Canonical me.modulus) fun _ => True := by
  have hprocess := @Bench.upholds_process (.canonical me.modulus) Phase.IsCircuit me Board
    (Desk.KeepsReduced me.modulus) CircuitGate (CircuitGate.Reduced me.modulus) _
    (fun _ _ _ => trivial) fun round _ hgate => CircuitGate.upholds_evaluate hgate round
  exact hprocess.zoom (fun _ h => h.bench) fun _ _ h hbench =>
    ⟨⟨hbench.desk.keeps.1, h.custody.verifier⟩, hbench, h.staged⟩

theorem upholds_runBatch (hgates : ∀ gate ∈ gates, gate.Reduced me.modulus) :
    (runBatch (.standard me config) gates).Upholds (.canonical me.modulus) (Canonical me.modulus)
      fun _ => True := by
  refine (Program.Upholds.record trivial fun _ h => { h with }).bind fun _ _ =>
    (upholds_hook (Schedule.upholds_beforeBatch _)).bind fun _ _ =>
    (Program.Upholds.modify fun evaluator h => ?_).bind fun _ _ =>
    upholds_process.bind fun _ _ => (upholds_hook (Schedule.upholds_afterBatch _)).bind fun _ _ =>
    .modify fun _ h => h.finishBatch.releaseVerified
  exact ⟨h.custody, .load h.bench.desk.keeps hgates trivial _, h.staged⟩

theorem upholds_runStream (hgates : ∀ gate ∈ gates, gate.Reduced me.modulus) :
    (runStream (.standard me config) gates).Upholds (.canonical me.modulus) (Canonical me.modulus)
      fun _ => True := by
  have hbatches : ∀ batches : List (List CircuitGate), (∀ batch ∈ batches, batch ⊆ gates) →
      (runBatches (.standard me config) batches).Upholds (.canonical me.modulus)
        (Canonical me.modulus) fun _ => True := by
    intro batches
    induction batches with
    | nil => exact fun _ => .pure trivial
    | cons batch rest ih =>
      intro hsubset
      obtain ⟨hbatch, hrest⟩ := List.forall_mem_cons.mp hsubset
      exact (upholds_runBatch fun gate hgate => hgates gate (hbatch hgate)).bind fun _ _ => ih hrest
  refine (Program.Upholds.modify fun evaluator h => ?_).bind fun _ _ =>
    (hbatches _ fun batch hbatch => batchesWithin_subset hbatch).bind fun _ _ =>
    (upholds_hook Schedule.upholds_verifyLedger).bind fun _ _ =>
    (Program.Upholds.modify fun evaluator h => ?_).bind fun _ _ => .get_bind fun _ _ =>
      .pure trivial
  · exact ⟨h.custody, ⟨nofun, h.bench.desk⟩, nofun⟩
  · exact { h.releaseVerified with }

theorem upholds_evaluate (hgates : ∀ gate ∈ gates, gate.Reduced me.modulus) :
    (evaluate (.standard me config) gates).Upholds (.canonical me.modulus) (Canonical me.modulus)
      fun _ => True := by
  refine .get_bind fun evaluator _ => ?_
  split
  · exact .fail
  · refine (upholds_runStream hgates).attempt_bind (fun _ _ => .pure trivial) fun error => ?_
    exact (Program.Upholds.modify fun _ h => { h with }).bind fun _ _ => .fail

end Evaluator

namespace Player

variable {calls : List (List CircuitGate)}

theorem upholds_playCalls (hgates : ∀ gates ∈ calls, ∀ gate ∈ gates, gate.Reduced me.modulus) :
    (playCalls (.standard me config) calls).Upholds (.canonical me.modulus)
      (fun player => player.evaluator.Canonical me.modulus) fun _ => True := by
  induction calls with
  | nil => exact .pure trivial
  | cons gates calls ih =>
    obtain ⟨hgates, hcalls⟩ := List.forall_mem_cons.mp hgates
    have hcall : ((Evaluator.evaluate (.standard me config) gates).zoom evaluatorPart).Upholds
        (.canonical me.modulus) (fun player => player.evaluator.Canonical me.modulus) fun _ => True :=
      (Evaluator.upholds_evaluate hgates).zoom (fun _ h => h) fun _ _ _ h => h
    have hreturned : ∀ outcome, (do
        Program.modify fun player => { player with outcome := some outcome }
        Program.mark .returned
        Program.modify fun player => { player with call := player.call + 1 } :
          Program (Player Schedule CircuitGate Board) Unit).Upholds (.canonical me.modulus)
          (fun player => player.evaluator.Canonical me.modulus) fun _ => True := fun outcome =>
      (Program.Upholds.modify fun _ h => h).bind fun _ _ =>
        (Program.Upholds.mark trivial).bind fun _ _ => .modify fun _ h => h
    exact (hcall.attempt_bind (fun _ _ => hreturned _) fun _ => hreturned _).bind fun _ _ => ih hcalls

/-- Whatever a party receives, it sends only canonical messages, and at every moment all elements on its
ledger, on its board, in its gates and in its check are reduced. -/
theorem canonical_of_path {generator : Source} {moves : List Move}
    {actor : Actor (Player Schedule CircuitGate Board) Unit}
    (hgates : ∀ gates ∈ calls, ∀ gate ∈ gates, gate.Reduced me.modulus)
    (hpath : Path ⟨playCalls (.standard me config) calls,
      { evaluator := .start .start generator .empty }⟩ moves actor) :
    (∀ move ∈ moves, (Manner.canonical me.modulus).Allows move) ∧
      actor.state.evaluator.Canonical me.modulus :=
  (upholds_playCalls hgates).path (Evaluator.canonical_start generator) hpath

/-- The first of two parties opens its share 3 modulo 7. Its peer sends the share 6, and in the check a
message that is no commitment: the sum stands on the board, and the call fails. -/
theorem canonical_of_path_seven :
    let me : Party := ⟨0, 2, ⟨.ofNat 7, by decide⟩, .ofNat 2, by decide, by decide, by decide⟩
    let calls : List (List CircuitGate) := [[.opening { share := ⟨.ofNat 3, .ofNat 5⟩, handle := 0 }]]
    (∀ gates ∈ calls, ∀ gate ∈ gates, gate.Reduced me.modulus) ∧ ∃ moves actor,
      Path ⟨playCalls (.standard me .standard) calls,
        { evaluator := .start .start default .empty }⟩ moves actor ∧
      actor.state.evaluator.board.value? 0 = some (.ofNat 2) ∧
      actor.state.outcome = some (.error (.encoding (.invalidLength 32 3))) ∧
      (∀ move ∈ moves, (Manner.canonical me.modulus).Allows move) ∧
      actor.state.evaluator.Canonical me.modulus := by
  intro me calls
  let first : Actor (Player Schedule CircuitGate Board) Unit :=
    ⟨playCalls (.standard me .standard) calls, { evaluator := .start .start default .empty }⟩
  let heard : List Packet := [⟨.circuit 0, [Modulus.encode (.ofNat 6)]⟩, ⟨.macCheck 0, [[1, 2, 3]]⟩]
  have hreduced : ∀ gates ∈ calls, ∀ gate ∈ gates, gate.Reduced me.modulus :=
    List.forall_mem_singleton.mpr (List.forall_mem_singleton.mpr ⟨by decide, by decide, nofun⟩)
  have hpath : Path first (first.attend heard 200).1 (first.attend heard 200).2 := .attend heard 200 first
  have hboard : (first.attend heard 200).2.state.evaluator.board.value? 0 = some (.ofNat 2) := by
    decide +kernel
  have houtcome : (first.attend heard 200).2.state.outcome =
      some (.error (.encoding (.invalidLength 32 3))) := by
    decide +kernel
  obtain ⟨hmoves, hstate⟩ := canonical_of_path hreduced hpath
  exact ⟨hreduced, _, _, hpath, hboard, houtcome, hmoves, hstate⟩

end Player
end AuthenticatedMpc
