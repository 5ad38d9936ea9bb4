import AuthenticatedMpc.Proofs.Evaluation.Records

/-!
# Outputs between two checks

The shares of an output are queued only when everything opened before has passed a check, and its
opening is in a check before the next batch begins.
-/

namespace AuthenticatedMpc

section Outputs

variable {me : Party} {config : Config} {past : List Move}

theorem Schedule.hookInvariant_true (me : Party) (config : Config) :
    HookInvariant .free me config fun _ _ => True where
  during := id
  control _ _ := id
  check _ _ := meets_conclude (fun _ _ _ _ => trivial) (fun _ _ _ => trivial) (fun _ _ => id)
    fun _ => trivial

theorem Evaluator.meets_runBatch_empty {batch : List CircuitGate}
    (hreveals : (batch.map Gate.revealsOutput).any id = true)
    (evaluator : Evaluator Schedule CircuitGate Board) :
    (Evaluator.runBatch (.standard me config) batch).Meets
      (.ofState (fun _ => True) fun _ evaluator => evaluator.ledger.records = []) past evaluator := by
  have hinvariant := Schedule.hookInvariant_true me config
  have hbefore : ∀ past evaluator,
      ((Schedule.beforeBatch config me (batch.map Gate.revealsOutput)).zoom custodyPart).Meets
        (.ofState (fun _ => True) fun _ (e : Evaluator Schedule CircuitGate Board) =>
          e.control.checkPending = true) past evaluator := by
    intro past evaluator
    refine .zoom ((hinvariant.meets_beforeBatch trivial _).mono (fun _ _ => id) ?_ fun _ _ _ _ => id)
    exact fun _ _ _ _ hreturned => hreturned.2.2.trans hreveals
  have hprocess : ∀ past evaluator, evaluator.control.checkPending = true →
      ((Bench.process me).zoom benchPart).Meets
        (.ofState (fun _ => True) fun _ (e : Evaluator Schedule CircuitGate Board) =>
          e.control.checkPending = true) past evaluator :=
    fun _ _ hpending => .of_zoom (fun _ => trivial) fun _ _ => hpending
  have hafter : ∀ past evaluator, evaluator.control.checkPending = true →
      ((Schedule.afterBatch config me batch.length).zoom custodyPart).Meets
        (.ofState (fun _ => True) fun _ (e : Evaluator Schedule CircuitGate Board) =>
          e.ledger.records = []) past evaluator := by
    intro past evaluator hpending
    refine .zoom ((hinvariant.meets_afterBatch trivial _).mono (fun _ _ => id) ?_ fun _ _ _ _ => id)
    exact fun _ _ _ _ hreturned => hreturned.2 hpending
  refine .record_bind trivial ((hbefore _ _).bind_state fun _ _ loading hpending => ?_)
  have hbatch := fun past => hprocess past (load (.standard me config) batch loading) hpending
  refine .modify_bind trivial ((hbatch _).bind_state fun _ _ _ hpending => ?_)
  refine (hafter _ _ hpending).bind_state fun _ _ evaluator hempty => ⟨trivial, trivial, ?_⟩
  exact (congrArg Ledger.records (ledger_releaseVerified _)).trans hempty

/-! ## Runs -/

/-- At every moment of all calls at which a message is queued for a peer while an output is on the
bench, the ledger is empty, and everything opened so far was in a check that has passed. Whenever a
batch with an output is over, the ledger is empty again. -/
theorem outputs_checked_before_and_after (hconfig : config.validate = .ok ()) (me : Party)
    (generator : Source) (calls : List (List CircuitGate)) :
    (∀ moves actor, Path ⟨Player.playCalls (.standard me config) calls,
        { evaluator := .start .start generator .empty }⟩ moves actor →
      ∀ opening done peer, ⟨.output opening, done⟩ ∈ actor.state.evaluator.slots →
        actor.state.evaluator.rounds.queued peer ≠ [] →
        actor.state.evaluator.ledger.records = [] ∧
          ∀ record ∈ openedIn moves, Covered me moves record) ∧
    ∀ (evaluator evaluator' : Evaluator Schedule CircuitGate Board) batch opening moves,
      .output opening ∈ batch →
      Path ⟨Evaluator.runBatch (.standard me config) batch, evaluator⟩ moves
        ⟨.pure (), evaluator'⟩ → evaluator'.ledger.records = [] := by
  constructor
  · intro moves actor hpath opening done peer hslot hqueued
    have haudited := ((meets_playCalls_start hconfig me generator calls).path hpath
      fun _ _ => trivial).during
    obtain ⟨hempty, hpassed⟩ := (haudited.queued ⟨_, hslot, rfl⟩).resolve_left
      fun hquiet => hqueued (hquiet peer)
    have hbalanced := haudited.balanced
    rw [hempty] at hbalanced
    exact ⟨hempty, fun _ hrecord => hbalanced.covered hpassed hrecord⟩
  · intro evaluator evaluator' batch opening moves hopening hpath
    have hreveals : (batch.map Gate.revealsOutput).any id = true :=
      List.any_eq_true.mpr ⟨_, List.mem_map_of_mem hopening, rfl⟩
    have hmeets := @Evaluator.meets_runBatch_empty me config [] batch hreveals evaluator
    exact (hmeets.path hpath fun _ _ => trivial).2

/-- The first of two parties with the shares 0 and 4 of the value 4 modulo 7 queues its share of the
value in its fourteenth move; and it has a run in which its batch is over. -/
theorem outputs_checked_before_and_after_seven :
    let table : Table :=
      ⟨2, ⟨.ofNat 7, by decide⟩, fun i => .ofNat (i + 1), by decide, by decide⟩
    let deal : Deal := ⟨1, .ofNat 4, fun i => ⟨.ofNat (4 * i), .ofNat (i + 2)⟩⟩
    let start : Evaluator Schedule CircuitGate Board := .start .start default .empty
    let batch : List CircuitGate := [.output (deal.opening 0 false)]
    Config.standard.validate = .ok () ∧
      (∃ moves actor, Path ⟨Player.playCalls (.standard (table.party 0) .standard) [batch],
          { evaluator := start }⟩ moves actor ∧
        actor.state.evaluator.rounds.queued 1 = [Modulus.encode (.ofNat 0)] ∧
        actor.state.evaluator.ledger.records = []) ∧
      ∃ moves evaluator, Path ⟨Evaluator.runBatch (.standard (table.party 0) .standard) batch,
          start⟩ moves ⟨.pure (), evaluator⟩ ∧ evaluator.ledger.records = [] := by
  intro table deal start batch
  have hconfig : Config.standard.validate = .ok () := by decide
  obtain ⟨hqueue, hover⟩ := outputs_checked_before_and_after hconfig (table.party 0) default [batch]
  let first : Actor (Player Schedule CircuitGate Board) Unit :=
    ⟨Player.playCalls (.standard (table.party 0) .standard) [batch], { evaluator := start }⟩
  have hslots : ∃ slot ∈ (first.settle 14).2.state.evaluator.slots,
      slot.gate.revealsOutput = true ∧ slot.gate.opening?.isSome = true := by decide +kernel
  have hqueued : (first.settle 14).2.state.evaluator.rounds.queued 1 =
      [Modulus.encode (.ofNat 0)] := by decide +kernel
  have hempty : (first.settle 14).2.state.evaluator.ledger.records = [] := by
    obtain ⟨⟨gate, done⟩, hslot, hreveals, hopening⟩ := hslots
    cases gate with
    | opening => cases hreveals
    | compute => cases hopening
    | output opening =>
      exact (hqueue _ _ (.settle 14 first) opening done 1 hslot (hqueued ▸ List.cons_ne_nil _ _)).1
  have hvalid : deal.Valid table := ⟨by decide, by decide, by decide +kernel⟩
  obtain ⟨moves, final, hpath⟩ := @exists_path_runBatch table .standard (fun _ => default)
    [.output deal] (List.forall_mem_singleton.mpr hvalid) (by decide)
    DealtGate.streamComputes_output
    (fun _ => Source.draws_default) 0
  exact ⟨hconfig, ⟨_, _, .settle 14 first, hqueued, hempty⟩, moves, final, hpath,
    hover _ _ _ _ _ (List.mem_singleton_self _) hpath⟩

end Outputs
end AuthenticatedMpc
