import AuthenticatedMpc.Proofs.Circuit.Recording
import AuthenticatedMpc.Proofs.Evaluation.Calls
import AuthenticatedMpc.Proofs.Evaluation.Honesty
import Mathlib.Data.List.Pairwise
import Mathlib.Tactic.ByContra

/-!
# Outputs are released after their check

Whatever the transport delivers, an output is published only when its opening was in a check that
has passed. The controller may be any that takes nothing else out of the ledger.
-/

namespace AuthenticatedMpc

variable {S : Type}

/-! ## Handles -/

namespace CircuitGate

def handle? : CircuitGate → Option Handle
  | opening gate | output gate => some gate.handle
  | compute _ => none

/-- An output is to be published under the handle. -/
def IsOutput (gates : List CircuitGate) (handle : Handle) : Prop :=
  ∃ opening, .output opening ∈ gates ∧ opening.handle = handle

variable {gates : List CircuitGate} {gate gate' : CircuitGate}

theorem eq_of_handle? (hnodup : (gates.filterMap handle?).Nodup) (hgate : gate ∈ gates)
    (hgate' : gate' ∈ gates) {handle : Handle} (h : gate.handle? = some handle)
    (h' : gate'.handle? = some handle) : gate = gate' := by
  by_contra hne
  have hsymm : Std.Symm fun a b : CircuitGate =>
      ∀ x, a.handle? = some x → ∀ y, b.handle? = some y → x ≠ y :=
    ⟨fun _ _ hdistinct x hx y hy heq => hdistinct y hy x hx heq.symm⟩
  exact (List.pairwise_filterMap.mp hnodup).forall hgate hgate' hne handle h handle h' rfl

theorem spares_isOutput (hnodup : (gates.filterMap handle?).Nodup) (hgate : gate ∈ gates) :
    gate.Spares (IsOutput gates) := by
  cases gate with
  | opening gate =>
    rintro ⟨opening, hopening, heq⟩
    cases eq_of_handle? hnodup hgate hopening rfl (congrArg some heq)
  | output | compute => trivial

end CircuitGate

/-! ## Evaluations -/

/-- Each value that stands under the handle of an output was in a check that has passed. -/
def Board.Verified (me : Party) (gates : List CircuitGate) (past : List Move) (board : Board) :
    Prop :=
  ∀ opening, .output opening ∈ gates → ∀ value, board.value? opening.handle = some value →
    Covered me past ⟨value, opening.share.mac⟩

theorem Board.Verified.mono {me : Party} {gates : List CircuitGate} {past now : List Move}
    {board : Board} (h : board.Verified me gates past) (hpast : past <+: now) :
    board.Verified me gates now :=
  fun opening hmem value hvalue => (h opening hmem value hvalue).mono hpast

def Contract.verified {α : Type} (me : Party) (gates : List CircuitGate)
    (ready : α → List Move → Evaluator S CircuitGate Board → Prop) :
    Contract (Evaluator S CircuitGate Board) α where
  during now evaluator := evaluator.board.Verified me gates now
  returns := ready
  fails _ now evaluator := evaluator.board.Verified me gates now

theorem Program.Meets.bind_verified {α β : Type} {me : Party} {gates : List CircuitGate}
    {ready : α → List Move → Evaluator S CircuitGate Board → Prop}
    {post : β → List Move → Evaluator S CircuitGate Board → Prop}
    {p : Program (Evaluator S CircuitGate Board) α}
    {k : α → Program (Evaluator S CircuitGate Board) β} {past : List Move}
    {evaluator : Evaluator S CircuitGate Board} (h : p.Meets (.verified me gates ready) past evaluator)
    (hnext : ∀ value past evaluator, ready value past evaluator →
      (k value).Meets (.verified me gates post) past evaluator) :
    (p >>= k).Meets (.verified me gates post) past evaluator :=
  @bind _ _ _ (.verified me gates post) ready p k past evaluator h hnext

/-- The board is verified, and what the gates hold back is in the ledger or was in a check. -/
structure OutputsRecorded (setting : Setting S) (start : Custody S) (gates held : List CircuitGate)
    (past : List Move) (evaluator : Evaluator S CircuitGate Board) : Prop where
  reaches : setting.controller.Reaches setting.me start past (Evaluator.custodyPart.get evaluator)
  verified : evaluator.board.Verified setting.me gates past
  held : ∀ gate ∈ held, (∃ origin ∈ gates, origin.Becomes gate) ∧
    gate.Recorded fun record =>
      record ∈ evaluator.ledger.records ∨ Covered setting.me past record

namespace OutputsRecorded

variable {setting : Setting S} {start : Custody S} {gates held : List CircuitGate}
  {past now : List Move} {evaluator : Evaluator S CircuitGate Board}

theorem mono (h : OutputsRecorded setting start gates held past evaluator) (hpast : past <+: now) :
    OutputsRecorded setting start gates held now evaluator := by
  obtain ⟨moves, rfl⟩ := hpast
  exact ⟨h.reaches.between (List.prefix_refl _), h.verified.mono (List.prefix_append ..),
    fun gate hgate => (h.held gate hgate).imp_right fun hrecorded => hrecorded.imp fun record =>
      Or.imp_right (Covered.mono · (List.prefix_append ..))⟩

theorem subset {fewer : List CircuitGate}
    (h : OutputsRecorded setting start gates held past evaluator)
    (hsub : fewer ⊆ held) : OutputsRecorded setting start gates fewer past evaluator :=
  ⟨h.reaches, h.verified, fun gate hgate => h.held gate (hsub hgate)⟩

theorem meets_hook (h : OutputsRecorded setting start gates held past evaluator)
    (hhonest : setting.controller.Honest setting.me start) {hook : Program (Custody S) Unit}
    (hhook : setting.controller.IsHook setting.me hook) :
    (hook.zoom Evaluator.custodyPart).Meets
      (.verified setting.me gates fun _ now e =>
        ∃ custody, e = Evaluator.custodyPart.set evaluator custody ∧
          OutputsRecorded setting start gates held now e) past evaluator := by
  refine .zoom ((Program.Meets.of_paths hook past _).mono ?_ ?_ ?_)
  · rintro _ custody ⟨moves, _, rfl, -⟩
    exact h.verified.mono (List.prefix_append ..)
  · rintro _ _ custody - ⟨moves, rfl, hpath⟩
    refine ⟨custody, rfl, h.reaches.hook hhook hpath, h.verified.mono (List.prefix_append ..),
      fun gate hgate => (h.held gate hgate).imp_right fun hrecorded => hrecorded.imp ?_⟩
    rintro record (hrecord | hcovered)
    · exact hhonest past moves _ custody hook h.reaches hhook hpath record hrecord
    · exact .inr (hcovered.mono (List.prefix_append ..))
  · rintro _ _ custody ⟨moves, _, rfl, -⟩ -
    exact h.verified.mono (List.prefix_append ..)

/-- A batch that is evaluated to its end holds its outputs back. -/
theorem meets_process (h : OutputsRecorded setting start gates held past evaluator)
    (hspares : ∀ gate ∈ gates, gate.Spares (CircuitGate.IsOutput gates))
    (hslots : ∀ slot ∈ evaluator.slots, slot.gate ∈ gates ∧ slot.done = false) :
    ((Bench.process setting.me).zoom Evaluator.benchPart).Meets
      (.verified setting.me gates fun _ now e =>
        ∃ bench, e = Evaluator.benchPart.set evaluator bench ∧
          OutputsRecorded setting start gates (held ++ e.slots.map Slot.gate) now e) past evaluator := by
  have htracks : (Evaluator.benchPart.get evaluator).Tracks (CircuitGate.IsOutput gates) gates
      (Evaluator.benchPart.get evaluator).desk :=
    ⟨.refl _, fun slot hslot => ⟨⟨_, (hslots slot hslot).1, .refl _⟩, fun hdone => by
      rw [(hslots slot hslot).2] at hdone
      cases hdone⟩⟩
  have hverified : ∀ {now} {bench : Bench CircuitGate Board}, past <+: now →
      bench.Tracks (CircuitGate.IsOutput gates) gates (Evaluator.benchPart.get evaluator).desk →
      bench.desk.board.Verified setting.me gates now := by
    intro now bench hpast hbench opening hmem value hvalue
    rw [hbench.extended.value _ ⟨opening, hmem, rfl⟩] at hvalue
    exact (h.verified opening hmem value hvalue).mono hpast
  refine .zoom ((Bench.meets_process hspares htracks).since.mono ?_ ?_ ?_)
  · exact fun _ _ hbench => hverified hbench.1 hbench.2
  · rintro _ now bench - ⟨hpast, hbench, hdone⟩
    refine ⟨bench, rfl, ?_, hverified hpast hbench, ?_⟩
    · obtain ⟨moves, rfl⟩ := hpast
      exact h.reaches.between hbench.extended.records
    · intro gate hgate
      obtain hgate | hgate := List.mem_append.mp hgate
      · obtain ⟨horigin, hrecorded⟩ := h.held gate hgate
        exact ⟨horigin, hrecorded.imp fun record => Or.imp (hbench.extended.records.subset ·)
          (Covered.mono · hpast)⟩
      · obtain ⟨slot, hslot, rfl⟩ := List.mem_map.mp hgate
        exact (hbench.slot slot hslot).imp_right fun hrecorded =>
          (hrecorded (List.all_eq_true.mp hdone slot hslot)).imp fun _ => .inl
  · exact fun _ _ _ _ hbench => hverified hbench.1 hbench.2

theorem verified_release (h : OutputsRecorded setting start gates held past evaluator)
    (hnodup : (gates.filterMap CircuitGate.handle?).Nodup) (hempty : evaluator.ledger.records = []) :
    (held.foldl (fun board gate => Gate.release gate board) evaluator.board).Verified setting.me
      gates past := by
  have hheld : ∀ gate ∈ held, (∃ origin ∈ gates, origin.Becomes gate) ∧
      gate.Recorded (Covered setting.me past) := by
    refine fun gate hgate => (h.held gate hgate).imp_right fun hrecorded =>
      hrecorded.imp fun record hrecord => hrecord.resolve_left ?_
    rw [hempty]
    exact List.not_mem_nil
  have hverified := h.verified
  generalize evaluator.board = board at hverified ⊢
  clear h
  induction held generalizing board with
  | nil => exact hverified
  | cons gate held ih =>
    obtain ⟨⟨⟨origin, horigin, hbecomes⟩, hrecorded⟩, hheld⟩ := List.forall_mem_cons.mp hheld
    refine ih hheld _ ?_
    cases hbecomes with
    | opening | compute => exact hverified
    | output gate opened =>
      obtain ⟨value, rfl, hcovered⟩ := hrecorded
      intro opening hopening other hother
      change (board.publish gate.handle value).value? _ = _ at hother
      rw [Board.value?_publish] at hother
      cases hold : board.value? opening.handle with
      | some old =>
        rw [hold, Option.some_or] at hother
        exact hverified opening hopening other (hold.trans hother)
      | none =>
        rw [hold, Option.none_or] at hother
        split at hother
        · next heq =>
          cases CircuitGate.eq_of_handle? hnodup hopening horigin rfl (congrArg some heq.symm)
          cases hother
          exact hcovered
        · cases hother

theorem releaseVerified (h : OutputsRecorded setting start gates held past evaluator)
    (hheld : evaluator.staged ⊆ held) (hnodup : (gates.filterMap CircuitGate.handle?).Nodup) :
    OutputsRecorded setting start gates evaluator.releaseVerified.staged past
      evaluator.releaseVerified := by
  unfold Evaluator.releaseVerified
  split
  · next hempty =>
    exact ⟨h.reaches, (h.subset hheld).verified_release hnodup ((Ledger.isEmpty_iff _).mp hempty),
      nofun⟩
  · exact h.subset hheld

theorem finishBatch (h : OutputsRecorded setting start gates held past evaluator)
    (hheld : evaluator.staged ++ evaluator.slots.map Slot.gate ⊆ held) :
    OutputsRecorded setting start gates evaluator.finishBatch.staged past evaluator.finishBatch := by
  refine ⟨h.reaches, h.verified, (h.subset (List.Subset.trans (fun gate hgate => ?_) hheld)).held⟩
  obtain hstaged | hslot := List.mem_append.mp hgate
  · exact List.mem_append_left _ hstaged
  · exact List.mem_append_right _ (List.mem_filter.mp hslot).1

theorem meets_runBatch (h : OutputsRecorded setting start gates evaluator.staged past evaluator)
    (hhonest : setting.controller.Honest setting.me start)
    (hnodup : (gates.filterMap CircuitGate.handle?).Nodup) {batch : List CircuitGate}
    (hbatch : batch ⊆ gates) :
    (Evaluator.runBatch setting batch).Meets (.verified setting.me gates fun _ now e =>
      OutputsRecorded setting start gates e.staged now e) past evaluator := by
  have h₁ : OutputsRecorded setting start gates evaluator.staged
      (past ++ [Move.inner (some (.taken batch.length))])
      { evaluator with taken := evaluator.taken + batch.length } :=
    { h.mono (List.prefix_append ..) with }
  refine .record_bind h.verified ((h₁.meets_hook hhonest (.beforeBatch _)).bind_verified ?_)
  rintro _ past₂ _ ⟨custody, rfl, h₂⟩
  have h₃ : OutputsRecorded setting start gates evaluator.staged (past₂ ++ [Move.inner none])
      (Evaluator.load setting batch (Evaluator.custodyPart.set
        { evaluator with taken := evaluator.taken + batch.length } custody)) :=
    { h₂.mono (List.prefix_append ..) with }
  refine .modify_bind h₂.verified ((h₃.meets_process
    (fun gate hgate => CircuitGate.spares_isOutput hnodup hgate) ?_).bind_verified ?_)
  · intro slot hslot
    obtain ⟨gate, hgate, rfl⟩ := List.mem_map.mp hslot
    exact ⟨hbatch hgate, rfl⟩
  rintro _ past₄ _ ⟨bench, rfl, h₄⟩
  refine (h₄.meets_hook hhonest (.afterBatch _)).bind_verified ?_
  rintro _ past₅ _ ⟨custody, rfl, h₅⟩
  have h₆ := ((h₅.mono (List.prefix_append past₅ [.inner none])).finishBatch
    (List.Subset.refl _)).releaseVerified (List.Subset.refl _) hnodup
  exact ⟨h₅.verified, h₆.verified, h₆⟩

theorem meets_runBatches (h : OutputsRecorded setting start gates evaluator.staged past evaluator)
    (hhonest : setting.controller.Honest setting.me start)
    (hnodup : (gates.filterMap CircuitGate.handle?).Nodup) {batches : List (List CircuitGate)}
    (hbatches : ∀ batch ∈ batches, batch ⊆ gates) :
    (Evaluator.runBatches setting batches).Meets (.verified setting.me gates fun _ now e =>
      OutputsRecorded setting start gates e.staged now e) past evaluator := by
  induction batches generalizing past evaluator with
  | nil => exact ⟨h.verified, h⟩
  | cons batch batches ih =>
    obtain ⟨hbatch, hbatches⟩ := List.forall_mem_cons.mp hbatches
    exact (h.meets_runBatch hhonest hnodup hbatch).bind_verified fun _ _ _ h => ih h hbatches

end OutputsRecorded

/-- What holds between calls: after an error only the board matters. -/
structure VerifiedBetweenCalls (setting : Setting S) (start : Custody S) (gates : List CircuitGate)
    (past : List Move) (evaluator : Evaluator S CircuitGate Board) : Prop where
  verified : evaluator.board.Verified setting.me gates past
  reaches : evaluator.aborted = none →
    setting.controller.Reaches setting.me start past (Evaluator.custodyPart.get evaluator)

/-- At every moment the board is verified, and at the end, even if it is an error, the next call can
begin. -/
def Contract.ready {σ α : Type} (setting : Setting S) (start : Custody S) (gates : List CircuitGate)
    (part : σ → Evaluator S CircuitGate Board) : Contract σ α where
  during now s := (part s).board.Verified setting.me gates now
  returns _ now s := VerifiedBetweenCalls setting start gates now (part s)
  fails _ now s := VerifiedBetweenCalls setting start gates now (part s)

section Calls

variable {setting : Setting S} {start : Custody S} {gates stream : List CircuitGate}
  {past now : List Move} {evaluator : Evaluator S CircuitGate Board}

theorem VerifiedBetweenCalls.mono (h : VerifiedBetweenCalls setting start gates past evaluator)
    (hpast : past <+: now) :
    VerifiedBetweenCalls setting start gates now evaluator := by
  refine ⟨h.verified.mono hpast, fun haborted => ?_⟩
  obtain ⟨moves, rfl⟩ := hpast
  exact (h.reaches haborted).between (List.prefix_refl _)

theorem VerifiedBetweenCalls.meets_runStream
    (h : VerifiedBetweenCalls setting start gates past evaluator)
    (haborted : evaluator.aborted = none) (hhonest : setting.controller.Honest setting.me start)
    (hnodup : (gates.filterMap CircuitGate.handle?).Nodup) (hstream : stream ⊆ gates) :
    (Evaluator.runStream setting stream).Meets (.verified setting.me gates fun _ now e =>
      VerifiedBetweenCalls setting start gates now e) past evaluator := by
  have h₁ : OutputsRecorded setting start gates [] (past ++ [Move.inner none]) evaluator.begin :=
    ⟨(h.reaches haborted).between (List.prefix_refl _), h.verified.mono (List.prefix_append ..),
      nofun⟩
  refine .modify_bind h.verified ((h₁.meets_runBatches hhonest hnodup fun batch hbatch =>
    List.Subset.trans (batchesWithin_subset hbatch) hstream).bind_verified ?_)
  intro _ past₂ evaluator h₂
  refine (h₂.meets_hook hhonest .afterEvaluation).bind_verified ?_
  rintro _ past₃ _ ⟨custody, rfl, h₃⟩
  have h₄ := (h₃.mono (List.prefix_append past₃ [.inner none])).releaseVerified
    (List.Subset.refl _) hnodup
  refine .modify_bind h₃.verified (.get_bind h₄.verified ?_)
  have h₅ := h₄.mono (List.prefix_append _ [.inner none])
  exact ⟨h₅.verified, h₅.verified, fun _ => h₅.reaches⟩

theorem VerifiedBetweenCalls.meets_evaluate
    (h : VerifiedBetweenCalls setting start gates past evaluator)
    (hhonest : setting.controller.Honest setting.me start)
    (hnodup : (gates.filterMap CircuitGate.handle?).Nodup) (hstream : stream ⊆ gates) :
    (Evaluator.evaluate setting stream).Meets (.ready setting start gates id) past evaluator := by
  have h₁ := h.mono (List.prefix_append past [.inner none])
  refine .get_bind h.verified ?_
  split
  · exact ⟨h₁.verified, h₁⟩
  · next haborted =>
    have hstream := h₁.meets_runStream haborted hhonest hnodup hstream
    refine .attempt_bind (hstream.mono (fun _ _ => id) ?_ ?_)
    · intro summary past₂ evaluator _ h₂
      exact ⟨h₂.verified, h₂⟩
    · intro error past₂ evaluator _ h₂
      have h₃ := h₂.mono (List.prefix_append past₂ [.inner none])
      exact ⟨h₂, h₃, h₃, fun haborted => by cases haborted⟩

theorem VerifiedBetweenCalls.meets_playCall {player : Player S CircuitGate Board}
    (h : VerifiedBetweenCalls setting start gates past player.evaluator)
    (hhonest : setting.controller.Honest setting.me start)
    (hnodup : (gates.filterMap CircuitGate.handle?).Nodup) (hstream : stream ⊆ gates) :
    (Player.playCall setting stream).Meets (.ready setting start gates Player.evaluator) past
      player := by
  have hcall : ((Evaluator.evaluate setting stream).zoom Player.evaluatorPart).attempt.Meets
      ((Contract.ready (α := Unit) setting start gates Player.evaluator).before fun _ now player =>
        VerifiedBetweenCalls setting start gates now player.evaluator) past player :=
    .attempt (.zoom (h.meets_evaluate hhonest hnodup hstream))
  refine hcall.bind fun outcome past₂ player h₂ => ?_
  have h₃ := h₂.mono (List.prefix_append past₂ [.inner none])
  have h₄ := h₃.mono (List.prefix_append _ [.inner (some .returned)])
  have h₅ := h₄.mono (List.prefix_append _ [.inner none])
  exact .modify_bind h₂.verified (.mark_bind h₃.verified ⟨h₄.verified, h₅.verified, h₅⟩)

theorem VerifiedBetweenCalls.meets_playCalls {player : Player S CircuitGate Board}
    (h : VerifiedBetweenCalls setting start gates past player.evaluator)
    (hhonest : setting.controller.Honest setting.me start)
    (hnodup : (gates.filterMap CircuitGate.handle?).Nodup) {calls : List (List CircuitGate)}
    (hcalls : ∀ stream ∈ calls, stream ⊆ gates) :
    (Player.playCalls setting calls).Meets (.ready setting start gates Player.evaluator) past
      player := by
  induction calls generalizing past player with
  | nil => exact ⟨h.verified, h⟩
  | cons stream calls ih =>
    obtain ⟨hstream, hcalls⟩ := List.forall_mem_cons.mp hcalls
    exact Program.Meets.bind (h.meets_playCall hhonest hnodup hstream) fun _ _ _ h => ih h hcalls

/-- Every controller that checks what it takes releases only what was in a check that has passed; the
standard controller is such a controller, with any of its hooks left out. -/
theorem covered_of_value?_eq_some :
    (∀ (config : Config) (hooks : Hooks) (me : Party) (start : Custody Schedule),
      ((Schedule.controller config).restrict hooks).Honest me start) ∧
    ∀ {S : Type} (setting : Setting S) (control : S) (generator : Source)
      (calls : List (List CircuitGate)),
      setting.controller.Honest setting.me ⟨control, .empty, .idle generator⟩ →
      (calls.flatten.filterMap CircuitGate.handle?).Nodup →
      ∀ (moves : List Move) (actor : Actor (Player S CircuitGate Board) Unit),
        Path ⟨Player.playCalls setting calls,
          { evaluator := .start control generator .empty }⟩ moves actor →
        ∀ opening, .output opening ∈ calls.flatten →
          ∀ value, actor.state.evaluator.board.value? opening.handle = some value →
            Covered setting.me moves ⟨value, opening.share.mac⟩ := by
  refine ⟨Schedule.honest_restrict, fun setting control generator calls hhonest hnodup moves actor
    hpath opening hopening value hvalue => ?_⟩
  have hstart : VerifiedBetweenCalls setting ⟨control, .empty, .idle generator⟩ calls.flatten []
      (Evaluator.start control generator .empty) :=
    ⟨fun _ _ _ => nofun, fun _ => .start⟩
  have hmeets := @VerifiedBetweenCalls.meets_playCalls _ setting _ calls.flatten []
    { evaluator := .start control generator .empty } hstart hhonest hnodup calls
    fun stream hstream gate hgate => List.mem_flatten.mpr ⟨stream, hstream, hgate⟩
  exact (hmeets.path hpath fun _ _ => trivial).during opening hopening value hvalue

/-- The first of two parties with the shares 0 and 4 of the value 4 modulo 7 has a run in which the
value stands on its board; then it was in a check. -/
theorem covered_of_value?_eq_some_seven :
    let table : Table :=
      ⟨2, ⟨.ofNat 7, by decide⟩, fun i => .ofNat (i + 1), by decide, by decide⟩
    let deal : Deal := ⟨1, .ofNat 4, fun i => ⟨.ofNat (4 * i), .ofNat (i + 2)⟩⟩
    let setting := table.setting .standard 0
    let gates : List CircuitGate := [.output (deal.opening 0 false)]
    setting.controller.Honest setting.me ⟨.start, .empty, .idle default⟩ ∧
      ([gates].flatten.filterMap CircuitGate.handle?).Nodup ∧
      ∃ moves actor,
        Path ⟨Player.playCalls setting [gates], { evaluator := .start .start default .empty }⟩
          moves actor ∧
        actor.state.evaluator.board.value? deal.handle = some deal.value ∧
        Covered setting.me moves (deal.record 0) := by
  intro table deal setting gates
  have hhonest : setting.controller.Honest setting.me ⟨.start, .empty, .idle default⟩ :=
    Schedule.honest_restrict .standard .all _ _
  have hvalid : deal.Valid table := ⟨by decide, by decide, by decide +kernel⟩
  obtain ⟨summaries, moves, final, hpath, hcomplete⟩ :=
    @exists_path_playCalls table .standard [[.output deal]] default (by decide)
      (List.forall_mem_singleton.mpr hvalid) (by decide) DealtGate.streamComputes_of_single_output
      (fun _ => Source.draws_default) 0
  have hvalue : final.evaluator.board.value? deal.handle = some deal.value :=
    hcomplete.holds deal (List.mem_singleton_self _)
  have hopening : .output (deal.opening 0 false) ∈ [gates].flatten := List.mem_singleton_self _
  exact ⟨hhonest, List.nodup_singleton _, moves, _, hpath, hvalue,
    covered_of_value?_eq_some.2 setting .start default [gates] hhonest (List.nodup_singleton _)
      moves _ hpath _ hopening _ hvalue⟩

end Calls
end AuthenticatedMpc
