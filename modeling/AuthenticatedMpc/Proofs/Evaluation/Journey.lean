import AuthenticatedMpc.Proofs.Runs.Contract
import AuthenticatedMpc.Proofs.Runs.Parts
import AuthenticatedMpc.Simulation.Player

/-!
# From batch to batch and from call to call

Between two batches a party has its custody and an empty round. What every batch keeps, and the hook
at the end, holds there in all calls up to the first error. What holds at every moment of a batch
and of that hook holds at every moment of all calls, also after an error.
-/

namespace AuthenticatedMpc

theorem length_le_of_mem_batchesWithin {α : Type} {size count : Nat} {elements batch : List α}
    (h : batch ∈ batchesWithin size count elements) : batch.length ≤ size := by
  induction count generalizing elements with
  | zero => exact absurd h List.not_mem_nil
  | succ count ih =>
    unfold batchesWithin at h
    split at h
    · exact absurd h List.not_mem_nil
    · rcases List.mem_cons.mp h with rfl | hrest
      · exact List.length_take_le ..
      · exact ih hrest

/-- Events of a party that is not at work. -/
def Event.IsPause : Option Event → Prop
  | none | some .returned => True
  | _ => False

variable {S G W : Type} [Gate G W]

theorem Evaluator.dealings_releaseVerified (evaluator : Evaluator S G W) :
    custodyPart.get evaluator.releaseVerified = custodyPart.get evaluator ∧
      evaluator.releaseVerified.rounds = evaluator.rounds := by
  unfold releaseVerified
  split <;> exact ⟨rfl, rfl⟩

/-- An evaluation that has ended returned an earlier error at once, or ended as its stream did. The error
of a stream is kept. -/
theorem Evaluator.ended_of_evaluate {setting : Setting S} {gates : List G} {e e' : Evaluator S G W}
    {moves : List Move} {outcome : Except Error Summary}
    (hpath : Path ⟨evaluate setting gates, e⟩ moves ⟨.ofExcept outcome, e'⟩) :
    (∃ error, e.aborted = some error ∧ outcome = .error error ∧ moves = [.inner none] ∧ e' = e) ∨
      e.aborted = none ∧
        ((∃ summary rest, outcome = .ok summary ∧ moves = .inner none :: rest ∧
            Path ⟨runStream setting gates, e⟩ rest ⟨.ofExcept (.ok summary), e'⟩) ∨
          ∃ error rest last, outcome = .error error ∧ moves = .inner none :: (rest ++ [.inner none]) ∧
            e' = { last with aborted := some error } ∧
            Path ⟨runStream setting gates, e⟩ rest ⟨.ofExcept (.error error), last⟩) := by
  obtain ⟨moves, rfl, hstart⟩ := hpath.ended_of_get_bind
  cases haborted : e.aborted with
  | some error =>
    rw [haborted] at hstart
    obtain ⟨rfl, rfl, rfl⟩ := hstart.ended_of_fail
    exact .inl ⟨error, rfl, rfl, rfl, rfl⟩
  | none =>
    rw [haborted] at hstart
    obtain ⟨front, back, result, last, rfl, hstream, hrest⟩ := hstart.ended_of_attempt_bind
    refine .inr ⟨rfl, ?_⟩
    cases result with
    | ok summary =>
      obtain ⟨rfl, rfl, rfl⟩ := hrest.ended_of_pure
      exact .inl ⟨summary, front, rfl, by rw [List.append_nil], hstream⟩
    | error error =>
      obtain ⟨_, rfl, hend⟩ := hrest.ended_of_modify_bind
      obtain ⟨rfl, rfl, rfl⟩ := hend.ended_of_fail
      exact .inr ⟨error, front, last, rfl, rfl, rfl, hstream⟩

/-- What a party carries from batch to batch: an invariant of the gates that are done, the moves,
the custody and the round, and what the hook at the end of a call leaves. -/
structure Evaluator.BatchInvariant (terms : Terms (Evaluator S G W)) (setting : Setting S)
    (stream : List G) (inv : List G → List Move → Custody S → RoundBuffer → Prop)
    (closed : Custody S → Prop) : Prop where
  during : ∀ {done now evaluator}, done <+: stream →
    inv done now (custodyPart.get evaluator) evaluator.rounds → terms.during now evaluator
  pause : ∀ {done past custody rounds event}, Event.IsPause event →
    inv done past custody rounds → inv done (past ++ [.inner event]) custody rounds
  /-- An error that is kept does not matter. -/
  abort : ∀ {past evaluator event} aborted, Event.IsPause event →
    terms.during past evaluator → terms.during (past ++ [.inner event]) { evaluator with aborted }
  batch : ∀ {done batch past evaluator},
    inv done past (custodyPart.get evaluator) evaluator.rounds →
    done ++ batch <+: stream → batch.length ≤ setting.config.maxBatchSize.toNat →
    (runBatch setting batch).Meets
      (terms.contract id fun _ now evaluator =>
        inv (done ++ batch) now (custodyPart.get evaluator) evaluator.rounds) past evaluator
  finish : ∀ {done past evaluator}, inv done past (custodyPart.get evaluator) evaluator.rounds →
    done <+: stream →
    ((setting.controller.afterEvaluation setting.me).zoom custodyPart).Meets
      (terms.contract id fun _ now evaluator =>
        inv done now (custodyPart.get evaluator) evaluator.rounds ∧
          closed (custodyPart.get evaluator)) past evaluator

/-- After an error only what holds at every moment is left. -/
structure Player.BatchInvariantHolds (terms : Terms (Evaluator S G W))
    (inv : List G → List Move → Custody S → RoundBuffer → Prop) (closed : Custody S → Prop)
    (done : List G) (now : List Move) (player : Player S G W) : Prop where
  during : terms.during now player.evaluator
  between : player.evaluator.aborted = none →
    inv done now (Evaluator.custodyPart.get player.evaluator) player.evaluator.rounds
  returned : ∀ summary, player.outcome = some (.ok summary) →
    inv done now (Evaluator.custodyPart.get player.evaluator) player.evaluator.rounds ∧
      closed (Evaluator.custodyPart.get player.evaluator)

namespace Evaluator.BatchInvariant

variable {terms : Terms (Evaluator S G W)} {setting : Setting S} {stream done gates : List G}
  {inv : List G → List Move → Custody S → RoundBuffer → Prop} {closed : Custody S → Prop}
  {past now : List Move} {evaluator : Evaluator S G W}

theorem silent (h : BatchInvariant terms setting stream inv closed) {custody : Custody S}
    {rounds : RoundBuffer} (hinv : inv done past custody rounds) :
    inv done (past ++ [Move.inner none]) custody rounds :=
  h.pause trivial hinv

/-! ## Evaluations -/

theorem meets_runBatches (h : BatchInvariant terms setting stream inv closed)
    (hinv : inv done past (custodyPart.get evaluator) evaluator.rounds) {batches : List (List G)}
    (hbatches : done ++ batches.flatten <+: stream)
    (hlength : ∀ batch ∈ batches, batch.length ≤ setting.config.maxBatchSize.toNat) :
    (runBatches setting batches).Meets
      (terms.contract id fun _ now evaluator =>
        inv (done ++ batches.flatten) now (custodyPart.get evaluator) evaluator.rounds) past
      evaluator := by
  induction batches generalizing done past evaluator with
  | nil =>
    rw [List.flatten_nil, List.append_nil] at hbatches ⊢
    exact ⟨h.during hbatches hinv, hinv⟩
  | cons batch batches ih =>
    obtain ⟨hbatch, hlength⟩ := List.forall_mem_cons.mp hlength
    rw [List.flatten_cons, ← List.append_assoc] at hbatches ⊢
    exact (h.batch hinv ((List.prefix_append ..).trans hbatches) hbatch).bind_terms
      fun _ _ _ h₂ => ih h₂ hbatches hlength

theorem meets_runStream (h : BatchInvariant terms setting stream inv closed)
    (hsize : 0 < setting.config.maxBatchSize.toNat)
    (hinv : inv done past (custodyPart.get evaluator) evaluator.rounds)
    (hgates : done ++ gates <+: stream) :
    (runStream setting gates).Meets
      (terms.contract id fun _ now evaluator =>
        inv (done ++ gates) now (custodyPart.get evaluator) evaluator.rounds ∧
          closed (custodyPart.get evaluator)) past evaluator := by
  have hflatten := flatten_batches hsize gates
  have hbegin : inv done (past ++ [Move.inner none]) (custodyPart.get evaluator.begin)
      evaluator.begin.rounds := h.silent hinv
  have hlength : ∀ batch ∈ AuthenticatedMpc.batches setting.config.maxBatchSize.toNat gates,
      batch.length ≤ setting.config.maxBatchSize.toNat :=
    fun _ hbatch => length_le_of_mem_batchesWithin hbatch
  have hbatches := h.meets_runBatches hbegin (by rwa [hflatten]) hlength
  rw [hflatten] at hbatches
  refine .modify_bind (h.during ((List.prefix_append ..).trans hgates) hinv)
    (hbatches.bind_terms fun _ past₂ evaluator₂ h₂ => ?_)
  refine (h.finish h₂ hgates).bind_terms ?_
  rintro _ past₃ evaluator₃ ⟨h₃, hclosed⟩
  obtain ⟨hcustody, hrounds⟩ := evaluator₃.dealings_releaseVerified
  rw [← hcustody] at hclosed
  have hreleased : inv (done ++ gates) (past₃ ++ [Move.inner none])
      (custodyPart.get evaluator₃.releaseVerified) evaluator₃.releaseVerified.rounds := by
    rw [hcustody, hrounds]
    exact h.silent h₃
  have h₄ : ∀ {now} summary,
      inv (done ++ gates) now (custodyPart.get evaluator₃.releaseVerified)
        evaluator₃.releaseVerified.rounds →
      terms.during now { evaluator₃.releaseVerified with summary := summary } :=
    fun _ hnow => h.during hgates hnow
  exact .modify_bind (h.during hgates h₃)
    (.get_bind (h₄ _ hreleased) ⟨h₄ _ (h.silent hreleased), h.silent hreleased, hclosed⟩)

/-- An evaluation either returns, or keeps its error. -/
theorem meets_evaluate (h : BatchInvariant terms setting stream inv closed)
    (hsize : 0 < setting.config.maxBatchSize.toNat)
    (hinv : inv done past (custodyPart.get evaluator) evaluator.rounds)
    (hgates : done ++ gates <+: stream) (haborted : evaluator.aborted = none) :
    (evaluate setting gates).Meets
      { during := terms.during
        returns := fun _ now evaluator =>
          inv (done ++ gates) now (custodyPart.get evaluator) evaluator.rounds ∧
            closed (custodyPart.get evaluator)
        fails := fun _ _ evaluator => evaluator.aborted ≠ none
        assumes := terms.assumes } past evaluator := by
  refine .get_bind (h.during ((List.prefix_append ..).trans hgates) hinv) ?_
  rw [haborted]
  have hstream := h.meets_runStream hsize (h.silent hinv) hgates
  refine .attempt_bind (hstream.mono (fun _ _ => id) ?_ ?_)
  · exact fun _ _ _ hduring hreturned => ⟨hduring, hreturned⟩
  · intro error past₂ evaluator₂ hduring _
    exact ⟨hduring, h.abort (some error) trivial hduring, Option.some_ne_none error⟩

/-! ## Calls -/

variable {player : Player S G W}

theorem meets_evaluate_carried (h : BatchInvariant terms setting stream inv closed)
    (hsize : 0 < setting.config.maxBatchSize.toNat)
    (hplayer : player.BatchInvariantHolds terms inv closed done past)
    (hgates : done ++ gates <+: stream) :
    (evaluate setting gates).Meets
      { during := terms.during
        returns := fun _ now evaluator =>
          inv (done ++ gates) now (custodyPart.get evaluator) evaluator.rounds ∧
            closed (custodyPart.get evaluator)
        fails := fun _ _ evaluator => evaluator.aborted ≠ none
        assumes := terms.assumes } past player.evaluator := by
  cases haborted : player.evaluator.aborted with
  | none => exact h.meets_evaluate hsize (hplayer.between haborted) hgates haborted
  | some error =>
    refine .get_bind hplayer.during ?_
    rw [haborted]
    have hsilent : terms.during (past ++ [Move.inner none]) player.evaluator :=
      h.abort player.evaluator.aborted trivial hplayer.during
    exact ⟨hsilent, by simp [haborted]⟩

theorem pause_carried (h : BatchInvariant terms setting stream inv closed)
    (hplayer : player.BatchInvariantHolds terms inv closed done past) {event : Option Event}
    (hevent : Event.IsPause event) :
    player.BatchInvariantHolds terms inv closed done (past ++ [Move.inner event]) where
  during := h.abort player.evaluator.aborted hevent hplayer.during
  between haborted := h.pause hevent (hplayer.between haborted)
  returned summary hsummary := (hplayer.returned summary hsummary).imp_left (h.pause hevent)

theorem silent_carried (h : BatchInvariant terms setting stream inv closed)
    (hplayer : player.BatchInvariantHolds terms inv closed done past) :
    player.BatchInvariantHolds terms inv closed done (past ++ [Move.inner none]) :=
  h.pause_carried hplayer trivial

theorem meets_playCall (h : BatchInvariant terms setting stream inv closed)
    (hsize : 0 < setting.config.maxBatchSize.toNat)
    (hplayer : player.BatchInvariantHolds terms inv closed done past)
    (hgates : done ++ gates <+: stream) :
    (Player.playCall setting gates).Meets
      (terms.contract Player.evaluator fun _ now player =>
        player.BatchInvariantHolds terms inv closed (done ++ gates) now) past player := by
  -- However the evaluation ends, its outcome is kept and shown.
  have hreturn : ∀ {now evaluator outcome},
      Player.BatchInvariantHolds terms inv closed (done ++ gates) now
        { player with evaluator := evaluator, outcome := some outcome } →
      (do
        Program.modify fun player => { player with outcome := some outcome }
        Program.mark .returned
        Program.modify fun player => { player with call := player.call + 1 } :
          Program (Player S G W) Unit).Meets
        (terms.contract Player.evaluator fun _ now player =>
          player.BatchInvariantHolds terms inv closed (done ++ gates) now) now
        (Player.evaluatorPart.set player evaluator) := by
    intro now evaluator outcome hcarried
    have hkept := h.silent_carried hcarried
    have hshown : Player.BatchInvariantHolds terms inv closed (done ++ gates)
        (now ++ [Move.inner none] ++ [Move.inner (some .returned)]) _ :=
      h.pause_carried hkept trivial
    have hcounted := h.silent_carried hshown
    exact .modify_bind hcarried.during (.mark_bind hkept.during
      ⟨hshown.during, hcounted.during, { hcounted with }⟩)
  refine .attempt_bind (.zoom ((h.meets_evaluate_carried hsize hplayer hgates).mono (fun _ _ => id)
    ?_ ?_))
  · intro summary now evaluator hduring hreturned
    exact hreturn ⟨hduring, fun _ => hreturned.1, fun _ _ => hreturned⟩
  · intro error now evaluator hduring haborted
    exact hreturn ⟨hduring, fun hnone => absurd hnone haborted, nofun⟩

theorem meets_playCalls (h : BatchInvariant terms setting stream inv closed)
    (hsize : 0 < setting.config.maxBatchSize.toNat)
    (hplayer : player.BatchInvariantHolds terms inv closed done past) {calls : List (List G)}
    (hcalls : done ++ calls.flatten <+: stream) :
    (Player.playCalls setting calls).Meets
      (terms.contract Player.evaluator fun _ now player =>
        player.BatchInvariantHolds terms inv closed (done ++ calls.flatten) now) past player := by
  induction calls generalizing done past player with
  | nil =>
    rw [List.flatten_nil, List.append_nil]
    exact ⟨hplayer.during, hplayer⟩
  | cons gates calls ih =>
    rw [List.flatten_cons, ← List.append_assoc] at hcalls ⊢
    exact (h.meets_playCall hsize hplayer ((List.prefix_append ..).trans hcalls)).bind_terms
      fun _ _ _ h₂ => ih h₂ hcalls

end Evaluator.BatchInvariant
end AuthenticatedMpc
