import AuthenticatedMpc.Proofs.Evaluation.Scrutiny

/-!
# An evaluation stops at its first fault

The first fault in a run of an evaluation is its last act: from there on the party makes silent
moves only, on which it neither takes gates nor releases outputs, and returns exactly that error. It
keeps the error, and every later evaluation returns it and leaves everything as it is.
-/

namespace AuthenticatedMpc

theorem Judge.FirstFault.path {σ α : Type} {judge : Judge σ} {error : Error} {visit : Option Visit}
    {a b : Actor σ α} {moves : List Move} (h : judge.FirstFault error visit a moves b) :
    Path a moves b := by
  induction h with
  | now last => exact .head last (.refl _)
  | later first _ _ ih => exact .head first ih

namespace Evaluator

/-! ## After an error -/

section Aftermath

variable {S G W : Type} [Gate G W]

/-- Evaluations of any streams, one after the other, with the moves and the outcome of each. -/
inductive Calls (setting : Setting S) :
    Evaluator S G W → List (List Move × Except Error Summary) → Evaluator S G W → Prop
  | nil (evaluator : Evaluator S G W) : Calls setting evaluator [] evaluator
  | cons {a b c : Evaluator S G W} {calls : List (List Move × Except Error Summary)}
      {moves : List Move} {outcome : Except Error Summary} (gates : List G)
      (call : Path ⟨evaluate setting gates, a⟩ moves ⟨.ofExcept outcome, b⟩)
      (rest : Calls setting b calls c) : Calls setting a ((moves, outcome) :: calls) c

/-- All later evaluations return the error and do nothing else. -/
structure StaysFailed (setting : Setting S) (error : Error) (evaluator : Evaluator S G W) : Prop where
  returns : ∀ gates, ∃ moves,
    Path ⟨evaluate setting gates, evaluator⟩ moves ⟨.fail error, evaluator⟩
  idle : ∀ {gates moves actor}, Path ⟨evaluate setting gates, evaluator⟩ moves actor →
    Silent moves ∧ actor.state = evaluator
  calls : ∀ {calls last}, Calls setting evaluator calls last →
    last = evaluator ∧ ∀ call ∈ calls, Silent call.1 ∧ call.2 = .error error

/-- The party returns the error, and changes nothing before it does but the messages of the round,
the bench of the check and the error that it keeps. -/
structure Stops (setting : Setting S) (error : Error) (actor : Actor (Evaluator S G W) Summary) :
    Prop where
  returns : ∃ moves final, Path actor moves ⟨.fail error, final⟩
  idle : ∀ {moves actor'}, Path actor moves actor' →
    Silent moves ∧ Unmoved actor.state actor'.state
  ends : ∀ {moves outcome final}, Path actor moves ⟨.ofExcept outcome, final⟩ →
    outcome = .error error ∧ StaysFailed setting error final

variable {setting : Setting S} {error : Error} {evaluator : Evaluator S G W} {gates : List G}

theorem givesUp_of_aborted (h : evaluator.aborted = some error) (gates : List G) :
    (evaluate setting gates).GivesUp (· = evaluator) error evaluator := by
  refine .get_bind rfl ?_
  rw [h]
  exact ⟨rfl, rfl⟩

theorem staysFailed_of_aborted (h : evaluator.aborted = some error) :
    StaysFailed setting error evaluator where
  returns gates := by
    have hgivesUp : (evaluate setting gates).GivesUp (· = evaluator) error evaluator :=
      givesUp_of_aborted h gates
    obtain ⟨moves, outcome, final, hpath, rfl⟩ := hgivesUp.exists_path
    obtain ⟨-, rfl, -⟩ := hgivesUp.ended hpath
    exact ⟨moves, hpath⟩
  idle {gates _ _} hpath := by
    obtain ⟨hsilent, hrest⟩ := (givesUp_of_aborted h gates).path hpath
    exact ⟨hsilent, hrest.during⟩
  calls hcalls := by
    induction hcalls with
    | nil => exact ⟨rfl, nofun⟩
    | cons gates call rest ih =>
      obtain ⟨hsilent, rfl, houtcome⟩ := (givesUp_of_aborted h gates).ended call
      obtain ⟨hlast, hcalls⟩ := ih h
      exact ⟨hlast, List.forall_mem_cons.mpr ⟨⟨hsilent, houtcome⟩, hcalls⟩⟩

theorem aborted_of_path {moves : List Move} {final : Evaluator S G W}
    (haborted : evaluator.aborted = none)
    (hpath : Path ⟨evaluate setting gates, evaluator⟩ moves ⟨.fail error, final⟩) :
    final.aborted = some error := by
  have hmeets : (evaluate setting gates).Meets
      { during := fun _ _ => True
        returns := fun _ _ _ => True
        fails := fun error _ final => final.aborted = some error } [] evaluator := by
    refine .get_bind trivial ?_
    rw [haborted]
    exact .attempt_bind ((Program.Meets.of_paths ..).mono (fun _ _ _ => trivial)
      (fun _ _ _ _ _ => ⟨trivial, trivial⟩) fun _ _ _ _ _ => ⟨trivial, trivial, rfl⟩)
  exact (hmeets.path hpath fun _ _ => trivial).2

end Aftermath

/-! ## The first fault -/

/-- An evaluation fails if and only if it comes to a fault. After the first one it returns exactly
this error, makes no transport call, takes no gate and releases no output; and so do all later
evaluations. -/
theorem evaluate_stops (me : Party) (config : Config) (hooks : Hooks)
    (evaluator : Evaluator Schedule CircuitGate Board) (gates : List CircuitGate)
    (haborted : evaluator.aborted = none) :
    let setting : Setting Schedule := .hooked me config hooks
    let call : Actor (Evaluator Schedule CircuitGate Board) Summary :=
      ⟨evaluate setting gates, evaluator⟩
    (∀ error moves actor, (judge me).FirstFault error none call moves actor →
      Stops setting error actor) ∧
    ∀ error moves final, Path call moves ⟨.fail error, final⟩ →
      ∃ front back actor, moves = front ++ back ∧
        (judge me).FirstFault error none call front actor ∧ Silent back := by
  intro setting call
  have hrests : evaluator.RoundsClosed none := ⟨nofun, fun ⟨_, hvisit⟩ => by cases hvisit⟩
  have hheeds : (evaluate setting gates).Heeds (judge me)
      (fun _ now evaluator' => evaluator'.RoundsClosed now) none evaluator :=
    heeds_evaluate gates haborted hrests
  refine ⟨fun error moves actor hfault => ?_, fun error moves final => hheeds.exists_firstFault⟩
  have hgivesUp := hheeds.givesUp hfault
  refine ⟨?_, fun hpath => ?_, fun hpath => ?_⟩
  · obtain ⟨back, outcome, final, hpath, rfl⟩ := hgivesUp.exists_path
    exact ⟨back, final, hpath⟩
  · obtain ⟨hsilent, hrest⟩ := hgivesUp.path hpath
    exact ⟨hsilent, hrest.during⟩
  · obtain ⟨-, -, rfl⟩ := hgivesUp.ended hpath
    exact ⟨rfl, staysFailed_of_aborted (aborted_of_path haborted (hfault.path.trans hpath))⟩

/-- The first of two parties has one value to open and cannot send its share: it returns the error
of the transport, and has stopped. -/
theorem stops_of_refused :
    let me : Party := ⟨0, 2, ⟨.ofNat 7, by decide⟩, .ofNat 2, by decide, by decide, by decide⟩
    let setting : Setting Schedule := .hooked me .standard .all
    let start : Evaluator Schedule CircuitGate Board := .start .start default .empty
    let gates : List CircuitGate := [.output { share := ⟨.ofNat 3, .ofNat 5⟩, handle := 0 }]
    start.aborted = none ∧ ∃ moves actor,
      (judge me).FirstFault (.network .connectionClosed) none ⟨evaluate setting gates, start⟩ moves
        actor ∧
      Stops setting (.network .connectionClosed) actor := by
  intro me setting start gates
  have hrefused : (Actor.refuse .connectionClosed 100
      ⟨evaluate setting gates, start⟩).2.program.failure? = some (.network .connectionClosed) := by
    decide +kernel
  obtain ⟨moves, final, hpath⟩ := Path.exists_fail hrefused
  obtain ⟨hstops, hfaults⟩ := evaluate_stops me .standard .all start gates rfl
  obtain ⟨front, back, actor, -, hfault, -⟩ := hfaults _ _ _ hpath
  exact ⟨rfl, front, actor, hfault, hstops _ _ _ hfault⟩

end Evaluator
end AuthenticatedMpc
