import AuthenticatedMpc.Proofs.Rounds.Exchange
import AuthenticatedMpc.Proofs.Runs.Contract

/-!
# The rounds of a batch under a contract

A round visits the slots of a batch in order. What holds of the slots that were visited and of those
that were not is an invariant of the round, and it may speak of the whole bench at every moment. The
rounds of a batch have an invariant that follows their number.
-/

namespace AuthenticatedMpc

variable {ω G W : Type} [Gate G W] {terms : Terms ω} {view : Bench G W → ω} {me : Party} {round : Nat}
  {inv : List (Slot G) → List (Slot G) → List Move → Desk W → Prop} {front back : List (Slot G)}
  {past : List Move} {desk : Desk W}

theorem Slot.forall_mem_replace {G : Type} {Q : Slot G → Prop} {front back : List (Slot G)}
    {slot slot' : Slot G} (h : ∀ other ∈ front ++ slot :: back, Q other) (hslot : Q slot') :
    ∀ other ∈ front ++ [slot'] ++ back, Q other := by
  intro other hother
  rw [List.append_assoc, List.singleton_append, List.mem_append, List.mem_cons] at hother
  rcases hother with hfront | rfl | hback
  · exact h other (List.mem_append_left _ hfront)
  · exact hslot
  · exact h other (List.mem_append_right _ (List.mem_cons_of_mem _ hback))

def Bench.board {G : Type} (bench : Bench G W) : W := bench.desk.board

/-- What holds in a round of a batch, of the slots that were visited in it and of those that were
not, and of the bench while a gate is evaluated. -/
structure Visiting (terms : Terms ω) (view : Bench G W → ω) (me : Party) (round : Nat)
    (inv : List (Slot G) → List (Slot G) → List Move → Desk W → Prop) : Prop where
  during : ∀ {front back now desk}, inv front back now desk →
    terms.during now (view ⟨front ++ back, desk⟩)
  silent : ∀ {front back now desk}, inv front back now desk →
    inv front back (now ++ [.inner none]) desk
  skip : ∀ {front gate back now desk}, inv front (⟨gate, true⟩ :: back) now desk →
    inv (front ++ [⟨gate, true⟩]) back now desk
  evaluate : ∀ {front gate back now desk}, inv front (⟨gate, false⟩ :: back) now desk →
    (Gate.evaluate me round gate).Meets
      (terms.contract (fun desk' => view ⟨front ++ ⟨gate, false⟩ :: back, desk'⟩) fun result now desk' =>
        inv (front ++ [⟨result.1, decide (result.2 = .done)⟩]) back now desk')
      (now ++ [.inner (some (.evaluating desk.rounds.phase front.length round))]) desk

namespace Visiting

/-- The slots of a batch are visited in order. -/
theorem meets_evaluatePlaces (hvisits : Visiting terms view me round inv)
    (h : inv front back past desk) :
    (Bench.evaluatePlaces me round (List.range' front.length back.length)).Meets
      (terms.contract view fun _ now bench => inv bench.slots [] now bench.desk) past
      ⟨front ++ back, desk⟩ := by
  induction back generalizing front past desk with
  | nil =>
    have hnow := hvisits.during h
    exact ⟨hnow, by rwa [List.append_nil]⟩
  | cons slot back ih =>
    obtain ⟨gate, done⟩ := slot
    have hslot : (front ++ ⟨gate, done⟩ :: back)[front.length]? = some ⟨gate, done⟩ := by simp
    have hplace : (Bench.evaluateAt me round front.length).Meets
        (terms.contract view fun _ now bench => ∃ slot desk',
          inv (front ++ [slot]) back now desk' ∧ bench = ⟨front ++ [slot] ++ back, desk'⟩) past
        ⟨front ++ ⟨gate, done⟩ :: back, desk⟩ := by
      refine .get_bind (hvisits.during h) ?_
      rw [hslot]
      cases done with
      | true =>
        exact ⟨hvisits.during (hvisits.silent h), _, desk, hvisits.skip (hvisits.silent h),
          by rw [List.append_assoc]; rfl⟩
      | false =>
        -- While the gate is in its old slot, the bench is still that of the gate's own contract.
        have hzoom : ((Gate.evaluate me round gate).zoom Bench.deskPart).Meets
            (terms.contract view fun result now bench => terms.during now (view bench) ∧
              inv (front ++ [⟨result.1, decide (result.2 = .done)⟩]) back now bench.desk ∧
                bench.slots = front ++ ⟨gate, false⟩ :: back)
            (past ++ [Move.inner none] ++
              [.inner (some (.evaluating desk.rounds.phase front.length round))])
            ⟨front ++ ⟨gate, false⟩ :: back, desk⟩ :=
          .zoom ((hvisits.evaluate (hvisits.silent h)).mono (fun _ _ => id)
            (fun _ _ _ hnow hinv => ⟨hnow, hinv, rfl⟩) fun _ _ _ _ => id)
        refine .mark_bind (hvisits.during (hvisits.silent h)) (hzoom.bind_terms ?_)
        rintro ⟨gate', status⟩ now ⟨_, desk'⟩ ⟨hnow, hinv, rfl⟩
        have hput : Bench.put front.length gate' status ⟨front ++ ⟨gate, false⟩ :: back, desk'⟩ =
            ⟨front ++ [⟨gate', decide (status = .done)⟩] ++ back, desk'⟩ := by simp [Bench.put]
        have hafter := hvisits.during (hvisits.silent hinv)
        rw [← hput] at hafter
        exact ⟨hnow, hafter, _, desk', hvisits.silent hinv, hput⟩
    refine hplace.bind_terms ?_
    rintro _ now _ ⟨slot, desk', hinv, rfl⟩
    have hrest := ih hinv
    rwa [List.length_append, List.length_singleton] at hrest

/-- A round visits all slots and is closed. -/
theorem meets_runRound {next : List Move → Bench G W → Prop} {bench : Bench G W}
    (hvisits : Visiting terms view me round inv)
    (hship : ∀ slots now desk, inv slots [] now desk →
      RoundBuffer.ship.Meets (terms.contract (fun rounds => view ⟨slots, { desk with rounds }⟩)
        fun _ now rounds => next now ⟨slots, { desk with rounds }⟩) now desk.rounds)
    (h : inv [] bench.slots past bench.desk) :
    (Bench.runRound me round).Meets (terms.contract view fun _ => next) past bench := by
  rw [Bench.runRound_eq]
  refine .get_bind (hvisits.during h) ?_
  have hplaces := hvisits.meets_evaluatePlaces (hvisits.silent h)
  rw [List.length_nil, ← List.range_eq_range'] at hplaces
  exact hplaces.bind_terms fun _ now bench hinv => .zoom (hship _ now _ hinv)

end Visiting

/-- A batch goes from round to round until all of its gates are done. -/
theorem Bench.meets_runRounds (inv : Nat → List Move → Bench G W → Prop)
    (hduring : ∀ {round now bench}, inv round now bench → terms.during now (view bench))
    (hsilent : ∀ {round now bench}, inv round now bench → inv round (now ++ [.inner none]) bench)
    (hround : ∀ {round now bench}, inv round now bench → bench.isDone = false →
      (runRound me round).Meets (terms.contract view fun _ => inv (round + 1)) now bench)
    {limit : Nat} {bench : Bench G W} (h : inv round past bench) :
    (runRounds me limit round).Meets
      (terms.contract view fun rounds now bench => inv rounds now bench ∧ bench.isDone = true) past
      bench := by
  induction limit generalizing round past bench with
  | zero => exact hduring h
  | succ limit ih =>
    have hnow := hsilent h
    refine .get_bind (hduring h) ?_
    split
    · next hdone => exact ⟨hduring hnow, hnow, hdone⟩
    · next hdone => exact (hround hnow (Bool.not_eq_true _ ▸ hdone)).bind_terms fun _ _ _ => ih

end AuthenticatedMpc
