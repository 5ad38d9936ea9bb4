import AuthenticatedMpc.Proofs.Rounds.Exchange

/-!
# Rounds of a batch

The gates of a batch are evaluated one after the other on one desk; a pass over them describes what
they do together, without their places.
-/

namespace AuthenticatedMpc

variable {G W : Type} [Gate G W]

/-- One round of the gates in the given slots, before the round ends. -/
inductive Pass (me : Party) (round : Nat) :
    List (Slot G) → Desk W → List Signal → List (Slot G) → Desk W → Prop
  | nil (desk : Desk W) : Pass me round [] desk [] [] desk
  | skip {gate : G} {slots slots' : List (Slot G)} {desk desk' : Desk W} {talk : List Signal}
      (rest : Pass me round slots desk talk slots' desk') :
      Pass me round (⟨gate, true⟩ :: slots) desk talk (⟨gate, true⟩ :: slots') desk'
  | evaluate {gate gate' : G} {status : Status} {slots slots' : List (Slot G)}
      {desk middle desk' : Desk W} {front back : List Signal}
      (first : (Gate.evaluate me round gate).Ends desk front (.ok (gate', status)) middle)
      (rest : Pass me round slots middle back slots' desk') :
      Pass me round (⟨gate, false⟩ :: slots) desk (front ++ back)
        (⟨gate', decide (status = .done)⟩ :: slots') desk'

namespace Pass

variable {me : Party} {round : Nat} {slots slots' : List (Slot G)} {desk desk' : Desk W}
  {talk : List Signal}

theorem ends (h : Pass me round slots desk talk slots' desk') (before : List (Slot G)) :
    (Bench.evaluatePlaces me round (List.range' before.length slots.length)).Ends
      ⟨before ++ slots, desk⟩ talk (.ok ()) ⟨before ++ slots', desk'⟩ := by
  induction h generalizing before with
  | nil => exact ⟨rfl, rfl, rfl⟩
  | @skip gate slots slots' desk desk' talk _ ih =>
    have hslot : (before ++ ⟨gate, true⟩ :: slots)[before.length]? = some ⟨gate, true⟩ := by simp
    have hrest := ih (before ++ [⟨gate, true⟩])
    rw [List.length_append, List.length_singleton, List.append_assoc, List.append_assoc] at hrest
    exact ((Bench.ends_evaluateAt_done hslot).mpr ⟨rfl, rfl, rfl⟩).bind hrest
  | @evaluate gate gate' status slots slots' desk middle desk' front back first _ ih =>
    have hslot : (before ++ ⟨gate, false⟩ :: slots)[before.length]? = some ⟨gate, false⟩ := by simp
    have hput : Bench.put before.length gate' status
        (⟨before ++ ⟨gate, false⟩ :: slots, middle⟩ : Bench G W) =
        ⟨before ++ [⟨gate', decide (status = .done)⟩] ++ slots, middle⟩ := by
      simp [Bench.put]
    have hfirst : (Bench.evaluateAt me round before.length).Ends
        ⟨before ++ ⟨gate, false⟩ :: slots, desk⟩ front (.ok ())
        (Bench.put before.length gate' status ⟨before ++ ⟨gate, false⟩ :: slots, middle⟩) :=
      (Bench.ends_evaluateAt hslot).mpr ⟨gate', status, middle, first, rfl⟩
    have hrest := ih (before ++ [⟨gate', decide (status = .done)⟩])
    rw [List.length_append, List.length_singleton, ← hput,
      List.append_assoc before _ slots'] at hrest
    exact hfirst.bind hrest

/-- A pass and the end of its round are a round. -/
theorem ends_runRound (h : Pass me round slots desk talk slots' desk') {rounds : RoundBuffer}
    {shipped : List Signal} (hship : RoundBuffer.ship.Ends desk'.rounds shipped (.ok ()) rounds) :
    (Bench.runRound me round).Ends ⟨slots, desk⟩ (talk ++ shipped) (.ok ())
      ⟨slots', { desk' with rounds }⟩ := by
  have hplaces := h.ends []
  rw [List.length_nil, ← List.range_eq_range'] at hplaces
  have hzoom : (RoundBuffer.ship.zoom Bench.roundsPart : Program (Bench G W) Unit).Ends
      ⟨slots', desk'⟩ shipped (.ok ()) ⟨slots', { desk' with rounds }⟩ :=
    Program.ends_zoom.mpr ⟨rounds, rfl, hship⟩
  rw [Bench.runRound_eq, Program.ends_get_bind]
  exact hplaces.bind hzoom

end Pass
end AuthenticatedMpc
