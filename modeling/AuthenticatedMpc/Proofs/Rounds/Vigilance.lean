import AuthenticatedMpc.Proofs.Rounds.Exchange
import AuthenticatedMpc.Proofs.Runs.Vigilance

/-!
# Rounds are vigilant

Whatever gates of a batch talk about, a failure of the transport or a packet of another phase ends
the batch. Its other errors are those of its gates and of talking.
-/

namespace AuthenticatedMpc

variable {P : Event → Prop} {Q : Error → Prop} {G W : Type} {me : Party}

/-- A predicate that holds of all errors of talking to peers. -/
structure CoversTalk (Q : Error → Prop) : Prop where
  desynchronized : ∀ cause, Q (.desynchronized cause)
  setup : ∀ cause, Q (.setup cause)

theorem coversTalk_true : CoversTalk fun _ => True := ⟨fun _ => trivial, fun _ => trivial⟩

namespace RoundBuffer

theorem vigilant_fetch (hQ : CoversTalk Q) (peer : PartyId) : (fetch peer).Vigilant P Q := by
  refine .get_bind fun buffer => ?_
  split
  · trivial
  · refine ⟨fun _ => rfl, ⟨buffer.phase, fun packet hne => ?_⟩, fun packet => ?_⟩
    · exact ⟨_, if_neg hne⟩
    · change Program.Vigilant P Q (if packet.phase = buffer.phase then _ else _)
      split
      · exact .modify
      · exact hQ.desynchronized _

theorem vigilant_receive (hQ : CoversTalk Q) (me peer : PartyId) :
    (receive me peer).Vigilant P Q := by
  refine .get_bind fun buffer => ?_
  split
  · refine (vigilant_fetch hQ peer).bind fun _ => .get_bind fun buffer => ?_
    split
    · exact .modify_bind trivial
    · exact hQ.desynchronized _
  · exact hQ.setup _

theorem vigilant_flushTo (peers : List PartyId) : (flushTo peers).Vigilant P Q := by
  induction peers with
  | nil => trivial
  | cons peer rest ih =>
    refine .get_bind fun buffer => ?_
    split
    · exact ih
    · exact .modify_bind ((Program.Vigilant.transmit peer _).bind fun _ => ih)

theorem vigilant_endRound (hQ : CoversTalk Q) : endRound.Vigilant P Q := by
  refine .get_bind fun buffer => .modify_bind ?_
  cases buffer.surplus? with
  | none => trivial
  | some => exact hQ.desynchronized _

theorem vigilant_ship (hQ : CoversTalk Q) : ship.Vigilant P Q :=
  (Program.Vigilant.get_bind fun _ => vigilant_flushTo _).bind fun _ => vigilant_endRound hQ

end RoundBuffer

namespace Desk

theorem vigilant_broadcast (payload : Payload) :
    (broadcast me payload : Program (Desk W) Unit).Vigilant P Q :=
  Program.Vigilant.modify.zoom

theorem vigilant_receive (hQ : CoversTalk Q) (peer : PartyId) :
    (receive me peer : Program (Desk W) Payload).Vigilant P Q :=
  (RoundBuffer.vigilant_receive hQ me.id peer).zoom

theorem vigilant_gather (hQ : CoversTalk Q) {read : PartyId → Payload → Except Error Element}
    (hread : ∀ peer payload error, read peer payload = .error error → Q error)
    (peers : List PartyId) (total : Element) :
    (gather me read peers total : Program (Desk W) Element).Vigilant P Q := by
  induction peers generalizing total with
  | nil => trivial
  | cons peer rest ih =>
    exact (vigilant_receive hQ peer).bind fun payload =>
      (Program.Vigilant.ofExcept (hread peer payload)).bind fun _ => ih _

end Desk

namespace Bench

variable [Gate G W]

theorem vigilant_evaluateAt (hP : ∀ phase place round, P (.evaluating phase place round)) {round : Nat}
    (hgate : ∀ gate : G, (Gate.evaluate me round gate : Program (Desk W) _).Vigilant P Q) (place : Nat) :
    (evaluateAt me round place : Program (Bench G W) Unit).Vigilant P Q := by
  refine .get_bind fun bench => ?_
  split
  · refine ⟨?_, fun _ => (hgate _).zoom.bind fun _ => .modify⟩
    rintro _ ⟨⟩
    exact hP _ _ _
  · trivial

theorem vigilant_runRound (hQ : CoversTalk Q)
    (hP : ∀ phase place round, P (.evaluating phase place round)) {round : Nat}
    (hgate : ∀ gate : G, (Gate.evaluate me round gate : Program (Desk W) _).Vigilant P Q) :
    (runRound me round : Program (Bench G W) Unit).Vigilant P Q := by
  have hplaces : ∀ places,
      (evaluatePlaces me round places : Program (Bench G W) Unit).Vigilant P Q := by
    intro places
    induction places with
    | nil => trivial
    | cons place rest ih => exact (vigilant_evaluateAt hP hgate place).bind fun _ => ih
  exact .get_bind fun _ => (hplaces _).bind fun _ =>
    (Program.Vigilant.get_bind fun _ => RoundBuffer.vigilant_flushTo _).zoom.bind fun _ =>
      (RoundBuffer.vigilant_endRound hQ).zoom

/-- A batch of vigilant gates is vigilant. -/
theorem vigilant_process (hQ : CoversTalk Q)
    (hP : ∀ phase place round, P (.evaluating phase place round))
    (hgate : ∀ round (gate : G), (Gate.evaluate me round gate : Program (Desk W) _).Vigilant P Q) :
    (process me : Program (Bench G W) Nat).Vigilant P Q := by
  have hrounds : ∀ limit round, (runRounds me limit round : Program (Bench G W) Nat).Vigilant P Q := by
    intro limit
    induction limit with
    | zero => exact fun _ => trivial
    | succ limit ih =>
      refine fun round => .get_bind fun bench => ?_
      split
      · trivial
      · exact (vigilant_runRound hQ hP (hgate round)).bind fun _ => ih (round + 1)
  exact hrounds _ _

end Bench
end AuthenticatedMpc
