import AuthenticatedMpc.Circuit.CircuitGate
import AuthenticatedMpc.Proofs.Rounds.Scrutiny

/-!
# What is wrong with a batch of a circuit

A gate that opens a value objects to a share that cannot be decoded; a gate that only computes may
refuse to go on. There is nothing else that such gates fail for.
-/

namespace AuthenticatedMpc

def Party.readShare (me : Party) (_ : PartyId) (payload : Payload) : Except Error Element :=
  (me.modulus.decode payload).mapError .encoding

def CircuitGate.scrutiny (me : Party) : Scrutiny CircuitGate Board where
  refusal? _ board
    | .compute gate => failureOf (gate.act (board :: gate.seen))
    | _ => none
  objections? round
    | .opening _ | .output _ => answersOf me.readShare round
    | .compute _ => none

section Gates

variable {me : Party} {phase : Phase} {round : Nat} {visit : Option Visit}
  {judge : Judge (Desk Board)} {desk : Desk Board} {inv : Desk Board → Prop} {error : Error}

theorem Opening.evaluate_eq (opening : Opening) : opening.evaluate me round =
    (if round = 0 then do
      Desk.broadcast me (Modulus.encode opening.share.value)
      pure (opening, .moreRounds)
    else do
      let values ← (RoundBuffer.hearAll me.id me.readShare me.peers).zoom Desk.roundsPart
      let value := values.foldl me.modulus.add opening.share.value
      Program.record (.opened ⟨value, opening.share.mac⟩) fun desk =>
        { desk with ledger := desk.ledger.append value opening.share.mac }
      pure ({ opening with opened := some value }, .done)) := by
  unfold evaluate
  congr 1
  rw [Desk.gather_eq, bind_assoc]
  rfl

theorem Opening.heeds_evaluate (opening : Opening)
    (h : judge.Attends visit phase (answersOf me.readShare round))
    (htidy : desk.rounds.Tidy me phase)
    (hfine : desk.objection? (answersOf me.readShare round) me phase = none) :
    (opening.evaluate me round).Heeds judge
      (fun _ now desk' => now = visit ∧ desk'.rounds.Tidy me phase) visit desk := by
  rw [evaluate_eq]
  exact h.heeds_exchange htidy hfine (fun _ hrounds => ⟨rfl, hrounds⟩) fun _ _ hrounds =>
    .record_bind (.of_none (h.opened ..) ⟨rfl, hrounds⟩)

theorem Opening.givesUp_evaluate (opening : Opening) (hinv : ∀ rounds, inv { desk with rounds })
    (htidy : desk.rounds.Tidy me phase)
    (hfault : desk.objection? (answersOf me.readShare round) me phase = some error) :
    (opening.evaluate me round).GivesUp inv error desk := by
  rw [evaluate_eq]
  exact givesUp_exchange hinv htidy hfault

theorem LocalGate.heeds_evaluate (gate : LocalGate) (h : judge.Attends visit phase none)
    (htidy : desk.rounds.Tidy me phase)
    (hfine : failureOf (gate.act (desk.board :: gate.seen)) = none) :
    gate.evaluate.Heeds judge
      (fun _ now desk' => now = visit ∧ desk'.rounds.Tidy me phase) visit desk := by
  refine .get_bind (h.silent _ _ rfl) ?_
  dsimp only
  cases hstatus : gate.act (desk.board :: gate.seen) with
  | ok status => exact ⟨rfl, htidy⟩
  | error error =>
    rw [hstatus] at hfine
    cases hfine

theorem LocalGate.givesUp_evaluate (gate : LocalGate) (hinv : inv desk)
    (hfault : failureOf (gate.act (desk.board :: gate.seen)) = some error) :
    gate.evaluate.GivesUp inv error desk := by
  refine .get_bind hinv ?_
  dsimp only
  cases hstatus : gate.act (desk.board :: gate.seen) with
  | ok status =>
    rw [hstatus] at hfault
    cases hfault
  | error cause =>
    rw [hstatus] at hfault
    cases hfault
    exact ⟨hinv, rfl⟩

/-- The gates of a circuit fail for what the scrutiny says and for nothing else. -/
theorem CircuitGate.governs (me : Party) : (scrutiny me).Governs me where
  heeds := by
    intro round gate phase visit desk judge h htidy hfine
    cases gate with
    | opening gate =>
      refine (gate.heeds_evaluate h htidy hfine).bind ?_
      rintro ⟨gate, status⟩ _ desk ⟨rfl, htidy⟩
      have hpublish : ({ desk with board := gate.publish desk.board } : Desk Board).rounds =
        desk.rounds := rfl
      exact .modify_bind (h.silent _ _ hpublish) ⟨rfl, htidy⟩
    | output gate =>
      refine (gate.heeds_evaluate h htidy hfine).bind ?_
      rintro ⟨gate, status⟩ _ desk ⟨rfl, htidy⟩
      exact ⟨rfl, htidy⟩
    | compute gate =>
      have hact : (failureOf (gate.act (desk.board :: gate.seen))).or none = none := hfine
      rw [Option.or_none] at hact
      exact (gate.heeds_evaluate h htidy hact).bind fun _ _ _ => id
  givesUp := by
    intro round gate phase desk error inv hinv htidy hfault
    cases gate with
    | opening gate => exact (gate.givesUp_evaluate hinv htidy hfault).bind
    | output gate => exact (gate.givesUp_evaluate hinv htidy hfault).bind
    | compute gate =>
      have hact : (failureOf (gate.act (desk.board :: gate.seen))).or none = some error := hfault
      rw [Option.or_none] at hact
      exact (gate.givesUp_evaluate (hinv desk.rounds) hact).bind

end Gates
end AuthenticatedMpc
