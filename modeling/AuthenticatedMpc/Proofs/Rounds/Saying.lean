import AuthenticatedMpc.Proofs.Rounds.Exchanging
import AuthenticatedMpc.Proofs.Rounds.Visiting

/-!
# What is said in an exchange

Whatever the transport does, a single gate that talks says no more than its own packet, once to every
peer: it has nothing queued when it has begun to read.
-/

namespace AuthenticatedMpc

variable {ω G W : Type} [Gate G W] {me : Party} {exchanges : List (PartyId → Packet)}
  {own : Packet} {past : List Move} {gate : G} {desk : Desk W} {round : Nat}

/-- Terms on which a party says at most its own packet, and may fail as it likes. -/
def Terms.saying (me : Party) (exchanges : List (PartyId → Packet)) (own : Packet) : Terms ω where
  during now _ := Saying me exchanges own now
  fails _ := True
  assumes _ := True

theorem Terms.suits_saying :
    (saying me exchanges own : Terms ω).Suits me exchanges own (fun _ _ => True) fun _ => True :=
  ⟨fun _ _ hsaying _ => hsaying, fun _ _ => trivial, fun _ _ _ _ _ _ _ => trivial⟩

theorem Saying.inner {now : List Move} {event : Option Event} (h : Saying me exchanges own now) :
    Saying me exchanges own (now ++ [Move.inner event]) := by
  simpa [Saying] using h

/-! ## Rounds of a single gate -/

namespace Bench

theorem meets_runRound_single {terms : Terms W} {before : List Move → Desk W → Prop}
    {after next : G × Status → List Move → Desk W → Prop}
    (hbefore : ∀ {now desk}, before now desk → terms.during now desk.board)
    (hafter : ∀ {result now desk}, after result now desk → terms.during now desk.board)
    (hbefore_inner : ∀ {now desk} event, before now desk → before (now ++ [Move.inner event]) desk)
    (hafter_inner : ∀ {result now desk} event,
      after result now desk → after result (now ++ [Move.inner event]) desk)
    (hgate : ∀ {now desk}, before now desk → (Gate.evaluate me round gate).Meets
      (terms.contract Desk.board after) now desk)
    (hship : ∀ {result now desk}, after result now desk → RoundBuffer.ship.Meets
      (terms.contract (fun _ => desk.board) fun _ now rounds =>
        next result now { desk with rounds }) now desk.rounds)
    (h : before past desk) :
    (runRound me round).Meets
      (terms.contract Bench.board fun _ now bench => ∃ result,
        bench.slots = [⟨result.1, decide (result.2 = .done)⟩] ∧ next result now bench.desk) past
      ⟨[⟨gate, false⟩], desk⟩ := by
  have hvisits : Visiting terms Bench.board me round fun front back now desk =>
      (front = [] ∧ back = [⟨gate, false⟩] ∧ before now desk) ∨
        ∃ result, front = [⟨result.1, decide (result.2 = .done)⟩] ∧ back = [] ∧
          after result now desk := {
    during := by
      rintro front back now desk (⟨-, -, h⟩ | ⟨result, -, -, h⟩)
      · exact hbefore h
      · exact hafter h
    silent := by
      rintro front back now desk (⟨hfront, hback, h⟩ | ⟨result, hfront, hback, h⟩)
      · exact .inl ⟨hfront, hback, hbefore_inner none h⟩
      · exact .inr ⟨result, hfront, hback, hafter_inner none h⟩
    skip := by
      rintro front gate' back now desk (⟨-, hback, -⟩ | ⟨result, -, hback, -⟩)
      · cases hback
      · cases hback
    evaluate := by
      rintro front gate' back now desk (⟨rfl, hback, h⟩ | ⟨result, -, hback, -⟩)
      · cases hback
        refine (hgate (hbefore_inner _ h)).mono_terms ?_
        intro result now desk' hresult
        exact .inr ⟨result, rfl, rfl, hresult⟩
      · cases hback }
  refine hvisits.meets_runRound ?_ (.inl ⟨rfl, rfl, h⟩)
  rintro slots now desk (⟨-, hback, -⟩ | ⟨result, rfl, -, h⟩)
  · cases hback
  · exact (hship h).mono_terms fun _ now rounds hnext => ⟨result, rfl, hnext⟩

theorem meets_runRound_saying {payload : Payload}
    (hpost : (Gate.evaluate me 0 gate : Program (Desk W) _) = do
      Desk.broadcast me payload
      pure (gate, .moreRounds))
    (hown : own.messages = [payload]) (h : Exchanged me exchanges past)
    (hrounds : desk.rounds = .start own.phase me.parties) :
    (runRound me 0).Meets
      ((Terms.saying me exchanges own).contract Bench.board fun _ now bench =>
        bench.slots = [⟨gate, false⟩] ∧ (∃ chronicle,
          Standing me exchanges own (fun _ => true) (fun _ => none) chronicle now) ∧
        bench.desk.rounds = .start own.phase me.parties) past
      ⟨[⟨gate, false⟩], desk⟩ := by
  let posted : RoundBuffer := .of own.phase me.parties
    (fun q => if q = me.id then [] else own.messages) (fun _ => []) fun _ => false
  let Before (now : List Move) (desk : Desk W) : Prop :=
    Exchanged me exchanges now ∧ desk.rounds = .start own.phase me.parties
  let After (result : G × Status) (now : List Move) (desk : Desk W) : Prop :=
    result = (gate, .moreRounds) ∧ Exchanged me exchanges now ∧ desk.rounds = posted
  let Next (result : G × Status) (now : List Move) (desk : Desk W) : Prop :=
    result = (gate, .moreRounds) ∧ (∃ chronicle,
      Standing me exchanges own (fun _ => true) (fun _ => none) chronicle now) ∧
    desk.rounds = .start own.phase me.parties
  have hround : (runRound me 0).Meets
      ((Terms.saying me exchanges own).contract Bench.board fun _ now bench => ∃ result,
        bench.slots = [⟨result.1, decide (result.2 = .done)⟩] ∧ Next result now bench.desk) past
      ⟨[⟨gate, false⟩], desk⟩ := by
    refine @meets_runRound_single _ _ _ _ _ _ _ _ _ Before After Next
      (fun h => h.1.saying own) (fun h => h.2.1.saying own)
      (fun _ h => ⟨h.1.inner, h.2⟩) (fun _ h => ⟨h.1, h.2.1.inner, h.2.2⟩) ?_ ?_ ⟨h, hrounds⟩
    · rintro now desk ⟨hnow, hrounds⟩
      rw [hpost]
      have hposted : desk.rounds.postAll me.id payload = posted := by
        rw [hrounds, RoundBuffer.start_eq_of, RoundBuffer.postAll_of]
        refine RoundBuffer.of_congr (fun q _ => ?_) (fun _ _ => rfl) fun _ _ => rfl
        rw [hown, List.nil_append]
      exact ⟨hnow.saying own, hnow.inner.saying own, rfl, hnow.inner, hposted⟩
    · rintro _ now desk ⟨rfl, hnow, hrounds⟩
      rw [hrounds]
      refine (RoundBuffer.meets_ship Terms.suits_saying trivial ?_ (hnow.standing own)).mono_terms ?_
      · intro q hq
        by_cases hme : q = me.id
        · exact .inl (if_pos hme)
        · exact .inr ⟨if_neg hme, rfl⟩
      · rintro _ now rounds ⟨hsent, -, rfl⟩
        refine ⟨rfl, ⟨_, hsent.congr ?_ fun _ _ => rfl⟩, rfl⟩
        intro q hq
        simp [(Party.mem_peers.mp hq).2, hown]
  refine hround.mono_terms ?_
  rintro _ now bench ⟨result, hslots, rfl, hnext⟩
  exact ⟨hslots, hnext⟩

/-- What has been read at some moment of the second round. -/
def Reads (me : Party) (exchanges : List (PartyId → Packet)) (own : Packet) (now : List Move)
    (rounds : RoundBuffer) : Prop :=
  ∃ heard used chronicle,
    Reading me exchanges own (fun _ _ => True) heard used chronicle now rounds

theorem meets_runRound_reading
    (hread : ∀ {now desk}, Reads me exchanges own now desk.rounds →
      (Gate.evaluate me 1 gate : Program (Desk W) _).Meets
        ((Terms.saying me exchanges own).contract Desk.board fun result now desk' =>
          result.2 = .done ∧ Reads me exchanges own now desk'.rounds) now desk)
    {chronicle : Chronicle}
    (h : Standing me exchanges own (fun _ => true) (fun _ => none) chronicle past)
    (hrounds : desk.rounds = .start own.phase me.parties) :
    (runRound me 1).Meets
      ((Terms.saying me exchanges own).contract Bench.board fun _ now bench =>
        bench.isDone = true ∧ Saying me exchanges own now) past ⟨[⟨gate, false⟩], desk⟩ := by
  let Before (now : List Move) (desk : Desk W) : Prop := Reads me exchanges own now desk.rounds
  let After (result : G × Status) (now : List Move) (desk : Desk W) : Prop :=
    result.2 = .done ∧ Reads me exchanges own now desk.rounds
  let Next (result : G × Status) (now : List Move) (_ : Desk W) : Prop :=
    result.2 = .done ∧ Saying me exchanges own now
  have hsaying : ∀ {now rounds}, Reads me exchanges own now rounds → Saying me exchanges own now :=
    fun ⟨_, _, _, hnow⟩ => hnow.standing.saying
  have hinner : ∀ {now rounds} event, Reads me exchanges own now rounds →
      Reads me exchanges own (now ++ [Move.inner event]) rounds :=
    fun event ⟨heard, used, chronicle, hnow⟩ => ⟨heard, used, _, hnow.inner event⟩
  have hround : (runRound me 1).Meets
      ((Terms.saying me exchanges own).contract Bench.board fun _ now bench => ∃ result,
        bench.slots = [⟨result.1, decide (result.2 = .done)⟩] ∧ Next result now bench.desk) past
      ⟨[⟨gate, false⟩], desk⟩ := by
    refine @meets_runRound_single _ _ _ _ _ _ _ _ _ Before After Next hsaying
      (fun h => hsaying h.2) hinner (fun event h => ⟨h.1, hinner event h.2⟩) hread ?_ ?_
    · rintro result now desk ⟨hdone, heard, used, chronicle, hnow⟩
      rw [hnow.rounds_eq]
      refine (RoundBuffer.meets_ship Terms.suits_saying trivial (fun _ _ => .inl rfl)
        hnow.standing).mono_terms ?_
      rintro _ now rounds ⟨hsent, -, -⟩
      exact ⟨hdone, hsent.saying⟩
    · refine ⟨fun _ => none, fun _ => 0, chronicle, h, nofun, fun _ _ _ => rfl, ?_⟩
      rw [hrounds, RoundBuffer.start_eq_of]
      rfl
  refine hround.mono_terms ?_
  rintro _ now bench ⟨result, hslots, hdone, hnow⟩
  exact ⟨by simp [Bench.isDone, hslots, hdone], hnow⟩

/-- What holds before a round of a single gate that talks. -/
def SaysBefore (me : Party) (exchanges : List (PartyId → Packet)) (own : Packet) (gate : G)
    (round : Nat) (now : List Move) (bench : Bench G W) : Prop :=
  match round with
  | 0 => bench.slots = [⟨gate, false⟩] ∧ Exchanged me exchanges now ∧
      bench.desk.rounds = .start own.phase me.parties
  | 1 => bench.slots = [⟨gate, false⟩] ∧ (∃ chronicle,
      Standing me exchanges own (fun _ => true) (fun _ => none) chronicle now) ∧
      bench.desk.rounds = .start own.phase me.parties
  | _ + 2 => bench.isDone = true ∧ Saying me exchanges own now

omit [Gate G W] in
theorem SaysBefore.saying {bench : Bench G W}
    (h : SaysBefore me exchanges own gate round past bench) : Saying me exchanges own past := by
  match round, h with
  | 0, ⟨_, h, _⟩ => exact h.saying own
  | 1, ⟨_, ⟨_, h⟩, _⟩ => exact h.saying
  | _ + 2, ⟨_, h⟩ => exact h

omit [Gate G W] in
theorem SaysBefore.silent {bench : Bench G W}
    (h : SaysBefore me exchanges own gate round past bench) :
    SaysBefore me exchanges own gate round (past ++ [Move.inner none]) bench := by
  match round, h with
  | 0, ⟨hslots, h, hrounds⟩ => exact ⟨hslots, h.inner, hrounds⟩
  | 1, ⟨hslots, ⟨_, h⟩, hrounds⟩ => exact ⟨hslots, ⟨_, h.silent⟩, hrounds⟩
  | _ + 2, ⟨hdone, h⟩ => exact ⟨hdone, h.inner⟩

/-- A single gate that talks says its own packet at most once to every peer, at every moment. -/
theorem meets_process_saying {payload : Payload}
    (hpost : (Gate.evaluate me 0 gate : Program (Desk W) _) = do
      Desk.broadcast me payload
      pure (gate, .moreRounds))
    (hread : ∀ {now desk}, Reads me exchanges own now desk.rounds →
      (Gate.evaluate me 1 gate : Program (Desk W) _).Meets
        ((Terms.saying me exchanges own).contract Desk.board fun result now desk' =>
          result.2 = .done ∧ Reads me exchanges own now desk'.rounds) now desk)
    (hown : own.messages = [payload]) (h : Exchanged me exchanges past) :
    (process me).Meets ((Terms.saying me exchanges own).contract Bench.board fun _ now _ =>
        Saying me exchanges own now) past
      ⟨[⟨gate, false⟩], { desk with rounds := .start own.phase me.parties }⟩ := by
  have hround : ∀ {round now} {bench : Bench G W}, SaysBefore me exchanges own gate round now bench →
      bench.isDone = false → (runRound me round).Meets
        ((Terms.saying me exchanges own).contract Bench.board fun _ =>
          SaysBefore me exchanges own gate (round + 1)) now bench := by
    rintro (_ | _ | round) now ⟨slots, ⟨rounds, ledger, board⟩⟩ h hdone
    · obtain ⟨rfl, hexchanged, rfl⟩ := h
      exact meets_runRound_saying hpost hown hexchanged rfl
    · obtain ⟨rfl, ⟨chronicle, hsent⟩, rfl⟩ := h
      exact meets_runRound_reading hread hsent rfl
    · exact Bool.noConfusion (hdone.symm.trans h.1)
  have hstart : SaysBefore me exchanges own gate 0 past
      ⟨[⟨gate, false⟩], { desk with rounds := .start own.phase me.parties }⟩ := ⟨rfl, h, rfl⟩
  exact (meets_runRounds (SaysBefore me exchanges own gate) SaysBefore.saying SaysBefore.silent hround
    hstart).mono_terms fun _ _ _ h => h.1.saying

end Bench

end AuthenticatedMpc
