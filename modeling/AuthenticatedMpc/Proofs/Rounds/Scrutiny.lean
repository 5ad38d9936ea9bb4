import AuthenticatedMpc.Proofs.Rounds.Objections

/-!
# What is wrong with a batch

Gates of a batch can refuse to go on, and object to messages. From what its gates can say, every
fault of a batch can be told from a move and the bench before and after it, and a batch fails for
these faults only.
-/

namespace AuthenticatedMpc

/-- What the gates of a batch can find wrong. -/
structure Scrutiny (G W : Type) where
  /-- Why a gate does not go on in a round, given the board. -/
  refusal? : Nat → W → G → Option Error
  /-- What a gate has against messages, in a round in which it reads them. -/
  objections? : Nat → G → Option Objections

variable {G W : Type}

namespace Desk

/-- What a gate that starts a round has against the messages that were fetched before. -/
def objection? (objections? : Option Objections) (me : Party) (phase : Phase) (desk : Desk W) :
    Option Error :=
  objections?.bind fun objects => desk.rounds.firstObjection? objects phase me.peers

def fault? (scrutiny : Scrutiny G W) (me : Party) (phase : Phase) (round : Nat) (gate : G)
    (desk : Desk W) : Option Error :=
  (scrutiny.refusal? round desk.board gate).or
    (desk.objection? (scrutiny.objections? round gate) me phase)

end Desk

def Bench.fault? (scrutiny : Scrutiny G W) (me : Party) (visit : Visit) (before : Bench G W)
    (move : Move) (after : Bench G W) : Option Error :=
  match move, before.slots[visit.place]? with
  | .inner (some (.evaluating ..)), some slot =>
    before.desk.fault? scrutiny me visit.phase visit.round slot.gate
  | .received peer (.ok packet), some slot =>
    if packet.phase = visit.phase then
      (scrutiny.objections? visit.round slot.gate).bind fun objects =>
        RoundBuffer.objection? objects visit.phase peer packet.messages
    else some (.desynchronized (.wrongPhase peer packet.phase visit.phase))
  | .inner none, _ => RoundBuffer.closing? visit.phase before.desk.rounds after.desk.rounds
  | _, _ => none

/-! ## Gates -/

/-- A judge of a desk for a gate with the objections. -/
structure Judge.Attends (judge : Judge (Desk W)) (visit : Option Visit) (phase : Phase)
    (objections? : Option Objections) : Prop where
  visiting : visit.map Visit.phase = some phase
  minds : ∀ desk, (judge.onPart Desk.roundsPart desk).Minds visit phase
  reads : ∀ desk objects, objections? = some objects →
    (judge.onPart Desk.roundsPart desk).Reads visit phase objects
  silent : ∀ desk desk', desk'.rounds = desk.rounds →
    judge.fault? visit desk (.inner none) desk' = none
  opened : ∀ desk record desk',
    judge.fault? visit desk (.inner (some (.opened record))) desk' = none

/-- The gates fail for what the scrutiny says and for nothing else. -/
structure Scrutiny.Governs [Gate G W] (scrutiny : Scrutiny G W) (me : Party) : Prop where
  heeds : ∀ {round gate phase visit desk} {judge : Judge (Desk W)},
    judge.Attends visit phase (scrutiny.objections? round gate) → desk.rounds.Tidy me phase →
    desk.fault? scrutiny me phase round gate = none →
    (Gate.evaluate me round gate).Heeds judge
      (fun _ visit' desk' => visit' = visit ∧ desk'.rounds.Tidy me phase) visit desk
  givesUp : ∀ {round gate phase desk error} {inv : Desk W → Prop},
    (∀ rounds, inv { desk with rounds }) → desk.rounds.Tidy me phase →
    desk.fault? scrutiny me phase round gate = some error →
    (Gate.evaluate me round gate).GivesUp inv error desk

/-- What a gate has against messages that speaks in round zero and reads in the others. -/
def answersOf {α : Type} (read : PartyId → Payload → Except Error α) (round : Nat) :
    Option Objections :=
  if round = 0 then none else some (unreadable read)

section Exchanges

variable {α β : Type} {me : Party} {phase : Phase} {round : Nat} {visit : Option Visit}
  {judge : Judge (Desk W)} {read : PartyId → Payload → Except Error α} {desk : Desk W}
  {payload : Payload} {gate : β} {k : List α → Program (Desk W) (β × Status)}

theorem Program.zoom_ofExcept {σ τ : Type} (part : Lens σ τ) (outcome : Except Error α) :
    (Program.ofExcept outcome).zoom part = Program.ofExcept outcome := by
  cases outcome <;> rfl

theorem Desk.hearAll_cons_zoom (read : PartyId → Payload → Except Error α) (peer : PartyId)
    (rest : List PartyId) :
    ((RoundBuffer.hearAll me.id read (peer :: rest)).zoom roundsPart :
      Program (Desk W) (List α)) = (do
        let payload ← receive me peer
        let value ← Program.ofExcept (read peer payload)
        let values ← (RoundBuffer.hearAll me.id read rest).zoom roundsPart
        pure (value :: values)) := by
  have hhear : ((RoundBuffer.hear me.id read peer).zoom roundsPart : Program (Desk W) α) = (do
      let payload ← receive me peer
      Program.ofExcept (read peer payload)) := by
    rw [← RoundBuffer.receive_bind_read]
    refine (Program.zoom_bind ..).trans ?_
    simp only [Program.zoom_ofExcept]
    rfl
  have hrest : ((RoundBuffer.hearAll me.id read (peer :: rest)).zoom roundsPart :
      Program (Desk W) (List α)) = (do
        let value ← (RoundBuffer.hear me.id read peer).zoom roundsPart
        let values ← (RoundBuffer.hearAll me.id read rest).zoom roundsPart
        pure (value :: values)) := by
    refine (Program.zoom_bind ..).trans ?_
    congr 1
    funext value
    exact Program.zoom_bind ..
  rw [hrest, hhear]
  simp only [bind_assoc]

theorem Desk.gather_eq (read : PartyId → Payload → Except Error Element) (peers : List PartyId)
    (total : Element) : (gather me read peers total : Program (Desk W) Element) = (do
      let values ← (RoundBuffer.hearAll me.id read peers).zoom Desk.roundsPart
      pure (values.foldl me.modulus.add total)) := by
  induction peers generalizing total with
  | nil => rfl
  | cons peer rest ih =>
    simp only [gather, ih, hearAll_cons_zoom, bind_assoc, pure_bind, List.foldl_cons]

/-- A gate that speaks in round zero and reads in the others goes on after what it has read. -/
theorem Judge.Attends.heeds_exchange {post : β × Status → Option Visit → Desk W → Prop}
    (h : judge.Attends visit phase (answersOf read round)) (htidy : desk.rounds.Tidy me phase)
    (hfine : desk.objection? (answersOf read round) me phase = none)
    (hspoken : ∀ rounds, rounds.Tidy me phase → post (gate, .moreRounds) visit { desk with rounds })
    (hread : ∀ values rounds, rounds.Tidy me phase →
      (k values).Heeds judge post visit { desk with rounds }) :
    (if round = 0 then do
        Desk.broadcast me payload
        pure (gate, Status.moreRounds)
      else do
        let values ← (RoundBuffer.hearAll me.id read me.peers).zoom Desk.roundsPart
        k values).Heeds judge post visit desk := by
  by_cases hround : round = 0
  · rw [if_pos hround]
    exact .of_none ((h.minds desk).silent_eq_none (fun _ => h.visiting) id)
      (hspoken _ (htidy.postAll payload))
  · rw [answersOf, if_neg hround] at h hfine
    rw [if_neg hround]
    have hhear : ((RoundBuffer.hearAll me.id read me.peers).zoom Desk.roundsPart).Heeds judge
        (fun _ now desk' => now = visit ∧ ∃ rounds, desk' = { desk with rounds } ∧
          rounds.Tidy me phase) visit desk :=
      .zoom ((htidy.heeds_hearAll (h.reads desk _ rfl) hfine).mono
        fun _ _ rounds ⟨hnow, hrounds⟩ => ⟨hnow, rounds, rfl, hrounds⟩)
    refine hhear.bind ?_
    rintro values _ _ ⟨rfl, rounds, rfl, hrounds⟩
    exact hread values rounds hrounds

theorem givesUp_exchange {inv : Desk W → Prop} {error : Error}
    (hinv : ∀ rounds, inv { desk with rounds }) (htidy : desk.rounds.Tidy me phase)
    (hfault : desk.objection? (answersOf read round) me phase = some error) :
    (if round = 0 then do
        Desk.broadcast me payload
        pure (gate, Status.moreRounds)
      else do
        let values ← (RoundBuffer.hearAll me.id read me.peers).zoom Desk.roundsPart
        k values).GivesUp inv error desk := by
  by_cases hround : round = 0
  · rw [answersOf, if_pos hround] at hfault
    cases hfault
  · rw [answersOf, if_neg hround] at hfault
    rw [if_neg hround]
    exact Program.GivesUp.bind (Program.Quietly.zoom (htidy.givesUp_hearAll hinv hfault))

end Exchanges

/-! ## Batches -/

/-- A judge of the bench for batches of the phase. -/
structure Judge.Oversees (judge : Judge (Bench G W)) (scrutiny : Scrutiny G W) (me : Party)
    (phase : Phase) : Prop where
  still : ∀ slots desk rounds, judge.still ⟨slots, desk⟩ ⟨slots, { desk with rounds }⟩
  idle : ∀ visit bench bench',
    (bench.desk.rounds.isOpen = true → bench'.desk.rounds.isOpen = true) →
    judge.fault? visit bench (.inner none) bench' = none
  sent : ∀ visit bench q packet reply, judge.fault? visit bench (.sent q packet reply) bench =
    (Move.sent q packet reply).failure?
  judged : ∀ visit bench move bench', visit.phase = phase →
    judge.fault? (some visit) bench move bench' =
      move.failure?.or (bench.fault? scrutiny me visit move bench')

/-- A bench between two gates; what was fetched was fetched by a gate of the phase. -/
structure Bench.Orderly (me : Party) (phase : Phase) (visit : Option Visit) (bench : Bench G W) :
    Prop where
  tidy : bench.desk.rounds.Tidy me phase
  visiting : bench.desk.rounds.isOpen = true → visit.map Visit.phase = some phase

/-- No gate has been in evaluation since but gates of the phase, and one if there was work. -/
structure Visit.Since (phase : Phase) (work : Prop) (visit now : Option Visit) : Prop where
  visited : now = visit ∨ now.map Visit.phase = some phase
  worked : work → now.map Visit.phase = some phase

section Batches

variable {scrutiny : Scrutiny G W} {me : Party} {phase : Phase} {judge : Judge (Bench G W)}
  {visit : Option Visit} {front back : List (Slot G)} {gate : G} {slot : Slot G} {done : Bool}
  {desk : Desk W} {round place : Nat} {bench : Bench G W}

theorem Visit.Since.refl {work : Prop} (hwork : ¬work) : Since phase work visit visit :=
  ⟨.inl rfl, fun h => absurd h hwork⟩

theorem Visit.Since.trans {work work' both : Prop} {now later : Option Visit}
    (h : Since phase work visit now) (h' : Since phase work' now later)
    (hboth : both → work ∨ work') : Since phase both visit later where
  visited := by
    rcases h'.visited with rfl | hlater
    · exact h.visited
    · exact .inr hlater
  worked hwork := by
    rcases h'.visited with rfl | hlater
    · exact (hboth hwork).elim h.worked h'.worked
    · exact hlater

theorem Bench.fault?_evaluating (hslot : bench.slots[place]? = some ⟨gate, done⟩) (other : Phase)
    (place' round' : Nat) (after : Bench G W) :
    bench.fault? scrutiny me ⟨phase, place, round⟩ (.inner (some (.evaluating other place' round')))
      after = bench.desk.fault? scrutiny me phase round gate := by
  simp only [Bench.fault?, hslot]

theorem Judge.Oversees.minds (h : judge.Oversees scrutiny me phase) (bench : Bench G W) :
    (judge.onPart Bench.roundsPart bench).Minds visit phase where
  still _ _ := h.still ..
  silent b b' hvisit := by
    cases hopen : b.isOpen with
    | false =>
      rw [RoundBuffer.closing?_eq_none (by simp [hopen])]
      exact h.idle _ _ _ fun hb => absurd (hopen.symm.trans hb) Bool.false_ne_true
    | true =>
      obtain ⟨visit, rfl, hphase⟩ := Option.map_eq_some_iff.mp (hvisit hopen)
      rw [← hphase]
      exact h.judged visit _ _ _ hphase
  sent b q packet reply := h.sent ..

theorem Judge.Oversees.attends (h : judge.Oversees scrutiny me phase)
    (hslot : bench.slots[place]? = some ⟨gate, done⟩) :
    (judge.onPart Bench.deskPart bench).Attends (some ⟨phase, place, round⟩) phase
      (scrutiny.objections? round gate) where
  visiting := rfl
  minds desk := h.minds { bench with desk }
  reads desk objects hobjects :=
    { h.minds { bench with desk } with
      visiting := rfl
      refused := fun b q cause => h.judged ⟨phase, place, round⟩ _ _ _ rfl
      received := fun b q packet => by
        let bench' : Bench G W := { bench with desk := { desk with rounds := b } }
        have hfault := h.judged ⟨phase, place, round⟩ bench' (.received q (.ok packet)) bench' rfl
        simp only [Move.failure?, Option.none_or, Bench.fault?, bench', hslot, hobjects,
          Option.bind_some] at hfault
        exact hfault }
  silent desk desk' hsame := h.idle _ _ _ fun hopen => by
    change desk'.rounds.isOpen = true
    rwa [hsame]
  opened desk record desk' := h.judged ⟨phase, place, round⟩ _ _ _ rfl

theorem RoundBuffer.Empty.orderly_bench (h : bench.desk.rounds.Empty me phase) :
    bench.Orderly me phase visit where
  tidy := h.tidy
  visiting hopen := absurd (h.isOpen.symm.trans hopen) Bool.false_ne_true

variable [Gate G W]

/-- The gate at a place fails for what is wrong when it starts, or for what it hears. -/
theorem Bench.heeds_evaluateAt (hjudge : judge.Oversees scrutiny me phase)
    (hgoverns : scrutiny.Governs me)
    (h : Bench.Orderly me phase visit ⟨front ++ slot :: back, desk⟩) :
    (Bench.evaluateAt me round front.length).Heeds judge
      (fun _ now bench => (∃ slot desk', bench = ⟨front ++ [slot] ++ back, desk'⟩) ∧
        bench.Orderly me phase now ∧ Visit.Since phase (slot.done = false) visit now) visit
      ⟨front ++ slot :: back, desk⟩ := by
  obtain ⟨gate, done⟩ := slot
  have hslot : (front ++ ⟨gate, done⟩ :: back)[front.length]? = some ⟨gate, done⟩ := by simp
  have hphase : desk.rounds.phase = phase := h.tidy.phase_eq
  refine .get_bind (hjudge.idle _ _ _ id) ?_
  rw [hslot]
  cases done with
  | true => exact ⟨⟨⟨gate, true⟩, desk, by simp⟩, h, .refl nofun⟩
  | false =>
    let started : Option Visit := some ⟨phase, front.length, round⟩
    let bench : Bench G W := ⟨front ++ ⟨gate, false⟩ :: back, desk⟩
    have hfault : judge.fault? started bench (.inner (some (.evaluating phase front.length round)))
        bench = desk.fault? scrutiny me phase round gate :=
      (hjudge.judged _ _ _ _ rfl).trans (Bench.fault?_evaluating hslot ..)
    refine .mark_bind ?_
    rw [hphase]
    cases hdesk : desk.fault? scrutiny me phase round gate with
    | some error =>
      have hgate : (Gate.evaluate me round gate).GivesUp
          (fun desk' => judge.still bench ⟨bench.slots, desk'⟩) error desk :=
        hgoverns.givesUp (fun rounds => hjudge.still bench.slots desk rounds) h.tidy hdesk
      exact .of_some (hfault.trans hdesk) (Program.GivesUp.bind (Program.Quietly.zoom hgate))
    | none =>
      have hgate : ((Gate.evaluate me round gate).zoom Bench.deskPart).Heeds judge
          (fun _ now after => now = started ∧ after.slots = bench.slots ∧
            after.desk.rounds.Tidy me phase) started bench :=
        .zoom ((hgoverns.heeds (hjudge.attends hslot) h.tidy hdesk).mono
          fun _ _ _ ⟨hnow, htidy⟩ => ⟨hnow, rfl, htidy⟩)
      refine .of_none (hfault.trans hdesk) (hgate.bind ?_)
      rintro ⟨gate', status⟩ _ ⟨_, desk'⟩ ⟨rfl, rfl, htidy⟩
      have hput : Bench.put front.length gate' status ⟨bench.slots, desk'⟩ =
          ⟨front ++ [⟨gate', decide (status = .done)⟩] ++ back, desk'⟩ := by
        simp [Bench.put, bench]
      exact .of_none (hjudge.idle _ _ _ id)
        ⟨⟨_, desk', hput⟩, ⟨htidy, fun _ => rfl⟩, .inr rfl, fun _ => rfl⟩

theorem Bench.heeds_evaluatePlaces (hjudge : judge.Oversees scrutiny me phase)
    (hgoverns : scrutiny.Governs me) (h : Bench.Orderly me phase visit ⟨front ++ back, desk⟩) :
    (Bench.evaluatePlaces me round (List.range' front.length back.length)).Heeds judge
      (fun _ now bench => bench.Orderly me phase now ∧
        Visit.Since phase (∃ slot ∈ back, slot.done = false) visit now) visit
      ⟨front ++ back, desk⟩ := by
  induction back generalizing front visit desk with
  | nil => exact ⟨h, .refl (by simp)⟩
  | cons slot back ih =>
    refine (Bench.heeds_evaluateAt hjudge hgoverns h).bind ?_
    rintro _ now _ ⟨⟨slot', desk', rfl⟩, h, hsince⟩
    have hrest := ih h
    rw [List.length_append, List.length_singleton] at hrest
    refine hrest.mono fun _ later bench ⟨h, hsince'⟩ => ⟨h, hsince.trans hsince' ?_⟩
    exact List.or_exists_of_exists_mem_cons

theorem Bench.heeds_runRound (hjudge : judge.Oversees scrutiny me phase)
    (hgoverns : scrutiny.Governs me) (h : bench.Orderly me phase visit) :
    (Bench.runRound me round).Heeds judge
      (fun _ now bench' => bench'.desk.rounds.Empty me phase ∧
        Visit.Since phase (∃ slot ∈ bench.slots, slot.done = false) visit now) visit bench := by
  obtain ⟨slots, desk⟩ := bench
  rw [Bench.runRound_eq]
  refine .get_bind (hjudge.idle _ _ _ id) ?_
  have hplaces : (Bench.evaluatePlaces me round
      (List.range' ([] : List (Slot G)).length slots.length)).Heeds judge
      (fun _ now bench => bench.Orderly me phase now ∧
        Visit.Since phase (∃ slot ∈ slots, slot.done = false) visit now) visit
      ⟨[] ++ slots, desk⟩ :=
    Bench.heeds_evaluatePlaces hjudge hgoverns h
  rw [List.length_nil, ← List.range_eq_range'] at hplaces
  refine hplaces.bind ?_
  rintro _ now bench ⟨h, hsince⟩
  refine .zoom ((h.tidy.heeds_ship (hjudge.minds bench) h.visiting).mono ?_)
  rintro _ _ rounds ⟨rfl, hempty⟩
  exact ⟨hempty, hsince⟩

theorem Bench.heeds_runRounds (hjudge : judge.Oversees scrutiny me phase)
    (hgoverns : scrutiny.Governs me) (limit : Nat) (h : bench.desk.rounds.Empty me phase) :
    (Bench.runRounds me limit round).Heeds judge
      (fun _ now bench' => bench'.desk.rounds.Empty me phase ∧
        Visit.Since phase (bench.isDone = false) visit now) visit bench := by
  induction limit generalizing round visit bench with
  | zero => trivial
  | succ limit ih =>
    refine .get_bind (hjudge.idle _ _ _ id) ?_
    cases hdone : bench.isDone with
    | true => exact ⟨h, .refl nofun⟩
    | false =>
      have hslots : ∃ slot ∈ bench.slots, slot.done = false := by
        simpa [Bench.isDone] using hdone
      refine (Bench.heeds_runRound hjudge hgoverns h.orderly_bench).bind ?_
      rintro _ now bench' ⟨h, hsince⟩
      exact (ih h).mono fun _ later _ ⟨h, hsince'⟩ => ⟨h, hsince.trans hsince' fun _ => .inl hslots⟩

/-- A batch that has been laid on the bench fails for its first fault and for nothing else. -/
theorem Bench.heeds_process (hjudge : judge.Oversees scrutiny me phase)
    (hgoverns : scrutiny.Governs me) (gates : List G) (bench : Bench G W) (visit : Option Visit) :
    (Bench.process me).Heeds judge
      (fun _ now bench' => bench'.desk.rounds.Empty me phase ∧
        Visit.Since phase (gates ≠ []) visit now) visit (bench.load gates phase me.parties) := by
  have hstart : (bench.load gates phase me.parties).desk.rounds.Empty me phase :=
    ⟨fun _ => [], RoundBuffer.start_eq_of⟩
  refine (Bench.heeds_runRounds hjudge hgoverns _ hstart).mono ?_
  rintro _ now _ ⟨h, hsince⟩
  refine ⟨h, hsince.visited, fun hgates => hsince.worked ?_⟩
  cases gates with
  | nil => exact absurd rfl hgates
  | cons => rfl

end Batches
end AuthenticatedMpc
