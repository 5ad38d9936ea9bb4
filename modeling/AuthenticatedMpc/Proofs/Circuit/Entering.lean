import AuthenticatedMpc.Proofs.Circuit.Openings
import AuthenticatedMpc.Proofs.Circuit.Recording
import AuthenticatedMpc.Proofs.Rounds.Vigilance
import AuthenticatedMpc.Proofs.Runs.Tally

/-!
# What a batch enters into the ledger, moment by moment

Whatever the transport does, a batch enters what it opens in the order of its gates, one record with
the MAC share of the gate for each opening. It has entered nothing as long as a share is queued.
-/

namespace AuthenticatedMpc

def CircuitGate.macs (gates : List CircuitGate) : List Element :=
  (openings gates).map (·.share.mac)

theorem CircuitGate.macs_append (front back : List CircuitGate) :
    macs (front ++ back) = macs front ++ macs back := by
  rw [macs, openings_append, List.map_append]
  rfl

theorem CircuitGate.macs_prefix {front gates : List CircuitGate} (h : front <+: gates) :
    macs front <+: macs gates :=
  (h.filterMap _).map _

theorem CircuitGate.macs_eq {gates gates' : List CircuitGate} (h : openings gates = openings gates') :
    macs gates = macs gates' := by
  rw [macs, h, macs]

/-- What a batch has entered into the ledger since the past, and what stays as it is. -/
structure Entered (gates : List CircuitGate) (old : List Record) (past : List Move)
    (new : List Record) (now : List Move) (bench : Bench CircuitGate Board) : Prop where
  le : past <+: now
  checks_eq : checksIn now = checksIn past
  opened_eq : openedIn now = openedIn past ++ new
  records_eq : bench.desk.ledger.records = old ++ new
  openings_eq : CircuitGate.openings (bench.slots.map Slot.gate) = CircuitGate.openings gates
  reveals_eq : bench.slots.map (fun slot => slot.gate.revealsOutput) =
    gates.map CircuitGate.revealsOutput

/-- A moment of a batch: the records are those of its first openings, and there are none as long as
a share is queued. -/
def Entering (gates : List CircuitGate) (old : List Record) (past now : List Move)
    (bench : Bench CircuitGate Board) : Prop :=
  ∃ new, Entered gates old past new now bench ∧
    new.map Record.mac <+: CircuitGate.macs gates ∧
    (new = [] ∨ bench.desk.rounds.Quiet)

/-- A batch at its end has entered a record for each opening. -/
def EnteredAll (gates : List CircuitGate) (old : List Record) (past now : List Move)
    (bench : Bench CircuitGate Board) : Prop :=
  ∃ new, Entered gates old past new now bench ∧
    new.map Record.mac = CircuitGate.macs gates ∧ bench.desk.rounds.Quiet

/-- The opening in the slot is over, if there is one. -/
def Slot.Closed (slot : Slot CircuitGate) : Prop :=
  ∀ opening, slot.gate.opening? = some opening → slot.done = true

theorem Slot.closed_of_opening?_eq_none {slot : Slot CircuitGate} (h : slot.gate.opening? = none) :
    slot.Closed := by
  intro opening hopening
  rw [h] at hopening
  cases hopening

theorem Slot.waiting_of_opening?_eq_none {slot : Slot CircuitGate} (h : slot.gate.opening? = none) :
    slot.Waiting := by
  intro opening hopening
  rw [h] at hopening
  cases hopening

section Entering

variable {gates : List CircuitGate} {old new : List Record} {past now now' : List Move}
  {bench : Bench CircuitGate Board} {slots front back : List (Slot CircuitGate)}
  {slot slot' : Slot CircuitGate} {desk : Desk Board} {me : Party} {round : Nat}

/-- The terms of a batch: anything may go wrong, but every moment is one of the batch. -/
def Terms.entering (gates : List CircuitGate) (old : List Record)
    (past : List Move) : Terms (Bench CircuitGate Board) where
  during := Entering gates old past
  fails _ := True
  assumes _ := True

namespace Entered

theorem start (hrecords : desk.ledger.records = old) :
    Entered gates old past [] past ⟨gates.map fun gate => ⟨gate, false⟩, desk⟩ where
  le := List.prefix_refl past
  checks_eq := rfl
  opened_eq := (List.append_nil _).symm
  records_eq := hrecords.trans (List.append_nil _).symm
  openings_eq := by
    rw [List.map_map]
    exact congrArg _ (List.map_id gates)
  reveals_eq := by
    rw [List.map_map]
    rfl

theorem still (h : Entered gates old past new now bench) (hstill : Still now now') :
    Entered gates old past new now' bench :=
  { h with
    le := h.le.trans hstill.le
    checks_eq := hstill.checks_eq.trans h.checks_eq
    opened_eq := hstill.opened_eq.trans h.opened_eq }

theorem silent (h : Entered gates old past new now bench) :
    Entered gates old past new (now ++ [Move.inner none]) bench :=
  h.still (Still.refl now).silent

theorem setDesk {rounds : RoundBuffer} {board : Board}
    (h : Entered gates old past new now ⟨slots, desk⟩) :
    Entered gates old past new now ⟨slots, ⟨rounds, desk.ledger, board⟩⟩ :=
  { h with }

theorem replace (h : Entered gates old past new now ⟨front ++ slot :: back, desk⟩)
    (hopening : slot'.gate.opening? = slot.gate.opening?)
    (hreveals : slot'.gate.revealsOutput = slot.gate.revealsOutput) :
    Entered gates old past new now ⟨front ++ [slot'] ++ back, desk⟩ :=
  { h with
    openings_eq := by
      rw [← h.openings_eq]
      simp [CircuitGate.openings, List.filterMap_cons, hopening]
    reveals_eq := by
      rw [← h.reveals_eq]
      simp [hreveals] }

theorem enter {value mac : Element} (h : Entered gates old past new now ⟨slots, desk⟩) :
    Entered gates old past (new ++ [⟨value, mac⟩])
      (now ++ [Move.inner (some (.opened ⟨value, mac⟩))])
      ⟨slots, { desk with ledger := desk.ledger.append value mac }⟩ where
  le := h.le.trans (List.prefix_append ..)
  checks_eq := by rw [checksIn_opened, h.checks_eq]
  opened_eq := by rw [openedIn_opened, h.opened_eq, List.append_assoc]
  records_eq := by rw [Ledger.records_append, h.records_eq, List.append_assoc]
  openings_eq := h.openings_eq
  reveals_eq := h.reveals_eq

theorem entering (h : Entered gates old past [] now bench) :
    Entering gates old past now bench :=
  ⟨[], h, List.nil_prefix, .inl rfl⟩

end Entered

/-- What is published does not matter. -/
theorem Entering.publish {board : Board} (h : Entering gates old past now ⟨slots, desk⟩) :
    Entering gates old past (now ++ [Move.inner none]) ⟨slots, { desk with board }⟩ := by
  obtain ⟨new, hentered, hmacs, hquiet⟩ := h
  exact ⟨new, hentered.silent.setDesk, hmacs, hquiet⟩

/-! ## Round zero -/

/-- Nothing is entered in round zero. -/
structure Queueing (gates : List CircuitGate) (old : List Record) (past : List Move)
    (front back : List (Slot CircuitGate)) (now : List Move) (desk : Desk Board) : Prop where
  entered : Entered gates old past [] now ⟨front ++ back, desk⟩
  waiting : ∀ slot ∈ front ++ back, slot.Waiting

theorem Queueing.replace (h : Queueing gates old past front (slot :: back) now desk)
    (hopening : slot'.gate.opening? = slot.gate.opening?)
    (hreveals : slot'.gate.revealsOutput = slot.gate.revealsOutput) (hwaiting : slot'.Waiting) :
    Queueing gates old past (front ++ [slot']) back now desk :=
  ⟨h.entered.replace hopening hreveals, Slot.forall_mem_replace h.waiting hwaiting⟩

theorem Queueing.pass (h : Queueing gates old past front (slot :: back) now desk) :
    Queueing gates old past (front ++ [slot]) back now desk :=
  h.replace rfl rfl (h.waiting slot (List.mem_append_right _ (List.mem_cons_self ..)))

theorem Queueing.still (h : Queueing gates old past front back now desk)
    (hstill : Still now now') : Queueing gates old past front back now' desk :=
  { h with entered := h.entered.still hstill }

theorem Queueing.setDesk {rounds : RoundBuffer} {board : Board}
    (h : Queueing gates old past front back now desk) :
    Queueing gates old past front back now ⟨rounds, desk.ledger, board⟩ :=
  { h with entered := h.entered.setDesk }

theorem Queueing.meets_post {gate : CircuitGate} {opening : Opening}
    (h : Queueing gates old past front (⟨gate, false⟩ :: back) now desk) :
    (opening.evaluate me 0).Meets
      ((Terms.entering gates old past).contract (Bench.mk (front ++ ⟨gate, false⟩ :: back))
        fun result now desk' => result = (opening, .moreRounds) ∧
          Queueing gates old past front (⟨gate, false⟩ :: back) now desk') now desk := by
  have hqueued : Queueing gates old past front (⟨gate, false⟩ :: back) (now ++ [Move.inner none])
      { desk with rounds := desk.rounds.postAll me.id opening.message } :=
    (h.still (Still.refl now).silent).setDesk
  have hpost : (opening.evaluate me 0).Meets
      ((Terms.entering gates old past).contract (Bench.mk (front ++ ⟨gate, false⟩ :: back))
        fun result now' desk' => result = (opening, .moreRounds) ∧ now' = now ++ [Move.inner none] ∧
          desk' = { desk with rounds := desk.rounds.postAll me.id opening.message }) now desk :=
    Opening.meets_post h.entered.entering hqueued.entered.entering
  refine hpost.mono_terms ?_
  rintro _ _ _ ⟨rfl, rfl, rfl⟩
  exact ⟨rfl, hqueued⟩

theorem meets_compute_entering {gate : LocalGate}
    (h : Entering gates old past now ⟨front ++ ⟨.compute gate, false⟩ :: back, desk⟩)
    (hsilent : Entering gates old past (now ++ [Move.inner none])
      ⟨front ++ ⟨.compute gate, false⟩ :: back, desk⟩) :
    (Gate.evaluate me round (CircuitGate.compute gate)).Meets
      ((Terms.entering gates old past).contract
        (Bench.mk (front ++ ⟨.compute gate, false⟩ :: back)) fun result now' desk' =>
          now' = now ++ [Move.inner none] ∧ desk' = desk ∧
            result.1 = .compute { gate with seen := desk.board :: gate.seen }) now desk :=
  CircuitGate.meets_compute h hsilent fun _ _ => trivial

theorem visiting_queueing : Visiting (Terms.entering gates old past) id me 0
    (Queueing gates old past) where
  during h := h.entered.entering
  silent h := h.still (Still.refl _).silent
  skip h := h.pass
  evaluate {front gate back now desk} h := by
    replace h := h.still ((Still.refl now).evaluating desk.rounds.phase front.length 0)
    have hsilent := h.still (Still.refl _).silent
    cases gate with
    | compute gate =>
      refine (meets_compute_entering h.entered.entering hsilent.entered.entering).mono_terms ?_
      rintro ⟨_, status⟩ _ _ ⟨rfl, rfl, rfl⟩
      exact hsilent.replace rfl rfl (Slot.waiting_of_opening?_eq_none rfl)
    | output gate =>
      refine h.meets_post.bind_terms ?_
      rintro _ _ _ ⟨rfl, hpost⟩
      exact ⟨hpost.entered.entering, hpost.pass⟩
    | opening gate =>
      refine h.meets_post.bind_terms ?_
      rintro _ now desk' ⟨rfl, hpost⟩
      have hpublish : Queueing gates old past front (⟨.opening gate, false⟩ :: back)
          (now ++ [Move.inner none]) { desk' with board := gate.publish desk'.board } :=
        (hpost.still (Still.refl now).silent).setDesk
      exact .modify_bind hpost.entered.entering ⟨hpublish.entered.entering, hpublish.pass⟩

theorem Entered.meets_ship (h : Entered gates old past new now ⟨slots, desk⟩)
    (hquiet : new = [] ∨ desk.rounds.Quiet)
    (hmacs : new.map Record.mac <+: CircuitGate.macs gates) :
    RoundBuffer.ship.Meets
      ((Terms.entering gates old past).contract
        (fun rounds => ⟨slots, { desk with rounds }⟩) fun _ now rounds =>
          Entered gates old past new now ⟨slots, { desk with rounds }⟩ ∧ rounds.Quiet)
      now desk.rounds := by
  refine (RoundBuffer.meets_ship_drains.still (RoundBuffer.vigilant_ship coversTalk_true)).mono ?_ ?_
    fun _ _ _ _ _ => trivial
  · rintro now rounds ⟨hstill, hdrains⟩
    exact ⟨new, (h.still hstill).setDesk, hmacs,
      hquiet.imp_right fun hquiet q => hdrains q (hquiet q)⟩
  · rintro _ now rounds - ⟨hstill, hdrains, hquiet⟩
    exact ⟨(h.still hstill).setDesk, hquiet⟩

/-- Before round zero and after it nothing is queued, and nothing was entered. -/
structure Queued (gates : List CircuitGate) (old : List Record) (past : List Move)
    (slots : List (Slot CircuitGate)) (now : List Move) (desk : Desk Board) : Prop where
  entered : Entered gates old past [] now ⟨slots, desk⟩
  waiting : ∀ slot ∈ slots, slot.Waiting
  quiet : desk.rounds.Quiet

theorem Queued.silent (h : Queued gates old past slots now desk) :
    Queued gates old past slots (now ++ [Move.inner none]) desk :=
  { h with entered := h.entered.silent }

theorem Queued.meets_runRound (h : Queued gates old past bench.slots now bench.desk) :
    (Bench.runRound me 0).Meets
      ((Terms.entering gates old past).contract id fun _ now bench =>
        Queued gates old past bench.slots now bench.desk) now bench := by
  refine visiting_queueing.meets_runRound (fun slots now desk h => ?_) ⟨h.entered, h.waiting⟩
  have hentered := h.entered
  have hwaiting := h.waiting
  rw [List.append_nil] at hentered hwaiting
  refine (hentered.meets_ship (.inl rfl) List.nil_prefix).mono_terms ?_
  rintro _ now rounds ⟨hshipped, hquiet⟩
  exact ⟨hshipped, hwaiting, hquiet⟩

/-! ## Later rounds -/

/-- After round zero an opening takes the messages of its peers, and enters what they add up to. -/
theorem Opening.meets_take {ω : Type} {terms : Terms ω} {view : Desk Board → ω} {opening : Opening}
    {ready : Opening × Status → List Move → Desk Board → Prop} (hround : round ≠ 0)
    (hfails : ∀ error, terms.fails error)
    (hwait : ∀ now rounds, Still past now → desk.rounds.Waits rounds →
      terms.during now (view { desk with rounds }))
    (htake : ∀ now rounds value, Still past now → desk.rounds.Waits rounds →
      let entered := now ++ [Move.inner (some (.opened ⟨value, opening.share.mac⟩))]
      let desk' : Desk Board :=
        { desk with rounds, ledger := desk.ledger.append value opening.share.mac }
      terms.during entered (view desk') ∧
        ready ({ opening with opened := some value }, .done) entered desk') :
    (opening.evaluate me round).Meets (terms.contract view ready) past desk := by
  have hgather : (Desk.gather me (fun _ payload => (me.modulus.decode payload).mapError .encoding)
      me.peers opening.share.value).Meets
        (terms.contract view fun _ now desk' => Still past now ∧ ∃ rounds,
          desk.rounds.Waits rounds ∧ desk' = { desk with rounds }) past desk := by
    have hstate : (Desk.gather me (fun _ payload => (me.modulus.decode payload).mapError .encoding)
        me.peers opening.share.value).Meets
          (.ofState (fun desk' => ∃ rounds, desk.rounds.Waits rounds ∧ desk' = { desk with rounds })
            fun _ desk' => ∃ rounds, desk.rounds.Waits rounds ∧ desk' = { desk with rounds })
          past desk :=
      Desk.meets_gather_waits (fun rounds h => ⟨rounds, h, rfl⟩) fun _ rounds h => ⟨rounds, h, rfl⟩
    refine (hstate.still (Desk.vigilant_gather coversTalk_true (fun _ _ _ _ => trivial) _ _)).mono ?_ (fun _ _ _ _ => id)
      (fun _ _ _ _ _ => hfails _) fun _ _ => trivial
    rintro now _ ⟨hstill, rounds, hrounds, rfl⟩
    exact hwait now rounds hstill hrounds
  rw [evaluate, if_neg hround]
  refine hgather.bind_terms ?_
  rintro value now _ ⟨hstill, rounds, hrounds, rfl⟩
  obtain ⟨hduring, hready⟩ := htake now rounds value hstill hrounds
  exact .record_bind (hwait now rounds hstill hrounds) ⟨hduring, hready⟩

/-- After round zero the openings visited so far are over and have entered their records; the others
are still to come, or there are none. -/
structure Gathering (gates : List CircuitGate) (old : List Record)
    (past : List Move) (front back : List (Slot CircuitGate)) (new : List Record) (now : List Move)
    (desk : Desk Board) : Prop where
  entered : Entered gates old past new now ⟨front ++ back, desk⟩
  quiet : desk.rounds.Quiet
  closed : ∀ slot ∈ front, slot.Closed
  rest : (new.map Record.mac = CircuitGate.macs (front.map Slot.gate) ∧
      ∀ slot ∈ back, slot.Waiting) ∨
    (new.map Record.mac = CircuitGate.macs gates ∧
      ∀ slot ∈ back, slot.Closed)

namespace Gathering

theorem macs_prefix (h : Gathering gates old past front back new now desk) :
    new.map Record.mac <+: CircuitGate.macs gates := by
  rcases h.rest with ⟨hmacs, -⟩ | ⟨hmacs, -⟩
  · rw [hmacs, ← CircuitGate.macs_eq h.entered.openings_eq, List.map_append, CircuitGate.macs_append]
    exact List.prefix_append ..
  · exact hmacs ▸ List.prefix_refl _

theorem entering (h : Gathering gates old past front back new now desk) :
    Entering gates old past now ⟨front ++ back, desk⟩ :=
  ⟨new, h.entered, h.macs_prefix, .inr h.quiet⟩

theorem still (h : Gathering gates old past front back new now desk)
    (hstill : Still now now') : Gathering gates old past front back new now' desk :=
  { h with entered := h.entered.still hstill }

theorem setDesk {rounds : RoundBuffer} {board : Board}
    (h : Gathering gates old past front back new now desk)
    (hrounds : desk.rounds.Waits rounds) :
    Gathering gates old past front back new now ⟨rounds, desk.ledger, board⟩ :=
  { h with
    entered := h.entered.setDesk
    quiet := hrounds.quiet h.quiet }

theorem pass (h : Gathering gates old past front (slot :: back) new now desk)
    (hnone : slot.gate.opening? = none) (hnone' : slot'.gate.opening? = none)
    (hreveals : slot'.gate.revealsOutput = slot.gate.revealsOutput) :
    Gathering gates old past (front ++ [slot']) back new now desk where
  entered := h.entered.replace (hnone'.trans hnone.symm) hreveals
  quiet := h.quiet
  closed := List.forall_mem_append.mpr
    ⟨h.closed, List.forall_mem_singleton.mpr (Slot.closed_of_opening?_eq_none hnone')⟩
  rest := by
    rw [CircuitGate.macs_eq (CircuitGate.openings_snoc_of_eq_none hnone')]
    exact h.rest.imp (And.imp_right fun hback slot hslot => hback slot (List.mem_cons_of_mem _ hslot))
      (And.imp_right fun hback slot hslot => hback slot (List.mem_cons_of_mem _ hslot))

theorem skip {gate : CircuitGate}
    (h : Gathering gates old past front (⟨gate, true⟩ :: back) new now desk) :
    Gathering gates old past (front ++ [⟨gate, true⟩]) back new now desk := by
  cases hopening : gate.opening? with
  | none => exact h.pass hopening hopening rfl
  | some opening =>
    rcases h.rest with ⟨-, hwaiting⟩ | ⟨hmacs, hclosed⟩
    · have hfalse := hwaiting _ (List.mem_cons_self ..) opening hopening
      cases hfalse
    · exact {
        entered := h.entered.replace rfl rfl
        quiet := h.quiet
        closed := List.forall_mem_append.mpr
          ⟨h.closed, List.forall_mem_singleton.mpr fun _ _ => rfl⟩
        rest := .inr ⟨hmacs, fun slot hslot => hclosed slot (List.mem_cons_of_mem _ hslot)⟩ }

theorem take {gate gate' : CircuitGate} {opening : Opening} {value : Element}
    (h : Gathering gates old past front (⟨gate, false⟩ :: back) new now desk)
    (hopening : gate.opening? = some { opening with opened := none })
    (hopening' : gate'.opening? = gate.opening?)
    (hreveals : gate'.revealsOutput = gate.revealsOutput) :
    Gathering gates old past (front ++ [⟨gate', true⟩]) back
      (new ++ [⟨value, opening.share.mac⟩])
      (now ++ [Move.inner (some (.opened ⟨value, opening.share.mac⟩))])
      { desk with ledger := desk.ledger.append value opening.share.mac } where
  entered := (h.entered.replace hopening' hreveals).enter
  quiet := h.quiet
  closed := List.forall_mem_append.mpr
    ⟨h.closed, List.forall_mem_singleton.mpr fun _ _ => rfl⟩
  rest := by
    rcases h.rest with ⟨hmacs, hwaiting⟩ | ⟨-, hclosed⟩
    · refine .inl ⟨?_, fun slot hslot => hwaiting slot (List.mem_cons_of_mem _ hslot)⟩
      rw [List.map_append, hmacs, CircuitGate.macs, CircuitGate.macs,
        CircuitGate.openings_snoc (hopening'.trans hopening), List.map_append]
      rfl
    · have hfalse := hclosed _ (List.mem_cons_self ..) _ hopening
      cases hfalse

theorem meets_take {gate : CircuitGate} {opening : Opening}
    (h : Gathering gates old past front (⟨gate, false⟩ :: back) new now desk)
    (hround : round ≠ 0) (hopening : gate.opening? = some { opening with opened := none }) :
    (opening.evaluate me round).Meets
      ((Terms.entering gates old past).contract (Bench.mk (front ++ ⟨gate, false⟩ :: back))
        fun result now desk' => ∃ value, result = ({ opening with opened := some value }, .done) ∧
          Entering gates old past now ⟨front ++ ⟨gate, false⟩ :: back, desk'⟩ ∧
          ∀ gate' : CircuitGate, gate'.opening? = gate.opening? →
            gate'.revealsOutput = gate.revealsOutput →
            ∃ new, Gathering gates old past (front ++ [⟨gate', true⟩]) back new now desk')
      now desk := by
  refine Opening.meets_take hround (fun _ => trivial) ?_ ?_
  · intro now' rounds hstill hrounds
    exact ((h.still hstill).setDesk hrounds).entering
  · intro now' rounds value hstill hrounds
    have hnext : Gathering gates old past front (⟨gate, false⟩ :: back) new now'
        { desk with rounds } := (h.still hstill).setDesk hrounds
    have htaken := @take _ _ _ _ _ _ _ _ gate gate opening value hnext hopening rfl rfl
    have hentering : Entering gates old past
        (now' ++ [Move.inner (some (.opened ⟨value, opening.share.mac⟩))])
        ⟨front ++ ⟨gate, false⟩ :: back,
          { desk with rounds, ledger := desk.ledger.append value opening.share.mac }⟩ :=
      ⟨_, hnext.entered.enter, htaken.macs_prefix, .inr htaken.quiet⟩
    exact ⟨hentering, value, rfl, hentering, fun gate' hopening' hreveals =>
      ⟨_, hnext.take hopening hopening' hreveals⟩⟩

theorem visiting (hround : round ≠ 0) : Visiting (Terms.entering gates old past) id me round
    fun front back now desk => ∃ new, Gathering gates old past front back new now desk where
  during := fun ⟨_, h⟩ => h.entering
  silent := fun ⟨new, h⟩ => ⟨new, h.still (Still.refl _).silent⟩
  skip := fun ⟨new, h⟩ => ⟨new, h.skip⟩
  evaluate {front gate back now desk} := by
    rintro ⟨new, h⟩
    replace h := h.still ((Still.refl now).evaluating desk.rounds.phase front.length round)
    have hsilent := h.still (Still.refl _).silent
    cases gate with
    | compute gate =>
      refine (meets_compute_entering h.entering hsilent.entering).mono_terms ?_
      rintro ⟨_, status⟩ _ _ ⟨rfl, rfl, rfl⟩
      exact ⟨new, hsilent.pass rfl rfl rfl⟩
    | output gate =>
      refine (h.meets_take hround rfl).bind_terms ?_
      rintro _ now desk' ⟨value, rfl, hentering, htake⟩
      exact ⟨hentering, htake _ rfl rfl⟩
    | opening gate =>
      refine (h.meets_take hround rfl).bind_terms ?_
      rintro _ now desk' ⟨value, rfl, hentering, htake⟩
      obtain ⟨new', h'⟩ := htake (.opening { gate with opened := some value }) rfl rfl
      have hpublish : Gathering gates old past
          (front ++ [⟨.opening { gate with opened := some value }, true⟩]) back new'
          (now ++ [Move.inner none])
          { desk' with board := Opening.publish { gate with opened := some value } desk'.board } :=
        (h'.still (Still.refl now).silent).setDesk (.refl _)
      exact .modify_bind hentering ⟨hentering.publish, new', hpublish⟩

/-- A round after round zero. Its first one enters all records. -/
theorem meets_runRound (hround : round ≠ 0)
    (h : Gathering gates old past [] bench.slots new now bench.desk) :
    (Bench.runRound me round).Meets
      ((Terms.entering gates old past).contract id fun _ now bench =>
        EnteredAll gates old past now bench ∧ ∀ slot ∈ bench.slots, slot.Closed) now bench := by
  refine (visiting hround).meets_runRound ?_ ⟨new, h⟩
  rintro slots now desk ⟨new, h⟩
  have hmacs : new.map Record.mac = CircuitGate.macs gates := by
    rcases h.rest with ⟨hmacs, -⟩ | ⟨hmacs, -⟩
    · rw [hmacs, ← CircuitGate.macs_eq h.entered.openings_eq, List.append_nil]
    · exact hmacs
  have hentered := h.entered
  rw [List.append_nil] at hentered
  refine (hentered.meets_ship (.inr h.quiet) h.macs_prefix).mono_terms ?_
  rintro _ now rounds ⟨hshipped, hquiet⟩
  exact ⟨⟨new, hshipped, hmacs, hquiet⟩, h.closed⟩

end Gathering

/-! ## Whole batches -/

theorem EnteredAll.entering (h : EnteredAll gates old past now bench) :
    Entering gates old past now bench := by
  obtain ⟨new, hentered, hmacs, hquiet⟩ := h
  exact ⟨new, hentered, hmacs ▸ List.prefix_refl _, .inr hquiet⟩

theorem EnteredAll.silent (h : EnteredAll gates old past now bench) :
    EnteredAll gates old past (now ++ [Move.inner none]) bench := by
  obtain ⟨new, hentered, hmacs, hquiet⟩ := h
  exact ⟨new, hentered.silent, hmacs, hquiet⟩

theorem Queued.enteredAll (h : Queued gates old past bench.slots now bench.desk)
    (hdone : bench.isDone = true) : EnteredAll gates old past now bench := by
  refine ⟨[], h.entered, ?_, h.quiet⟩
  have hnone : CircuitGate.openings (bench.slots.map Slot.gate) = [] := by
    rw [CircuitGate.openings, List.filterMap_map, List.filterMap_eq_nil_iff]
    exact fun slot hslot =>
      (h.waiting slot hslot).opening?_eq_none (List.all_eq_true.mp hdone slot hslot)
  rw [← CircuitGate.macs_eq h.entered.openings_eq, CircuitGate.macs, hnone]
  rfl

/-- What holds before a round of a batch: all that it opens is entered in round one. -/
def EnteredBefore (gates : List CircuitGate) (old : List Record) (past : List Move) (round : Nat)
    (now : List Move) (bench : Bench CircuitGate Board) : Prop :=
  match round with
  | 0 | 1 => Queued gates old past bench.slots now bench.desk
  | _ + 2 => EnteredAll gates old past now bench ∧ ∀ slot ∈ bench.slots, slot.Closed

namespace EnteredBefore

theorem entering (h : EnteredBefore gates old past round now bench) :
    Entering gates old past now bench := by
  match round, h with
  | 0, h | 1, h => exact (Queued.entered h).entering
  | _ + 2, h => exact h.1.entering

theorem silent (h : EnteredBefore gates old past round now bench) :
    EnteredBefore gates old past round (now ++ [Move.inner none]) bench := by
  match round, h with
  | 0, h | 1, h => exact Queued.silent h
  | _ + 2, h => exact ⟨h.1.silent, h.2⟩

theorem enteredAll (h : EnteredBefore gates old past round now bench) (hdone : bench.isDone = true) :
    EnteredAll gates old past now bench := by
  match round, h with
  | 0, h | 1, h => exact Queued.enteredAll h hdone
  | _ + 2, h => exact h.1

theorem meets_runRound (h : EnteredBefore gates old past round now bench) :
    (Bench.runRound me round).Meets
      ((Terms.entering gates old past).contract id fun _ =>
        EnteredBefore gates old past (round + 1)) now bench := by
  match round, h with
  | 0, h => exact Queued.meets_runRound h
  | 1, h =>
    have hgathering : Gathering gates old past [] bench.slots [] now bench.desk :=
      ⟨Queued.entered h, Queued.quiet h, List.forall_mem_nil _, .inl ⟨rfl, Queued.waiting h⟩⟩
    exact hgathering.meets_runRound Nat.one_ne_zero
  | round + 2, ⟨⟨new, hentered, hmacs, hquiet⟩, hclosed⟩ =>
    have hgathering : Gathering gates old past [] bench.slots new now bench.desk :=
      ⟨hentered, hquiet, List.forall_mem_nil _, .inr ⟨hmacs, hclosed⟩⟩
    exact hgathering.meets_runRound (Nat.succ_ne_zero _)

end EnteredBefore

/-- Whatever the transport does, every moment of a batch is as it should be, and at its end it has
entered a record for each of its openings. -/
theorem Bench.meets_process_entering (hrecords : desk.ledger.records = old)
    (hquiet : desk.rounds.Quiet) :
    (Bench.process me).Meets
      ((Terms.entering gates old past).contract id fun _ now bench =>
        EnteredAll gates old past now bench) past
      ⟨gates.map fun gate => ⟨gate, false⟩, desk⟩ := by
  have hwaiting : ∀ slot ∈ gates.map fun gate => (⟨gate, false⟩ : Slot CircuitGate), slot.Waiting := by
    intro slot hslot
    obtain ⟨gate, -, rfl⟩ := List.mem_map.mp hslot
    exact fun _ _ => rfl
  have hstart : EnteredBefore gates old past 0 past ⟨gates.map fun gate => ⟨gate, false⟩, desk⟩ :=
    ⟨.start hrecords, hwaiting, hquiet⟩
  exact (meets_runRounds (EnteredBefore gates old past) EnteredBefore.entering EnteredBefore.silent
    (fun h _ => h.meets_runRound) hstart).mono_terms fun _ _ _ h => h.1.enteredAll h.2

end Entering
end AuthenticatedMpc
