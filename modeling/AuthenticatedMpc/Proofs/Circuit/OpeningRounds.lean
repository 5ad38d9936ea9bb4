import AuthenticatedMpc.Proofs.Circuit.Openings

/-!
# The openings of a batch, whatever the transport does

In round zero of a batch its openings post the shares of the party, in round one they take those of
the peers, message by message, and record what they add up to. If the batch ends, then it has made one
exchange, in which all packets hold one share for each opening, or it opens nothing and has made none.
-/

namespace AuthenticatedMpc

/-! ## Rounds -/

/-- Round zero: the gates visited so far have posted their shares. -/
structure Posting (P : Board → Prop) (fails : Error → Prop) (me : Party)
    (exchanges : List (PartyId → Packet)) (phase : Phase) (openings : List Opening)
    (entries : List Entry) (records : List Record) (front back : List (Slot CircuitGate))
    (now : List Move) (desk : Desk Board) : Prop
    extends Lined P fails openings entries records (front ++ back) now desk where
  waiting : ∀ slot ∈ front ++ back, slot.Waiting
  exchanged : Exchanged me exchanges now
  rounds_eq : desk.rounds = .of phase me.parties
    (fun q => if q = me.id then []
      else (CircuitGate.openings (front.map Slot.gate)).map Opening.message)
    (fun _ => []) fun _ => false

/-- Round one: the openings visited so far have read their messages and recorded their values. -/
structure Taking (P : Board → Prop) (fails : Error → Prop) (me : Party)
    (exchanges : List (PartyId → Packet)) (batch : UInt64) (openings : List Opening)
    (Fine : PartyId → Packet → Prop) (entries : List Entry) (records : List Record)
    (front back : List (Slot CircuitGate)) (heard : PartyId → Option Packet) (now : List Move)
    (desk : Desk Board) : Prop
    extends Lined P fails openings
      (entries ++ (CircuitGate.records (front.map Slot.gate)).map (.opened batch ·.value))
      (records ++ CircuitGate.records (front.map Slot.gate)) (front ++ back) now desk where
  settled : ∀ slot ∈ front, slot.Settled
  waiting : ∀ slot ∈ back, slot.Waiting
  reading : Reading me exchanges ⟨.circuit batch, openings.map Opening.message⟩ Fine heard
    (fun _ => (CircuitGate.records (front.map Slot.gate)).length) (.ofMoves now) now desk.rounds
  reads : ∀ place record, (CircuitGate.records (front.map Slot.gate))[place]? = some record →
    Reads me ⟨.circuit batch, openings.map Opening.message⟩ heard place record.value

/-- A round in which nothing is opened. -/
structure Resting (P : Board → Prop) (fails : Error → Prop) (me : Party)
    (exchanges : List (PartyId → Packet)) (own : Packet) (sent : PartyId → Bool)
    (heard : PartyId → Option Packet) (openings : List Opening) (entries : List Entry)
    (records : List Record) (slots : List (Slot CircuitGate)) (now : List Move)
    (desk : Desk Board) : Prop
    extends Lined P fails openings entries records slots now desk where
  done : ∀ slot ∈ slots, ∀ opening, slot.gate.opening? = some opening → slot.done = true
  standing : Standing me exchanges own sent heard (.ofMoves now) now
  rounds_eq : desk.rounds = .start own.phase me.parties

/-- After round one: there was one exchange, and all openings have recorded their values. -/
def Taken (P : Board → Prop) (fails : Error → Prop) (me : Party)
    (exchanges : List (PartyId → Packet)) (batch : UInt64) (openings : List Opening)
    (Fine : PartyId → Packet → Prop) (entries : List Entry) (records : List Record)
    (slots : List (Slot CircuitGate)) (now : List Move) (desk : Desk Board) : Prop :=
  ∃ packets new, OpensBatch me (.circuit batch) Fine openings [packets] new ∧
    packets me.id = ⟨.circuit batch, openings.map Opening.message⟩ ∧
    Resting P fails me exchanges ⟨.circuit batch, openings.map Opening.message⟩ (fun _ => true)
      (fun q => some (packets q)) openings (entries ++ new.map (.opened batch ·.value))
      (records ++ new) slots now desk

section Rounds

variable {terms : Terms Board} {me : Party} {exchanges : List (PartyId → Packet)} {phase : Phase}
  {batch : UInt64} {openings : List Opening} {Fine : PartyId → Packet → Prop} {P : Board → Prop}
  {entries : List Entry} {records : List Record} {own : Packet} {sent : PartyId → Bool}
  {heard : PartyId → Option Packet} {front back slots : List (Slot CircuitGate)} {past now : List Move}
  {desk : Desk Board} {round : Nat}

theorem Posting.during
    (h : Posting P terms.fails me exchanges phase openings entries records front back now desk)
    (hterms : terms.SuitsBatch me exchanges phase openings Fine P) : terms.during now desk.board :=
  hterms.during _ _ (h.exchanged.saying _) h.board

theorem Posting.inner
    (h : Posting P terms.fails me exchanges phase openings entries records front back past desk)
    {event : Option Event}
    (hevent : ∀ chronicle : Chronicle, (chronicle.note (.inner event)).entries = chronicle.entries) :
    Posting P terms.fails me exchanges phase openings entries records front back
      (past ++ [Move.inner event]) desk :=
  { h with toLined := h.toLined.inner hevent, exchanged := h.exchanged.inner }

theorem Posting.silent
    (h : Posting P terms.fails me exchanges phase openings entries records front back past desk) :
    Posting P terms.fails me exchanges phase openings entries records front back
      (past ++ [Move.inner none]) desk :=
  h.inner fun _ => rfl

theorem Posting.pass {slot slot' : Slot CircuitGate}
    (h : Posting P terms.fails me exchanges phase openings entries records front (slot :: back) past
      desk)
    (hlined : Lined P terms.fails openings entries records (front ++ [slot'] ++ back) past desk)
    (hnone : slot'.gate.opening? = none) :
    Posting P terms.fails me exchanges phase openings entries records (front ++ [slot']) back past desk
    where
  toLined := hlined
  waiting := by
    apply Slot.forall_mem_replace h.waiting
    intro opening hopening
    rw [hnone] at hopening
    cases hopening
  exchanged := h.exchanged
  rounds_eq := by
    rw [h.rounds_eq, CircuitGate.openings_snoc_of_eq_none hnone]

theorem Posting.meets_post {gate : CircuitGate} {opening : Opening}
    (h : Posting P terms.fails me exchanges phase openings entries records front (⟨gate, false⟩ :: back)
      past desk) (hterms : terms.SuitsBatch me exchanges phase openings Fine P)
    (hopening : gate.opening? = some { opening with opened := none }) :
    (opening.evaluate me 0).Meets (terms.contract Desk.board fun result now desk' =>
      result = (opening, .moreRounds) ∧
        Posting P terms.fails me exchanges phase openings entries records (front ++ [⟨gate, false⟩]) back
          now desk') past desk := by
  have hrounds : desk.rounds.postAll me.id opening.message = .of phase me.parties
      (fun q => if q = me.id then []
        else (CircuitGate.openings ((front ++ [(⟨gate, false⟩ : Slot CircuitGate)]).map
          Slot.gate)).map Opening.message)
      (fun _ => []) fun _ => false := by
    rw [h.rounds_eq, RoundBuffer.postAll_of, CircuitGate.openings_snoc hopening, List.map_append,
      List.map_singleton]
    apply RoundBuffer.of_congr
    · intro q _
      split <;> rfl
    · intro _ _
      rfl
    · intro _ _
      rfl
  refine (Opening.meets_post (h.during hterms) (h.silent.during hterms)).mono_terms ?_
  rintro _ _ _ ⟨rfl, rfl, rfl⟩
  have hskip := h.silent.toLined.skip
  exact ⟨rfl,
    { hskip with
      waiting := Slot.forall_mem_replace h.waiting fun _ _ => rfl
      exchanged := h.silent.exchanged
      rounds_eq := hrounds }⟩

theorem visits_post (hterms : terms.SuitsBatch me exchanges phase openings Fine P) :
    Visiting terms Bench.board me 0 (Posting P terms.fails me exchanges phase openings entries records) where
  during h := h.during hterms
  silent h := h.silent
  skip {front gate back now desk} h := by
    have hwaiting := h.waiting ⟨gate, true⟩ (List.mem_append_right _ (List.mem_cons_self ..))
    exact h.pass h.toLined.skip (hwaiting.opening?_eq_none rfl)
  evaluate {front gate back now desk} h := by
    have hsound := h.sound _ (List.mem_append_right _ (List.mem_cons_self ..))
    replace h := h.inner (Chronicle.entries_note_evaluating desk.rounds.phase front.length 0)
    cases gate with
    | compute gate =>
      refine (CircuitGate.meets_compute (h.during hterms) (h.silent.during hterms) fun error =>
        h.toLined.fails_of_act).mono_terms ?_
      rintro ⟨_, status⟩ _ _ ⟨rfl, rfl, rfl⟩
      exact h.silent.pass h.silent.toLined.compute rfl
    | output gate =>
      refine (h.meets_post hterms rfl).bind_terms ?_
      rintro _ _ _ ⟨rfl, hpost⟩
      exact ⟨hpost.during hterms, hpost⟩
    | opening gate =>
      refine (h.meets_post hterms rfl).bind_terms ?_
      rintro _ now desk' ⟨rfl, hpost⟩
      have hpublish : Posting P terms.fails me exchanges phase openings entries records
          (front ++ [⟨.opening gate, false⟩]) back (now ++ [Move.inner none])
          { desk' with board := gate.publish desk'.board } :=
        { hpost.silent with board := hsound desk'.board hpost.board }
      exact .modify_bind (hpost.during hterms) ⟨hpublish.during hterms, hpublish⟩

theorem Taking.during
    (h : Taking P terms.fails me exchanges batch openings Fine entries records front back heard now desk)
    (hterms : terms.SuitsBatch me exchanges (.circuit batch) openings Fine P) :
    terms.during now desk.board :=
  hterms.during _ _ h.reading.standing.saying h.board

theorem Taking.inner
    (h : Taking P terms.fails me exchanges batch openings Fine entries records front back heard past
      desk) {event : Option Event}
    (hevent : ∀ chronicle : Chronicle, (chronicle.note (.inner event)).entries = chronicle.entries) :
    Taking P terms.fails me exchanges batch openings Fine entries records front back heard
      (past ++ [Move.inner event]) desk :=
  { h with
    toLined := h.toLined.inner hevent
    reading := by rw [Chronicle.ofMoves_append]; exact h.reading.inner event }

theorem Taking.silent
    (h : Taking P terms.fails me exchanges batch openings Fine entries records front back heard past
      desk) :
    Taking P terms.fails me exchanges batch openings Fine entries records front back heard
      (past ++ [Move.inner none]) desk :=
  h.inner fun _ => rfl

/-- The next opening reads the messages at the place after those that were used. -/
theorem Taking.getElem?_openings {gate : CircuitGate} {opening : Opening}
    (h : Taking P terms.fails me exchanges batch openings Fine entries records front
      (⟨gate, false⟩ :: back) heard past desk) (hopening : gate.opening? = some opening) :
    openings[(CircuitGate.records (front.map Slot.gate)).length]? = some opening := by
  have hlength : (CircuitGate.records (front.map Slot.gate)).length =
      (CircuitGate.openings (front.map Slot.gate)).length := by
    rw [← List.length_map Record.mac, CircuitGate.map_mac_records h.settled, List.length_map]
  have hnext : CircuitGate.openings ((⟨gate, false⟩ :: back : List (Slot CircuitGate)).map Slot.gate) =
      opening :: CircuitGate.openings (back.map Slot.gate) := List.filterMap_cons_some hopening
  rw [hlength, ← h.openings_eq, List.map_append, CircuitGate.openings_append, hnext,
    List.getElem?_append_right (Nat.le_refl _), Nat.sub_self, List.getElem?_cons_zero]

theorem Taking.pass {slot slot' : Slot CircuitGate}
    (h : Taking P terms.fails me exchanges batch openings Fine entries records front (slot :: back)
      heard past desk)
    (hlined : Lined P terms.fails openings
      (entries ++ (CircuitGate.records (front.map Slot.gate)).map (.opened batch ·.value))
      (records ++ CircuitGate.records (front.map Slot.gate)) (front ++ [slot'] ++ back) past desk)
    (hnone : slot'.gate.opening? = none) (hrecord : slot'.gate.record? = none) :
    Taking P terms.fails me exchanges batch openings Fine entries records (front ++ [slot']) back heard
      past desk := by
  have hrecords := @CircuitGate.records_snoc_of_eq_none front slot' hrecord
  have hslot : ∀ other ∈ [slot'], other.Settled :=
    List.forall_mem_singleton.mpr (Slot.settled_of_opening?_eq_none hnone)
  exact
    { toLined := by rwa [hrecords]
      settled := List.forall_mem_append.mpr ⟨h.settled, hslot⟩
      waiting := fun other hother => h.waiting other (List.mem_cons_of_mem _ hother)
      reading := by rw [hrecords]; exact h.reading
      reads := by rw [hrecords]; exact h.reads }

theorem Taking.take {gate gate' : CircuitGate} {opening : Opening} {value : Element}
    {heard' : PartyId → Option Packet} {rounds : RoundBuffer}
    (h : Taking P terms.fails me exchanges batch openings Fine entries records front
      (⟨gate, false⟩ :: back) heard past desk)
    (hbatch : (Chronicle.ofMoves past).batch = batch)
    (hopening : gate.opening? = some { opening with opened := none })
    (hopening' : gate'.opening? = gate.opening?)
    (hrecord : gate'.record? = some ⟨value, opening.share.mac⟩) (hsound : gate'.Sound P terms.fails)
    (hhears : Hears heard heard')
    (hreads : Reads me ⟨.circuit batch, openings.map Opening.message⟩ heard'
      (CircuitGate.records (front.map Slot.gate)).length value)
    (hreading : Reading me exchanges ⟨.circuit batch, openings.map Opening.message⟩ Fine heard'
      (fun _ => (CircuitGate.records (front.map Slot.gate)).length + 1)
      ((Chronicle.ofMoves past).note (.inner (some (.opened ⟨value, opening.share.mac⟩)))) now rounds) :
    Taking P terms.fails me exchanges batch openings Fine entries records (front ++ [⟨gate', true⟩])
      back heard' now
      { desk with rounds, ledger := desk.ledger.append value opening.share.mac } := by
  have hrecords := @CircuitGate.records_snoc front ⟨gate', true⟩ _ hrecord
  have hslot : ∀ other ∈ [(⟨gate', true⟩ : Slot CircuitGate)], other.Settled :=
    List.forall_mem_singleton.mpr
      (Slot.settled_of_record?_eq_some (hopening'.trans hopening) rfl hrecord)
  have hfront : ∀ place record, (CircuitGate.records (front.map Slot.gate))[place]? = some record →
      Reads me ⟨.circuit batch, openings.map Opening.message⟩ heard' place record.value :=
    fun place record hplace => (h.reads place record hplace).hear hhears
  have hlined : Lined P terms.fails openings _ _ (front ++ [⟨gate', true⟩] ++ back) past desk :=
    h.toLined.replace hopening' hsound
  refine
    { openings_eq := hlined.openings_eq
      sound := hlined.sound
      board := h.board
      entries_eq := ?_
      records_eq := ?_
      settled := List.forall_mem_append.mpr ⟨h.settled, hslot⟩
      waiting := fun other hother => h.waiting other (List.mem_cons_of_mem _ hother)
      reading := ?_
      reads := by rw [hrecords]; exact Reads.forall_snoc hfront hreads }
  · rw [hreading.standing.chronicle_eq, hrecords, List.map_append, List.map_singleton,
      ← List.append_assoc, ← h.entries_eq, ← hbatch]
    rfl
  · rw [Ledger.records_append, h.records_eq, hrecords, List.append_assoc]
  · rw [hrecords, List.length_append, List.length_singleton, hreading.standing.chronicle_eq]
    exact hreading

/-- An opening takes the next message of each peer, on terms on which it may publish what it reads. -/
theorem Taking.meets_read {gate : CircuitGate} {opening : Opening}
    (h : Taking P terms.fails me exchanges batch openings Fine entries records front
      (⟨gate, false⟩ :: back) heard past desk)
    (hterms : terms.SuitsBatch me exchanges (.circuit batch) openings Fine P)
    (hbatch : (Chronicle.ofMoves past).batch = batch)
    (hopening : gate.opening? = some { opening with opened := none }) :
    (opening.evaluate me 1).Meets (terms.contract Desk.board fun result now desk' =>
      ∃ value heard', result = ({ opening with opened := some value }, .done) ∧
        (∀ board, P board → P (board.publish opening.handle value)) ∧
        ∀ gate' : CircuitGate, gate'.opening? = gate.opening? →
          gate'.record? = some ⟨value, opening.share.mac⟩ → gate'.Sound P terms.fails →
          Taking P terms.fails me exchanges batch openings Fine entries records
            (front ++ [⟨gate', true⟩]) back heard' now desk') past desk := by
  have hplace := h.getElem?_openings hopening
  refine (Opening.meets_read hterms h.board hplace h.reading).mono_terms ?_
  rintro _ now _ ⟨heard', rounds, value, hhears, rfl, rfl, hreads, hreading⟩
  refine ⟨value, heard', rfl, ?_, ?_⟩
  · apply hterms.publish _ _ _ _ hplace hreads
    intro q packet hheard
    exact (hreading.of_heard q packet hheard).2
  · intro gate' hopening' hrecord hsound
    exact h.take hbatch hopening hopening' hrecord hsound hhears hreads hreading

theorem visits_read (hterms : terms.SuitsBatch me exchanges (.circuit batch) openings Fine P) :
    Visiting terms Bench.board me 1 fun front back now desk => ∃ heard,
      Taking P terms.fails me exchanges batch openings Fine entries records front back heard now desk
    where
  during := fun ⟨_, h⟩ => h.during hterms
  silent := fun ⟨heard, h⟩ => ⟨heard, h.silent⟩
  skip {front gate back now desk} := by
    rintro ⟨heard, h⟩
    have hwaiting := h.waiting ⟨gate, true⟩ (List.mem_cons_self ..)
    have hnone : gate.opening? = none := hwaiting.opening?_eq_none rfl
    have hrecord : gate.record? = none := by
      cases gate with
      | opening | output => cases hnone
      | compute => rfl
    exact ⟨heard, h.pass h.toLined.skip hnone hrecord⟩
  evaluate {front gate back now desk} := by
    rintro ⟨heard, h⟩
    have hphase : desk.rounds.phase = .circuit batch := by rw [h.reading.rounds_eq]; rfl
    rw [hphase]
    replace h := h.inner (Chronicle.entries_note_evaluating (.circuit batch) front.length 1)
    have hbatch : (Chronicle.ofMoves
        (now ++ [Move.inner (some (.evaluating (.circuit batch) front.length 1))])).batch = batch := by
      rw [Chronicle.ofMoves_append]
      rfl
    cases gate with
    | compute gate =>
      refine (CircuitGate.meets_compute (h.during hterms) (h.silent.during hterms) fun error =>
        h.toLined.fails_of_act).mono_terms ?_
      rintro ⟨_, status⟩ _ _ ⟨rfl, rfl, rfl⟩
      exact ⟨heard, h.silent.pass h.silent.toLined.compute rfl rfl⟩
    | output gate =>
      refine (h.meets_read hterms hbatch rfl).bind_terms ?_
      rintro _ now desk' ⟨value, heard', rfl, hpublish, htake⟩
      have htaken := htake (.output { gate with opened := some value }) rfl rfl hpublish
      exact ⟨htaken.during hterms, heard', htaken⟩
    | opening gate =>
      refine (h.meets_read hterms hbatch rfl).bind_terms ?_
      rintro _ now desk' ⟨value, heard', rfl, hpublish, htake⟩
      have htaken := htake (.opening { gate with opened := some value }) rfl rfl hpublish
      have hpublished : Taking P terms.fails me exchanges batch openings Fine entries records
          (front ++ [⟨.opening { gate with opened := some value }, true⟩]) back heard'
          (now ++ [Move.inner none])
          { desk' with board := desk'.board.publish gate.handle value } :=
        { htaken.silent with board := hpublish desk'.board htaken.board }
      exact .modify_bind (htaken.during hterms)
        ⟨hpublished.during hterms, heard', hpublished⟩

theorem Resting.during
    (h : Resting P terms.fails me exchanges own sent heard openings entries records slots now desk)
    (hterms : terms.Suits me exchanges own Fine P) : terms.during now desk.board :=
  hterms.during _ _ h.standing.saying h.board

theorem Resting.inner
    (h : Resting P terms.fails me exchanges own sent heard openings entries records slots past desk)
    {event : Option Event}
    (hevent : ∀ chronicle : Chronicle, (chronicle.note (.inner event)).entries = chronicle.entries) :
    Resting P terms.fails me exchanges own sent heard openings entries records slots
      (past ++ [Move.inner event]) desk :=
  { h with
    toLined := h.toLined.inner hevent
    standing := by rw [Chronicle.ofMoves_append]; exact h.standing.inner event }

theorem Resting.silent
    (h : Resting P terms.fails me exchanges own sent heard openings entries records slots past desk) :
    Resting P terms.fails me exchanges own sent heard openings entries records slots
      (past ++ [Move.inner none]) desk :=
  h.inner fun _ => rfl

theorem visits_rest (hterms : terms.Suits me exchanges own Fine P) :
    Visiting terms Bench.board me round fun front back => Resting P terms.fails me exchanges own sent heard openings
      entries records (front ++ back) where
  during h := h.during hterms
  silent h := h.silent
  skip {front gate back now desk} h := by rwa [List.append_assoc]
  evaluate {front gate back now desk} h := by
    replace h := h.inner (Chronicle.entries_note_evaluating desk.rounds.phase front.length round)
    have hdone := h.done _ (List.mem_append_right _ (List.mem_cons_self ..))
    cases gate with
    | opening | output => exact nomatch hdone _ rfl
    | compute gate =>
      refine (CircuitGate.meets_compute (h.during hterms) (h.silent.during hterms) fun error =>
        h.toLined.fails_of_act).mono_terms ?_
      rintro ⟨_, status⟩ _ _ ⟨rfl, rfl, rfl⟩
      exact
        { h.silent with
          toLined := h.silent.toLined.compute
          done := Slot.forall_mem_replace h.done nofun }

theorem Resting.meets_ship (hterms : terms.Suits me exchanges own Fine P)
    (h : Resting P terms.fails me exchanges own sent heard openings entries records slots past desk) :
    RoundBuffer.ship.Meets (terms.contract (fun _ => desk.board) fun _ now rounds =>
      Resting P terms.fails me exchanges own sent heard openings entries records slots now
        { desk with rounds }) past desk.rounds := by
  rw [h.rounds_eq, RoundBuffer.start_eq_of]
  refine (RoundBuffer.meets_ship hterms h.board (fun _ _ => .inl rfl) h.standing).mono_terms ?_
  rintro _ now _ ⟨hstanding, -, rfl⟩
  have hnow : Standing me exchanges own sent heard (.ofMoves past) now :=
    hstanding.congr (fun q _ => by simp) fun _ _ => rfl
  exact
    { h with
      entries_eq := by rw [hnow.chronicle_eq, h.entries_eq]
      standing := by rw [hnow.chronicle_eq]; exact hnow
      rounds_eq := rfl }

theorem Resting.meets_runRound {bench : Bench CircuitGate Board}
    (hterms : terms.Suits me exchanges own Fine P)
    (h : Resting P terms.fails me exchanges own sent heard openings entries records bench.slots past
      bench.desk) :
    (Bench.runRound me round).Meets (terms.contract Bench.board fun _ now bench =>
      Resting P terms.fails me exchanges own sent heard openings entries records bench.slots now
        bench.desk) past bench := by
  refine (visits_rest hterms).meets_runRound (fun slots now desk h => ?_) h
  rw [List.append_nil] at h
  exact h.meets_ship hterms

theorem Posting.meets_ship (hterms : terms.SuitsBatch me exchanges (.circuit batch) openings Fine P)
    (hopenings : openings ≠ [])
    (h : Posting P terms.fails me exchanges (.circuit batch) openings entries records slots [] past
      desk) :
    RoundBuffer.ship.Meets (terms.contract (fun _ => desk.board) fun _ now rounds =>
      Taking P terms.fails me exchanges batch openings Fine entries records [] slots (fun _ => none) now
        { desk with rounds }) past desk.rounds := by
  have hstanding := h.exchanged.standing ⟨.circuit batch, openings.map Opening.message⟩
  have hmessages : CircuitGate.openings (slots.map Slot.gate) = openings := by
    rw [← h.openings_eq, List.append_nil]
  rw [h.rounds_eq, hmessages]
  refine (RoundBuffer.meets_ship hterms.toSuits h.board (fun q _ => ?_) hstanding).mono_terms ?_
  · split
    · exact .inl rfl
    · exact .inr ⟨rfl, rfl⟩
  rintro _ now _ ⟨hsent, -, rfl⟩
  have hnow : Standing me exchanges ⟨.circuit batch, openings.map Opening.message⟩ (fun _ => true)
      (fun _ => none) (.ofMoves past) now := by
    refine hsent.congr (fun q hq => ?_) fun _ _ => rfl
    simp [(Party.mem_peers.mp hq).2, hopenings]
  exact
    { openings_eq := by rw [← h.openings_eq, List.append_nil, List.nil_append]
      sound := fun slot hslot => h.sound slot (List.mem_append_left _ hslot)
      board := h.board
      entries_eq := by
        rw [hnow.chronicle_eq, h.entries_eq]
        exact (List.append_nil _).symm
      records_eq := h.records_eq.trans (List.append_nil _).symm
      settled := nofun
      waiting := fun slot hslot => h.waiting slot (List.mem_append_left _ hslot)
      reading :=
        { standing := by rw [hnow.chronicle_eq]; exact hnow
          of_heard := nofun
          unused := fun _ _ _ => rfl
          rounds_eq := RoundBuffer.start_eq_of }
      reads := nofun }

theorem Taking.exists_packets (hopenings : openings ≠ [])
    (h : Taking P terms.fails me exchanges batch openings Fine entries records slots [] heard past
      desk) :
    ∃ packets : PartyId → Packet,
      packets me.id = ⟨.circuit batch, openings.map Opening.message⟩ ∧
        (∀ q ∈ me.peers, heard q = some (packets q)) ∧
        ∀ place record, (CircuitGate.records (slots.map Slot.gate))[place]? = some record →
          Reads me (packets me.id) (fun q => some (packets q)) place record.value := by
  obtain ⟨first, hfirst⟩ :
      ∃ record, (CircuitGate.records (slots.map Slot.gate))[0]? = some record := by
    have hmacs := CircuitGate.map_mac_records h.settled
    cases hrecords : CircuitGate.records (slots.map Slot.gate) with
    | nil =>
      rw [hrecords, ← List.append_nil slots, h.openings_eq] at hmacs
      exact absurd (List.map_eq_nil_iff.mp hmacs.symm) hopenings
    | cons record _ => exact ⟨record, rfl⟩
  obtain ⟨_, -, hpeers, -⟩ := h.reads 0 first hfirst
  obtain ⟨packets, hown, hheard⟩ := me.exists_packets
    ⟨.circuit batch, openings.map Opening.message⟩ fun q hq =>
      let ⟨packet, _, hpacket, _⟩ := hpeers q hq
      ⟨packet, hpacket⟩
  refine ⟨packets, hown, hheard, fun place record hplace => ?_⟩
  obtain ⟨share, hshare, hpeers, hvalue⟩ := h.reads place record hplace
  refine ⟨share, hown ▸ hshare, fun q hq => ?_, hvalue⟩
  obtain ⟨packet, payload, hpacket, hread⟩ := hpeers q hq
  exact ⟨packet, payload, (hheard q hq).symm.trans hpacket, hread⟩

/-- If the messages of all peers are used up, then the packets hold one share for each opening. -/
theorem Taking.opens {packets : PartyId → Packet}
    (h : Taking P terms.fails me exchanges batch openings Fine entries records slots [] heard past
      desk) (hown : packets me.id = ⟨.circuit batch, openings.map Opening.message⟩)
    (hheard : ∀ q ∈ me.peers, heard q = some (packets q))
    (hreads : ∀ place record, (CircuitGate.records (slots.map Slot.gate))[place]? = some record →
      Reads me (packets me.id) (fun q => some (packets q)) place record.value)
    (hused : ∀ q ∈ me.peers,
      (packets q).messages.length ≤ (CircuitGate.records (slots.map Slot.gate)).length) :
    OpensBatch me (.circuit batch) Fine openings [packets]
      (CircuitGate.records (slots.map Slot.gate)) := by
  have hmacs : (CircuitGate.records (slots.map Slot.gate)).map Record.mac =
      openings.map (·.share.mac) := by
    rw [CircuitGate.map_mac_records h.settled, ← h.openings_eq, List.append_nil]
  refine .exchange packets _ hown (fun q hq => ?_) hmacs hreads
  obtain ⟨-, hphase, hfine⟩ := h.reading.of_heard q _ (hheard q hq)
  refine ⟨hphase, Nat.le_antisymm (hused q hq) (not_lt.mp fun hlt => ?_), hfine⟩
  -- The record at the end of the packet would have been read from it.
  obtain ⟨_, -, hpeers, -⟩ := hreads _ _ (List.getElem?_eq_getElem hlt)
  obtain ⟨_, _, hpacket, hpayload, -⟩ := hpeers q hq
  cases hpacket
  rw [List.getElem?_eq_none (Nat.le_refl _)] at hpayload
  cases hpayload

theorem Taking.meets_ship (hterms : terms.SuitsBatch me exchanges (.circuit batch) openings Fine P)
    (hopenings : openings ≠ [])
    (h : Taking P terms.fails me exchanges batch openings Fine entries records slots [] heard past
      desk) :
    RoundBuffer.ship.Meets (terms.contract (fun _ => desk.board) fun _ now rounds =>
      Taken P terms.fails me exchanges batch openings Fine entries records slots now
        { desk with rounds }) past desk.rounds := by
  obtain ⟨packets, hown, hheard, hreads⟩ := h.exists_packets hopenings
  rw [h.reading.rounds_eq]
  refine (RoundBuffer.meets_ship hterms.toSuits h.board (fun _ _ => .inl rfl)
    h.reading.standing).mono_terms ?_
  rintro _ now _ ⟨hsent, hheld, rfl⟩
  have hnow : Standing me exchanges ⟨.circuit batch, openings.map Opening.message⟩ (fun _ => true)
      (fun q => some (packets q)) (.ofMoves past) now := hsent.congr (fun q _ => by simp) hheard
  have hused : ∀ q ∈ me.peers,
      (packets q).messages.length ≤ (CircuitGate.records (slots.map Slot.gate)).length := by
    intro q hq
    have hdrop := hheld q (Party.mem_peers.mp hq).1
    rw [hheard q hq] at hdrop
    exact List.drop_eq_nil_iff.mp hdrop
  exact ⟨packets, _, h.opens hown hheard hreads hused, hown,
    { openings_eq := by rw [← h.openings_eq, List.append_nil]
      sound := fun slot hslot => h.sound slot (List.mem_append_left _ hslot)
      board := h.board
      entries_eq := by rw [hnow.chronicle_eq, h.entries_eq]
      records_eq := h.records_eq
      done := fun slot hslot opening hopening => (h.settled slot hslot opening hopening).1
      standing := by rw [hnow.chronicle_eq]; exact hnow
      rounds_eq := rfl }⟩

/-! ## Whole batches -/

theorem Lined.not_isDone (h : Lined P terms.fails openings entries records slots past desk)
    (hopenings : openings ≠ []) (hwaiting : ∀ slot ∈ slots, slot.Waiting) :
    ¬(⟨slots, desk⟩ : Bench CircuitGate Board).isDone = true := by
  intro hdone
  obtain ⟨opening, hmem⟩ := List.exists_mem_of_ne_nil _ hopenings
  rw [← h.openings_eq] at hmem
  obtain ⟨slot, hslot, hopening⟩ := CircuitGate.mem_openings.mp hmem
  exact nomatch (hwaiting slot hslot opening hopening).symm.trans
    (List.all_eq_true.mp hdone slot hslot)

theorem Lined.resting (h : Lined P terms.fails [] entries records slots past desk)
    (hexchanged : Exchanged me exchanges past)
    (hrounds : desk.rounds = .start (.circuit batch) me.parties) :
    Resting P terms.fails me exchanges ⟨.circuit batch, []⟩ (fun _ => false) (fun _ => none) []
      entries records slots past desk where
  toLined := h
  done slot hslot opening hopening := by
    have hmem := CircuitGate.mem_openings.mpr ⟨slot, hslot, hopening⟩
    rw [h.openings_eq] at hmem
    cases hmem
  standing := hexchanged.standing _
  rounds_eq := hrounds

theorem Lined.posting (h : Lined P terms.fails openings entries records slots past desk)
    (hslots : ∀ slot ∈ slots, slot.done = false) (hexchanged : Exchanged me exchanges past)
    (hrounds : desk.rounds = .start phase me.parties) :
    Posting P terms.fails me exchanges phase openings entries records [] slots past desk where
  toLined := h
  waiting slot hslot _ _ := hslots slot hslot
  exchanged := hexchanged
  rounds_eq := by
    rw [hrounds, RoundBuffer.start_eq_of]
    exact RoundBuffer.of_congr (fun _ _ => (ite_self _).symm) (fun _ _ => rfl) fun _ _ => rfl

/-- What holds before a round of a batch with openings: it posts, takes and then rests. -/
def OpensBefore (P : Board → Prop) (fails : Error → Prop) (me : Party)
    (exchanges : List (PartyId → Packet)) (batch : UInt64) (openings : List Opening)
    (Fine : PartyId → Packet → Prop) (entries : List Entry) (records : List Record) (round : Nat)
    (now : List Move) (bench : Bench CircuitGate Board) : Prop :=
  match round with
  | 0 => Posting P fails me exchanges (.circuit batch) openings entries records [] bench.slots now
      bench.desk
  | 1 => Taking P fails me exchanges batch openings Fine entries records [] bench.slots
      (fun _ => none) now bench.desk
  | _ + 2 => Taken P fails me exchanges batch openings Fine entries records bench.slots now bench.desk

section OpensBefore

variable {bench : Bench CircuitGate Board}

theorem OpensBefore.during
    (h : OpensBefore P terms.fails me exchanges batch openings Fine entries records round now bench)
    (hterms : terms.SuitsBatch me exchanges (.circuit batch) openings Fine P) :
    terms.during now bench.board := by
  match round, h with
  | 0, h => exact Posting.during h hterms
  | 1, h => exact Taking.during h hterms
  | _ + 2, ⟨_, _, _, _, h⟩ => exact h.during hterms.toSuits

theorem OpensBefore.silent
    (h : OpensBefore P terms.fails me exchanges batch openings Fine entries records round past bench) :
    OpensBefore P terms.fails me exchanges batch openings Fine entries records round
      (past ++ [Move.inner none]) bench := by
  match round, h with
  | 0, h => exact Posting.silent h
  | 1, h => exact Taking.silent h
  | _ + 2, ⟨packets, new, hopens, hown, h⟩ => exact ⟨packets, new, hopens, hown, h.silent⟩

theorem OpensBefore.two_le_of_isDone (hopenings : openings ≠ [])
    (h : OpensBefore P terms.fails me exchanges batch openings Fine entries records round now bench)
    (hdone : bench.isDone = true) : 2 ≤ round := by
  match round, h with
  | 0, h => exact absurd hdone ((Posting.toLined h).not_isDone hopenings (Posting.waiting h))
  | 1, h => exact absurd hdone ((Taking.toLined h).not_isDone hopenings (Taking.waiting h))
  | _ + 2, _ => exact Nat.le_add_left ..

theorem OpensBefore.meets_runRound
    (hterms : terms.SuitsBatch me exchanges (.circuit batch) openings Fine P)
    (hopenings : openings ≠ [])
    (h : OpensBefore P terms.fails me exchanges batch openings Fine entries records round past bench) :
    (Bench.runRound me round).Meets (terms.contract Bench.board fun _ =>
      OpensBefore P terms.fails me exchanges batch openings Fine entries records (round + 1)) past
      bench := by
  match round, h with
  | 0, h =>
    exact (visits_post hterms).meets_runRound (fun slots now desk h => h.meets_ship hterms hopenings) h
  | 1, h =>
    refine (visits_read hterms).meets_runRound ?_ ⟨_, h⟩
    rintro slots now desk ⟨heard, h⟩
    exact h.meets_ship hterms hopenings
  | _ + 2, ⟨packets, new, hopens, hown, h⟩ =>
    exact (h.meets_runRound hterms.toSuits).mono_terms fun _ _ _ h => ⟨packets, new, hopens, hown, h⟩

end OpensBefore

end Rounds

section Batches

variable {terms : Terms Board} {me : Party} {exchanges : List (PartyId → Packet)} {batch : UInt64}
  {gates : List CircuitGate} {Fine : PartyId → Packet → Prop} {P : Board → Prop} {past : List Move}
  {desk : Desk Board}

/-- Whatever the transport does, a batch that opens nothing makes no exchange. -/
theorem Bench.meets_process_nothing
    (hterms : terms.Suits me exchanges ⟨.circuit batch, []⟩ Fine P)
    (hopenings : CircuitGate.openings gates = []) (hexchanged : Exchanged me exchanges past)
    (hsound : ∀ gate ∈ gates, gate.Sound P terms.fails) (hboard : P desk.board)
    (hrounds : desk.rounds = .start (.circuit batch) me.parties) :
    (process me).Meets (terms.contract board fun _ now bench =>
      Exchanged me exchanges now ∧
        Lined P terms.fails [] (Chronicle.ofMoves past).entries desk.ledger.records bench.slots now
          bench.desk) past
      ⟨gates.map fun gate => ⟨gate, false⟩, desk⟩ := by
  have hlined := @Lined.start P terms.fails past desk gates hsound hboard
  rw [hopenings] at hlined
  refine (meets_runRounds (fun _ now bench =>
      Resting P terms.fails me exchanges ⟨.circuit batch, []⟩ (fun _ => false) (fun _ => none) []
        (Chronicle.ofMoves past).entries desk.ledger.records bench.slots now bench.desk)
    (fun h => h.during hterms) Resting.silent (fun h _ => h.meets_runRound hterms)
    (hlined.resting hexchanged hrounds)).mono_terms ?_
  rintro _ now bench ⟨h, -⟩
  exact ⟨h.standing.exchanged, h.toLined⟩

/-- Whatever the transport does, a batch that ends has made one exchange, or none if it opens
nothing. -/
theorem Bench.meets_process_openings
    (hterms : terms.SuitsBatch me exchanges (.circuit batch) (CircuitGate.openings gates) Fine P)
    (hexchanged : Exchanged me exchanges past) (hsound : ∀ gate ∈ gates, gate.Sound P terms.fails)
    (hboard : P desk.board) (hrounds : desk.rounds = .start (.circuit batch) me.parties) :
    (process me).Meets (terms.contract board fun _ now bench =>
      ∃ made new, OpensBatch me (.circuit batch) Fine (CircuitGate.openings gates) made new ∧
        Exchanged me (exchanges ++ made) now ∧
        Lined P terms.fails (CircuitGate.openings gates)
          ((Chronicle.ofMoves past).entries ++ new.map (.opened batch ·.value))
          (desk.ledger.records ++ new) bench.slots now bench.desk) past
      ⟨gates.map fun gate => ⟨gate, false⟩, desk⟩ := by
  by_cases hopenings : CircuitGate.openings gates = []
  · rw [hopenings] at hterms ⊢
    refine (meets_process_nothing hterms.toSuits hopenings hexchanged hsound hboard
      hrounds).mono_terms ?_
    rintro _ now bench ⟨hnow, hlined⟩
    refine ⟨[], [], .nothing rfl, ?_, ?_⟩
    · rwa [List.append_nil]
    · rwa [List.map_nil, List.append_nil, List.append_nil]
  · have hslots : ∀ slot ∈ gates.map fun gate => (⟨gate, false⟩ : Slot CircuitGate),
        slot.done = false := by
      intro slot hslot
      obtain ⟨gate, -, rfl⟩ := List.mem_map.mp hslot
      rfl
    have hstart : OpensBefore P terms.fails me exchanges batch (CircuitGate.openings gates) Fine
        (Chronicle.ofMoves past).entries desk.ledger.records 0 past
        ⟨gates.map fun gate => ⟨gate, false⟩, desk⟩ :=
      (Lined.start hsound hboard).posting hslots hexchanged hrounds
    refine (meets_runRounds (OpensBefore P terms.fails me exchanges batch (CircuitGate.openings gates) Fine
        (Chronicle.ofMoves past).entries desk.ledger.records)
      (fun h => h.during hterms) OpensBefore.silent (fun h _ => h.meets_runRound hterms hopenings)
      hstart).mono_terms ?_
    rintro rounds now bench ⟨h, hdone⟩
    match rounds, h, h.two_le_of_isDone hopenings hdone with
    | _ + 2, ⟨packets, new, hopens, hown, h⟩, _ =>
      exact ⟨[packets], new, hopens, h.standing.exchanged_append hown fun _ _ => rfl, h.toLined⟩

end Batches
end AuthenticatedMpc
