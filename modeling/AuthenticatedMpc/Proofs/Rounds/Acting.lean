import AuthenticatedMpc.Proofs.Rounds.Operations
import AuthenticatedMpc.Proofs.Rounds.Visiting
import AuthenticatedMpc.Proofs.Runs.Acts

/-!
# The acts of a batch

Whatever the transport does, the acts of a batch follow a script: if its gates have messages for the
peers, then every peer is sent one packet of all of them, in the order of the gates, and then one packet
of every peer is taken. What the peers send decides how far the script comes, and nothing else.
-/

namespace AuthenticatedMpc

def utterance (peers : List PartyId) (packet : Packet) : List Act :=
  if packet.messages = [] then [] else speech peers packet

theorem prefix_of_eq_append_cons {α : Type} {l front rest : List α} {a : α} (h : l = front ++ a :: rest) :
    front ++ [a] <+: l :=
  ⟨rest, by rw [h, List.append_assoc, List.singleton_append]⟩

/-! ## Ends of rounds -/

namespace RoundBuffer

variable {ω : Type} {w : ω} {me : Party} {script acts : List Act} {past : List Move} {phase : Phase}
  {n : Nat} {out held : PartyId → List Payload} {fetched : PartyId → Bool}

def shipment (phase : Phase) (out : PartyId → List Payload) (parties : List PartyId) : List Act :=
  (parties.filter fun q => out q ≠ []).map fun q => .send q ⟨phase, out q⟩

section Shipment

variable {parties : List PartyId} {q : PartyId}

theorem shipment_cons_of_eq_nil (h : out q = []) :
    shipment phase out (q :: parties) = shipment phase out parties := by
  simp [shipment, h]

theorem shipment_cons_of_ne_nil (h : out q ≠ []) :
    shipment phase out (q :: parties) = .send q ⟨phase, out q⟩ :: shipment phase out parties := by
  simp [shipment, h]

end Shipment

/-- The acts so far and what is still to be shipped add up to the same. -/
theorem serving_shipment (w : ω) (n : Nat) (hscript : acts <+: script) :
    Serving (Terms.acting script) w phase n out fun rest now =>
      actsOf now ++ shipment phase out rest = acts := by
  have hduring : ∀ {rest now}, actsOf now ++ shipment phase out rest = acts → actsOf now <+: script :=
    fun h => (h ▸ List.prefix_append ..).trans hscript
  refine ⟨fun _ _ => trivial, hduring, ?_, ?_, ?_, ?_⟩
  · intro rest now h
    rwa [actsOf_inner]
  · intro q rest now _ h hqueue
    rwa [shipment_cons_of_eq_nil hqueue] at h
  · intro q rest now cause _ h _
    change actsOf _ <+: script
    rw [actsOf_sent_error]
    exact hduring h
  · intro q rest now _ _ h hqueue
    rwa [shipment_cons_of_ne_nil hqueue, List.append_cons, ← actsOf_sent] at h

theorem meets_ship_acting {messages : List Payload}
    (hscript : actsOf past ++ (if messages = [] then [] else me.peers.map (.send · ⟨phase, messages⟩)) <+:
      script) :
    ship.Meets ((Terms.acting script).contract (fun _ => w) fun _ now rounds =>
      actsOf now =
          actsOf past ++ (if messages = [] then [] else me.peers.map (.send · ⟨phase, messages⟩)) ∧
        rounds = .start phase me.parties) past
      (.of phase me.parties (fun q => if q = me.id then [] else messages) held fetched) := by
  have hshipment : shipment phase (fun q => if q = me.id then [] else messages) (List.range me.parties) =
      if messages = [] then [] else me.peers.map (.send · ⟨phase, messages⟩) := by
    split
    · next hnil => simp [shipment, hnil]
    · next hmessages =>
      have hfilter : ((List.range me.parties).filter fun q =>
          (if q = me.id then [] else messages) ≠ []) = me.peers :=
        List.filter_congr fun q _ => by by_cases hq : q = me.id <;> simp [hq, hmessages]
      rw [shipment, hfilter]
      exact List.map_congr_left fun q hq => by rw [if_neg (Party.mem_peers.mp hq).2]
  refine ((serving_shipment w me.parties hscript).meets_ship (by rw [hshipment])).mono_terms ?_
  rintro _ now _ ⟨hacts, -, rfl⟩
  exact ⟨(List.append_nil _).symm.trans hacts, rfl⟩

theorem meets_ship_silent (hscript : actsOf past <+: script) :
    ship.Meets ((Terms.acting script).contract (fun _ => w) fun _ now rounds =>
      actsOf now = actsOf past ∧ rounds = .start phase me.parties) past
      (.of phase me.parties (fun _ => []) held fetched) := by
  have hship := @meets_ship_acting ω w me script past phase held fetched [] (by simpa using hscript)
  simp only [ite_self] at hship
  refine hship.mono_terms ?_
  rintro _ now _ ⟨hacts, rfl⟩
  exact ⟨by simpa using hacts, rfl⟩

end RoundBuffer

/-! ## Taking the packets of the peers -/

/-- In a round that reads, the packets of these peers have been taken. -/
structure Hearing (me : Party) (phase : Phase) (base : List Act) (heard : List PartyId)
    (now : List Move) (rounds : RoundBuffer) : Prop where
  acts : actsOf now = base ++ heard.map .take
  rounds : ∃ held fetched, rounds = .of phase me.parties (fun _ => []) held fetched ∧
    ∀ q ∈ me.peers, fetched q = decide (q ∈ heard)

/-- A gate has read the messages of the peers in front. It is the first one to do so and has taken their
packets, or all packets were there before. -/
def Attending (me : Party) (phase : Phase) (base : List Act) (front : List PartyId) (now : List Move)
    (rounds : RoundBuffer) : Prop :=
  ∃ heard, (heard = front ∨ heard = me.peers) ∧ Hearing me phase base heard now rounds

section Reading

variable {ω W : Type} {me : Party} {phase : Phase} {base script : List Act}
  {heard front rest : List PartyId} {past now : List Move} {rounds : RoundBuffer} {q : PartyId}
  {desk : Desk W}

theorem Hearing.silent (h : Hearing me phase base heard past rounds) :
    Hearing me phase base heard (past ++ [Move.inner none]) rounds :=
  { h with acts := by rw [actsOf_inner, h.acts] }

theorem Attending.silent (h : Attending me phase base front past rounds) :
    Attending me phase base front (past ++ [Move.inner none]) rounds := by
  obtain ⟨heard, hheard, h⟩ := h
  exact ⟨heard, hheard, h.silent⟩

theorem Attending.acting (h : Attending me phase base front now rounds) (hfront : front <+: me.peers)
    (hscript : base ++ me.peers.map .take <+: script) : actsOf now <+: script := by
  obtain ⟨heard, hheard, h⟩ := h
  have hwithin : heard <+: me.peers := by
    obtain rfl | rfl := hheard
    · exact hfront
    · exact List.prefix_refl _
  rw [h.acts]
  exact ((List.prefix_append_right_inj base).mpr (hwithin.map _)).trans hscript

theorem Attending.hearing (h : Attending me phase base me.peers now rounds) :
    Hearing me phase base me.peers now rounds := by
  obtain ⟨heard, rfl | rfl, h⟩ := h
  · exact h
  · exact h

theorem Hearing.take (h : Hearing me phase base heard past rounds) (packet : Packet) :
    Hearing me phase base (heard ++ [q]) (past ++ [.received q (.ok packet)])
      (rounds.accept q packet.messages) where
  acts := by
    rw [actsOf_received, h.acts, List.map_append, List.append_assoc]
    rfl
  rounds := by
    obtain ⟨held, fetched, rfl, hfetched⟩ := h.rounds
    refine ⟨_, _, RoundBuffer.accept_of .., fun x hx => ?_⟩
    rcases eq_or_ne x q with rfl | hne
    · simp
    · simp [hne, hfetched x hx]

theorem Attending.receiving {α : Type} (w : ω) (hpeers : me.peers = front ++ q :: rest)
    (hscript : base ++ me.peers.map .take <+: script)
    (ready : α → List Move → RoundBuffer → Prop) :
    RoundBuffer.Receiving ((Terms.acting script).contract (fun _ => w) ready) q
      (Attending me phase base front) (Attending me phase base (front ++ [q])) := by
  have hfront : front <+: me.peers := hpeers ▸ List.prefix_append ..
  have hnext : front ++ [q] <+: me.peers := prefix_of_eq_append_cons hpeers
  have hq : q ∈ me.peers := by simp [hpeers]
  have hnotin : q ∉ front := by
    have hnodup : (front ++ q :: rest).Nodup := hpeers ▸ Party.nodup_peers
    exact fun hmem => (List.nodup_append.mp hnodup).2.2 q hmem q (List.mem_cons_self ..) rfl
  have hfetched : ∀ {heard now rounds}, Hearing me phase base heard now rounds →
      rounds.hasFetched q = decide (q ∈ heard) := by
    intro heard now rounds h
    obtain ⟨held, fetched, rfl, hfetched⟩ := h.rounds
    rw [RoundBuffer.hasFetched_of (Party.mem_peers.mp hq).1, hfetched q hq]
  have hunheard : ∀ {now rounds}, Attending me phase base front now rounds →
      rounds.hasFetched q = false → Hearing me phase base front now rounds := by
    rintro now rounds ⟨heard, rfl | rfl, h⟩ hunfetched
    · exact h
    · rw [hfetched h, decide_eq_false_iff_not] at hunfetched
      exact absurd hq hunfetched
  refine ⟨fun _ _ => trivial, fun h => h.acting hfront hscript, fun h => h.acting hnext hscript,
    Attending.silent, Attending.silent, ?_, ?_, ?_⟩
  · rintro now rounds ⟨heard, rfl | rfl, h⟩ hthere
    · rw [hfetched h, decide_eq_true_eq] at hthere
      exact absurd hthere hnotin
    · exact ⟨me.peers, .inr rfl, h⟩
  · intro now rounds reply h hunfetched _
    change actsOf _ <+: script
    cases reply with
    | error cause =>
      rw [actsOf_received_error]
      exact h.acting hfront hscript
    | ok packet =>
      have htaken : Attending me phase base (front ++ [q]) _ _ :=
        ⟨_, .inl rfl, (hunheard h hunfetched).take packet⟩
      exact htaken.acting hnext hscript
  · intro now rounds packet h hunfetched _ _
    exact ⟨_, .inl rfl, (hunheard h hunfetched).take packet⟩

theorem Attending.meets_receive (w : ω) (hpeers : me.peers = front ++ q :: rest)
    (h : Attending me phase base front past rounds) (hscript : base ++ me.peers.map .take <+: script) :
    (RoundBuffer.receive me.id q).Meets ((Terms.acting script).contract (fun _ => w) fun _ =>
      Attending me phase base (front ++ [q])) past rounds := by
  have hnext : front ++ [q] <+: me.peers := prefix_of_eq_append_cons hpeers
  refine (Attending.receiving w hpeers hscript _).meets_receive ?_ ?_ h
  · exact fun _ _ => trivial
  · rintro now rounds payload _ ⟨heard, hheard, h⟩ -
    obtain ⟨held, fetched, rfl, hfetched⟩ := h.rounds
    have hconsume : Attending me phase base (front ++ [q]) now
        ((RoundBuffer.of phase me.parties (fun _ => []) held fetched).consume q) :=
      ⟨heard, hheard, h.acts, _, _, RoundBuffer.consume_of .., hfetched⟩
    exact ⟨hconsume.acting hnext hscript, hconsume⟩

theorem Attending.meets_receive_desk (hpeers : me.peers = front ++ q :: rest)
    (h : Attending me phase base front past desk.rounds)
    (hscript : base ++ me.peers.map .take <+: script) :
    (Desk.receive me q).Meets ((Terms.acting script).contract Desk.board fun _ now desk' =>
      Attending me phase base (front ++ [q]) now desk'.rounds) past desk :=
  .zoom (h.meets_receive desk.board hpeers hscript)

theorem Attending.meets_gather {read : PartyId → Payload → Except Error Element} {total : Element}
    (h : Attending me phase base [] past desk.rounds)
    (hscript : base ++ me.peers.map .take <+: script) :
    (Desk.gather me read me.peers total).Meets
      ((Terms.acting script).contract Desk.board fun _ now desk' =>
        Hearing me phase base me.peers now desk'.rounds) past desk := by
  refine Desk.meets_gather (fun rest _ now desk' => ∃ front, me.peers = front ++ rest ∧
    Attending me phase base front now desk'.rounds) ?_ ?_ ⟨[], rfl, h⟩
  · rintro q rest total now desk ⟨front, hpeers, h⟩
    have hnext : me.peers = front ++ [q] ++ rest := by rw [hpeers, List.append_cons]
    refine (h.meets_receive_desk hpeers hscript).mono_terms fun payload now desk hreceived => ?_
    exact ⟨fun _ _ => ⟨_, hnext, hreceived⟩, fun _ _ =>
      ⟨hreceived.acting (hnext ▸ List.prefix_append ..) hscript, trivial⟩⟩
  · rintro total now desk ⟨front, hpeers, h⟩
    rw [List.append_nil] at hpeers
    rw [← hpeers] at h
    exact ⟨h.acting (List.prefix_refl _) hscript, h.hearing⟩

end Reading

/-! ## Rounds of a batch -/

/-- The gates with messages say them in round zero and attend to all peers in round one; all other gates
have no acts. -/
structure Gate.Voices {G W : Type} [Gate G W] (me : Party) (message? : G → Option Payload) : Prop where
  silent : ∀ {gate : G} {round script past} {desk : Desk W}, message? gate = none →
    actsOf past <+: script →
    (Gate.evaluate me round gate).Meets ((Terms.acting script).contract Desk.board fun result now desk' =>
      message? result.1 = none ∧ actsOf now = actsOf past ∧ desk'.rounds = desk.rounds) past desk
  post : ∀ {gate : G} {payload script past} {desk : Desk W}, message? gate = some payload →
    actsOf past <+: script →
    (Gate.evaluate me 0 gate).Meets ((Terms.acting script).contract Desk.board fun result now desk' =>
      message? result.1 = some payload ∧ result.2 = .moreRounds ∧ actsOf now = actsOf past ∧
        desk'.rounds = desk.rounds.postAll me.id payload) past desk
  read : ∀ {gate : G} {payload phase base script past} {desk : Desk W}, message? gate = some payload →
    Attending me phase base [] past desk.rounds → base ++ me.peers.map .take <+: script →
    (Gate.evaluate me 1 gate).Meets ((Terms.acting script).contract Desk.board fun result now desk' =>
      result.2 = .done ∧ Hearing me phase base me.peers now desk'.rounds) past desk

section Slots

variable {G W : Type} {me : Party} {message? : G → Option Payload} {phase : Phase}
  {base script : List Act} {messages : List Payload} {front back slots : List (Slot G)}
  {past now : List Move} {desk : Desk W}

/-- Round zero: the gates visited so far have posted their messages. -/
structure Voicing (me : Party) (message? : G → Option Payload) (phase : Phase) (base : List Act)
    (messages : List Payload) (front back : List (Slot G)) (now : List Move) (desk : Desk W) :
    Prop where
  acts : actsOf now = base
  waiting : ∀ slot ∈ front ++ back, message? slot.gate ≠ none → slot.done = false
  messages_eq : (front ++ back).filterMap (message? ·.gate) = messages
  rounds_eq : desk.rounds = .of phase me.parties
    (fun q => if q = me.id then [] else front.filterMap (message? ·.gate)) (fun _ => []) fun _ => false

/-- Round one: the packets of the peers are there once the first gate with a message has been visited. -/
structure Listening (me : Party) (message? : G → Option Payload) (phase : Phase) (base : List Act)
    (front back : List (Slot G)) (now : List Move) (desk : Desk W) : Prop where
  settled : ∀ slot ∈ front, slot.done = false → message? slot.gate = none
  waiting : ∀ slot ∈ back, message? slot.gate ≠ none → slot.done = false
  hearing : Hearing me phase base me.peers now desk.rounds ∨
    Hearing me phase base [] now desk.rounds ∧ ∃ slot ∈ back, message? slot.gate ≠ none

/-- After round zero: the messages are sent, and there are gates that wait for those of the peers. -/
structure Voiced (me : Party) (message? : G → Option Payload) (phase : Phase) (base : List Act)
    (slots : List (Slot G)) (now : List Move) (desk : Desk W) : Prop
    extends Listening me message? phase base [] slots now desk where
  waits : ∃ slot ∈ slots, message? slot.gate ≠ none

/-- A round without acts. -/
structure Idling (me : Party) (message? : G → Option Payload) (phase : Phase) (base : List Act)
    (slots : List (Slot G)) (now : List Move) (desk : Desk W) : Prop where
  acts : actsOf now = base
  settled : ∀ slot ∈ slots, slot.done = false → message? slot.gate = none
  rounds_eq : desk.rounds = .start phase me.parties

theorem Voicing.silent (h : Voicing me message? phase base messages front back past desk) :
    Voicing me message? phase base messages front back (past ++ [Move.inner none]) desk :=
  { h with acts := by rw [actsOf_inner, h.acts] }

theorem Idling.silent (h : Idling me message? phase base slots past desk) :
    Idling me message? phase base slots (past ++ [Move.inner none]) desk :=
  { h with acts := by rw [actsOf_inner, h.acts] }

theorem Listening.attending (h : Listening me message? phase base front back now desk) :
    Attending me phase base [] now desk.rounds := by
  obtain hheard | ⟨hnone, -⟩ := h.hearing
  · exact ⟨_, .inr rfl, hheard⟩
  · exact ⟨_, .inl rfl, hnone⟩

theorem Voicing.snoc {slot slot' : Slot G} {desk' : Desk W}
    (h : Voicing me message? phase base messages front (slot :: back) past desk)
    (hsame : message? slot.gate = message? slot'.gate)
    (hwaiting : message? slot'.gate ≠ none → slot'.done = false) (hacts : actsOf now = base)
    (hrounds : desk'.rounds = .of phase me.parties
      (fun q => if q = me.id then [] else (front ++ [slot']).filterMap (message? ·.gate))
      (fun _ => []) fun _ => false) :
    Voicing me message? phase base messages (front ++ [slot']) back now desk' where
  acts := hacts
  waiting := Slot.forall_mem_replace h.waiting hwaiting
  messages_eq := by
    rw [← h.messages_eq]
    simp [List.filterMap_append, List.filterMap_cons, hsame]
  rounds_eq := hrounds

theorem Hearing.congr {heard : List PartyId} {rounds rounds' : RoundBuffer}
    (h : Hearing me phase base heard past rounds) (hacts : actsOf now = actsOf past)
    (hrounds : rounds' = rounds) : Hearing me phase base heard now rounds' := by
  subst hrounds
  exact { h with acts := hacts.trans h.acts }

theorem Listening.inner (h : Listening me message? phase base front back past desk)
    (event : Option Event) :
    Listening me message? phase base front back (past ++ [Move.inner event]) desk :=
  { h with
    hearing := h.hearing.imp (fun hnow => hnow.congr (actsOf_inner event) rfl)
      (And.imp_left fun hnow => hnow.congr (actsOf_inner event) rfl) }

theorem Listening.snoc {slot slot' : Slot G} {desk' : Desk W}
    (h : Listening me message? phase base front (slot :: back) past desk)
    (hsettled : slot'.done = false → message? slot'.gate = none)
    (hhearing : Hearing me phase base me.peers now desk'.rounds ∨
      Hearing me phase base [] now desk'.rounds ∧ ∃ slot ∈ back, message? slot.gate ≠ none) :
    Listening me message? phase base (front ++ [slot']) back now desk' where
  settled := List.forall_mem_append.mpr ⟨h.settled, List.forall_mem_singleton.mpr hsettled⟩
  waiting other hother := h.waiting other (List.mem_cons_of_mem _ hother)
  hearing := hhearing

/-- If the slot in turn has no message then there is one behind it, unless the packets are there. -/
theorem Listening.hearing_of_eq_none {slot : Slot G}
    (h : Listening me message? phase base front (slot :: back) now desk)
    (hnone : message? slot.gate = none) :
    Hearing me phase base me.peers now desk.rounds ∨
      Hearing me phase base [] now desk.rounds ∧ ∃ slot ∈ back, message? slot.gate ≠ none := by
  refine h.hearing.imp_right fun ⟨hnow, other, hother, hmessage⟩ => ⟨hnow, other, ?_, hmessage⟩
  obtain rfl | hback := List.mem_cons.mp hother
  · exact absurd hnone hmessage
  · exact hback

/-! ### Ends of the rounds -/

theorem Voicing.meets_ship (hmessages : messages ≠ [])
    (hscript : base ++ me.peers.map (.send · ⟨phase, messages⟩) <+: script)
    (h : Voicing me message? phase base messages slots [] past desk) :
    RoundBuffer.ship.Meets ((Terms.acting script).contract (fun _ => desk.board) fun _ now rounds =>
      Voiced me message? phase (base ++ me.peers.map (.send · ⟨phase, messages⟩)) slots now
        { desk with rounds }) past desk.rounds := by
  have hslots : slots.filterMap (message? ·.gate) = messages := by
    rw [← h.messages_eq, List.append_nil]
  rw [h.rounds_eq, hslots]
  refine (RoundBuffer.meets_ship_acting (by rwa [if_neg hmessages, h.acts])).mono_terms ?_
  rintro _ now _ ⟨hacts, rfl⟩
  rw [if_neg hmessages, h.acts] at hacts
  have hhearing : Hearing me phase (base ++ me.peers.map (.send · ⟨phase, messages⟩)) [] now
      (.start phase me.parties) :=
    ⟨by rw [hacts, List.map_nil, List.append_nil], _, _, RoundBuffer.start_eq_of, by simp⟩
  obtain ⟨message, hmessage⟩ := List.exists_mem_of_ne_nil _ hmessages
  rw [← hslots, List.mem_filterMap] at hmessage
  obtain ⟨slot, hslot, hsome⟩ := hmessage
  have hwaits : ∃ slot ∈ slots, message? slot.gate ≠ none := ⟨slot, hslot, by simp [hsome]⟩
  exact ⟨⟨nofun, fun slot hslot => h.waiting slot (List.mem_append_left _ hslot),
    .inr ⟨hhearing, hwaits⟩⟩, hwaits⟩

theorem Listening.meets_ship (hscript : base ++ me.peers.map .take <+: script)
    (h : Listening me message? phase base slots [] past desk) :
    RoundBuffer.ship.Meets ((Terms.acting script).contract (fun _ => desk.board) fun _ now rounds =>
      Idling me message? phase (base ++ me.peers.map .take) slots now { desk with rounds }) past
      desk.rounds := by
  obtain hhearing | ⟨-, slot, hslot, -⟩ := h.hearing
  · obtain ⟨held, fetched, hrounds, -⟩ := hhearing.rounds
    rw [hrounds]
    refine (RoundBuffer.meets_ship_silent (by rwa [hhearing.acts])).mono_terms ?_
    rintro _ now _ ⟨hacts, rfl⟩
    exact ⟨hacts.trans hhearing.acts, h.settled, rfl⟩
  · cases hslot

theorem Idling.meets_ship (hscript : base <+: script)
    (h : Idling me message? phase base slots past desk) :
    RoundBuffer.ship.Meets ((Terms.acting script).contract (fun _ => desk.board) fun _ now rounds =>
      Idling me message? phase base slots now { desk with rounds }) past desk.rounds := by
  rw [h.rounds_eq, RoundBuffer.start_eq_of]
  refine (RoundBuffer.meets_ship_silent (by rwa [h.acts])).mono_terms ?_
  rintro _ now _ ⟨hacts, rfl⟩
  exact ⟨hacts.trans h.acts, h.settled, rfl⟩

theorem Bench.not_isDone {slot : Slot G} (hslot : slot ∈ slots) (hwaiting : slot.done = false) :
    ¬(⟨slots, desk⟩ : Bench G W).isDone = true := by
  intro hdone
  exact Bool.noConfusion (hwaiting.symm.trans (List.all_eq_true.mp hdone slot hslot))

end Slots

section Batches

variable {G W : Type} [Gate G W] {me : Party} {message? : G → Option Payload} {phase : Phase}
  {base script : List Act} {messages : List Payload} {front back slots : List (Slot G)}
  {past now : List Move} {desk : Desk W} {round : Nat}

theorem visiting_voicing (hvoices : Gate.Voices (W := W) me message?) (hscript : base <+: script) :
    Visiting (Terms.acting script) Bench.board me 0 (Voicing (W := W) me message? phase base messages) where
  during h := by
    change actsOf _ <+: script
    rwa [h.acts]
  silent h := h.silent
  skip {front gate back now desk} h := by
    have hnone : message? gate = none := by
      by_contra hsome
      exact Bool.noConfusion (h.waiting ⟨gate, true⟩ (by simp) hsome)
    refine h.snoc rfl (fun hsome => absurd hnone hsome) h.acts ?_
    rw [h.rounds_eq]
    simp [hnone]
  evaluate {front gate back now desk} h := by
    have hnow : actsOf (now ++
        [Move.inner (some (.evaluating desk.rounds.phase front.length 0))]) <+: script := by
      rwa [actsOf_inner, h.acts]
    cases hmessage : message? gate with
    | none =>
      refine (hvoices.silent hmessage hnow).mono_terms ?_
      rintro ⟨gate', status⟩ now' desk' ⟨hnone, hacts, hrounds⟩
      refine h.snoc (hmessage.trans hnone.symm) (fun hsome => absurd hnone hsome) ?_ ?_
      · rw [hacts, actsOf_inner, h.acts]
      · rw [hrounds, h.rounds_eq]
        simp [hnone]
    | some payload =>
      refine (hvoices.post hmessage hnow).mono_terms ?_
      rintro ⟨gate', status⟩ now' desk' ⟨hsome, hstatus, hacts, hrounds⟩
      cases hstatus
      refine h.snoc (hmessage.trans hsome.symm) (fun _ => rfl) ?_ ?_
      · rw [hacts, actsOf_inner, h.acts]
      · rw [hrounds, h.rounds_eq, RoundBuffer.postAll_of]
        refine RoundBuffer.of_congr (fun q _ => ?_) (fun _ _ => rfl) fun _ _ => rfl
        by_cases hq : q = me.id <;> simp [hq, hsome]

theorem visiting_listening (hvoices : Gate.Voices (W := W) me message?)
    (hscript : base ++ me.peers.map .take <+: script) :
    Visiting (Terms.acting script) Bench.board me 1 (Listening (W := W) me message? phase base) where
  during h := h.attending.acting List.nil_prefix hscript
  silent h := h.inner none
  skip {front gate back now desk} h := by
    have hnone : message? gate = none := by
      by_contra hsome
      exact Bool.noConfusion (h.waiting ⟨gate, true⟩ (List.mem_cons_self ..) hsome)
    exact h.snoc (fun _ => hnone) (h.hearing_of_eq_none hnone)
  evaluate {front gate back now desk} h := by
    have hvisit := h.inner (some (.evaluating desk.rounds.phase front.length 1))
    have hattending := hvisit.attending
    cases hmessage : message? gate with
    | none =>
      refine (hvoices.silent hmessage (hattending.acting List.nil_prefix hscript)).mono_terms ?_
      rintro ⟨gate', status⟩ now' desk' ⟨hnone, hacts, hrounds⟩
      refine h.snoc (fun _ => hnone) ?_
      refine (hvisit.hearing_of_eq_none hmessage).imp ?_ (And.imp_left ?_) <;> intro hhearing
      · exact hhearing.congr hacts hrounds
      · exact hhearing.congr hacts hrounds
    | some payload =>
      refine (hvoices.read hmessage hattending hscript).mono_terms ?_
      rintro ⟨gate', status⟩ now' desk' ⟨hstatus, hhearing⟩
      cases hstatus
      exact h.snoc nofun (.inl hhearing)

theorem visiting_idling (hvoices : Gate.Voices (W := W) me message?) (hscript : base <+: script) :
    Visiting (Terms.acting script) Bench.board me round fun front back now desk =>
      Idling (W := W) me message? phase base (front ++ back) now desk where
  during h := by
    change actsOf _ <+: script
    rwa [h.acts]
  silent h := h.silent
  skip {front gate back now desk} h := by rwa [List.append_assoc]
  evaluate {front gate back now desk} h := by
    have hnone := h.settled ⟨gate, false⟩ (by simp) rfl
    have hacts : actsOf (now ++
        [Move.inner (some (.evaluating desk.rounds.phase front.length round))]) = base := by
      rw [actsOf_inner, h.acts]
    refine (hvoices.silent hnone (by rwa [hacts])).mono_terms ?_
    rintro ⟨gate', status⟩ now' desk' ⟨hnone', hsame, hrounds⟩
    exact ⟨hsame.trans hacts, Slot.forall_mem_replace h.settled fun _ => hnone', hrounds.trans h.rounds_eq⟩

/-! ## Whole batches -/

theorem Idling.meets_runRound (hvoices : Gate.Voices (W := W) me message?) (hscript : base <+: script)
    (h : Idling me message? phase base slots past desk) :
    (Bench.runRound me round).Meets ((Terms.acting script).contract Bench.board fun _ now bench =>
      Idling me message? phase base bench.slots now bench.desk) past ⟨slots, desk⟩ := by
  refine (visiting_idling hvoices hscript).meets_runRound (fun slots now desk h => ?_) h
  rw [List.append_nil] at h
  exact h.meets_ship hscript

/-- What holds before a round of a batch that has messages. -/
def SpeaksBefore {G W : Type} (me : Party) (message? : G → Option Payload) (phase : Phase)
    (base : List Act) (messages : List Payload) (round : Nat) (now : List Move) (bench : Bench G W) :
    Prop :=
  match round with
  | 0 => Voicing me message? phase base messages [] bench.slots now bench.desk
  | 1 => Voiced me message? phase (base ++ me.peers.map (.send · ⟨phase, messages⟩)) bench.slots now
      bench.desk
  | _ + 2 => Idling me message? phase (base ++ speech me.peers ⟨phase, messages⟩) bench.slots now
      bench.desk

namespace SpeaksBefore

variable {bench : Bench G W}

omit [Gate G W] in
theorem acting (h : SpeaksBefore me message? phase base messages round now bench)
    (hscript : base ++ speech me.peers ⟨phase, messages⟩ <+: script) : actsOf now <+: script := by
  have hbase := (List.prefix_append ..).trans hscript
  match round with
  | 0 => rwa [Voicing.acts h]
  | 1 =>
    rw [speech, ← List.append_assoc] at hscript
    exact (Voiced.toListening h).attending.acting List.nil_prefix hscript
  | _ + 2 => rwa [Idling.acts h]

omit [Gate G W] in
theorem silent (h : SpeaksBefore me message? phase base messages round now bench) :
    SpeaksBefore me message? phase base messages round (now ++ [Move.inner none]) bench := by
  match round with
  | 0 => exact Voicing.silent h
  | 1 => exact ⟨(Voiced.toListening h).inner none, Voiced.waits h⟩
  | _ + 2 => exact Idling.silent h

omit [Gate G W] in
theorem two_le_of_isDone (hmessages : messages ≠ [])
    (h : SpeaksBefore me message? phase base messages round now bench) (hdone : bench.isDone = true) :
    2 ≤ round := by
  match round with
  | 0 =>
    obtain ⟨message, hmessage⟩ := List.exists_mem_of_ne_nil _ hmessages
    rw [← Voicing.messages_eq h, List.mem_filterMap] at hmessage
    obtain ⟨slot, hslot, hsome⟩ := hmessage
    exact absurd hdone (Bench.not_isDone hslot (Voicing.waiting h slot hslot (by simp [hsome])))
  | 1 =>
    obtain ⟨slot, hslot, hwaits⟩ := Voiced.waits h
    exact absurd hdone
      (Bench.not_isDone hslot ((Voiced.toListening h).waiting slot hslot hwaits))
  | _ + 2 => exact Nat.le_add_left ..

theorem meets_runRound (hvoices : Gate.Voices (W := W) me message?)
    (hmessages : messages ≠ []) (hscript : base ++ speech me.peers ⟨phase, messages⟩ <+: script)
    (h : SpeaksBefore me message? phase base messages round past bench) :
    (Bench.runRound me round).Meets ((Terms.acting script).contract Bench.board fun _ =>
      SpeaksBefore me message? phase base messages (round + 1)) past bench := by
  have hbase := (List.prefix_append ..).trans hscript
  rw [speech, ← List.append_assoc] at hscript
  have hsent := (List.prefix_append ..).trans hscript
  obtain _ | _ | round := round
  · exact (visiting_voicing hvoices hbase).meets_runRound
      (fun slots now desk h => h.meets_ship hmessages hsent) h
  · refine (visiting_listening hvoices hscript).meets_runRound (fun slots now desk h => ?_)
      (Voiced.toListening h)
    refine (h.meets_ship hscript).mono_terms fun _ now rounds hidle => ?_
    rwa [List.append_assoc] at hidle
  · rw [List.append_assoc] at hscript
    exact Idling.meets_runRound hvoices hscript h

end SpeaksBefore

/-- Whatever the transport does, the acts of a batch are those of its messages as far as it comes, and all
of them when it ends. -/
theorem Bench.meets_process_acting {gates : List G} (hvoices : Gate.Voices (W := W) me message?)
    (hrounds : desk.rounds = .start phase me.parties)
    (hscript : actsOf past ++ utterance me.peers ⟨phase, gates.filterMap message?⟩ <+: script) :
    (process me).Meets ((Terms.acting script).contract board fun _ now _ =>
      actsOf now = actsOf past ++ utterance me.peers ⟨phase, gates.filterMap message?⟩) past
      ⟨gates.map fun gate => ⟨gate, false⟩, desk⟩ := by
  rw [process]
  by_cases hmessages : gates.filterMap message? = []
  · rw [utterance, if_pos hmessages, List.append_nil] at hscript ⊢
    have hidle : Idling me message? phase (actsOf past) (gates.map fun gate => ⟨gate, false⟩) past desk := by
      refine ⟨rfl, ?_, hrounds⟩
      intro slot hslot _
      obtain ⟨gate, hgate, rfl⟩ := List.mem_map.mp hslot
      exact List.filterMap_eq_nil_iff.mp hmessages gate hgate
    have hacting : ∀ {slots now desk}, Idling (G := G) (W := W) me message? phase (actsOf past) slots now
        desk → actsOf now <+: script := fun h => by rwa [h.acts]
    exact (meets_runRounds (fun _ now bench =>
        Idling me message? phase (actsOf past) bench.slots now bench.desk)
      hacting Idling.silent (fun h _ => h.meets_runRound hvoices hscript)
      hidle).mono_terms fun _ _ _ h => h.1.acts
  · rw [utterance, if_neg hmessages] at hscript ⊢
    have hstart : SpeaksBefore me message? phase (actsOf past) (gates.filterMap message?) 0 past
        ⟨gates.map fun gate => ⟨gate, false⟩, desk⟩ := by
      refine ⟨rfl, ?_, ?_, ?_⟩
      · intro slot hslot _
        obtain ⟨gate, -, rfl⟩ := List.mem_map.mp hslot
        rfl
      · rw [List.nil_append, List.filterMap_map]
        rfl
      · rw [hrounds, RoundBuffer.start_eq_of]
        exact RoundBuffer.of_congr (fun _ _ => (ite_self _).symm) (fun _ _ => rfl) fun _ _ => rfl
    refine (meets_runRounds (SpeaksBefore me message? phase (actsOf past) (gates.filterMap message?))
      (fun h => h.acting hscript) SpeaksBefore.silent
      (fun h _ => h.meets_runRound hvoices hmessages hscript) hstart).mono_terms ?_
    rintro rounds now bench ⟨h, hdone⟩
    obtain ⟨later, rfl⟩ := Nat.exists_eq_add_of_le' (h.two_le_of_isDone hmessages hdone)
    exact Idling.acts h

end Batches
end AuthenticatedMpc
