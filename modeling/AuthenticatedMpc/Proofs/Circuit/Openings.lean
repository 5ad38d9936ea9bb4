import AuthenticatedMpc.Circuit.CircuitGate
import AuthenticatedMpc.Proofs.Rounds.Exchanging
import AuthenticatedMpc.Proofs.Rounds.Visiting

/-!
# What the gates of a batch open

An opening posts the share of the party in one round. In the next it takes one message of each peer and
records what the shares add up to. All other gates only see the board.
-/

namespace AuthenticatedMpc

/-! ## What gates open -/

def Opening.message (opening : Opening) : Payload := Modulus.encode opening.share.value

namespace CircuitGate

/-- What the gate opens, be it open or not. -/
def opening? : CircuitGate → Option Opening
  | opening gate | output gate => some { gate with opened := none }
  | compute _ => none

def record? : CircuitGate → Option Record
  | opening gate | output gate => gate.opened.map fun value => ⟨value, gate.share.mac⟩
  | compute _ => none

def openings (gates : List CircuitGate) : List Opening := gates.filterMap opening?

def records (gates : List CircuitGate) : List Record := gates.filterMap record?

/-- Whatever the gate publishes keeps the board as the predicate says, and on such boards it fails as
it may. -/
def Sound (P : Board → Prop) (fails : Error → Prop) : CircuitGate → Prop
  | opening gate | output gate => ∀ board, P board → P (gate.publish board)
  | compute gate => (∀ board ∈ gate.seen, P board) ∧
      ∀ seen, (∀ board ∈ seen, P board) → ∀ error, gate.act seen = .error error → fails error

theorem Sound.release {P : Board → Prop} {fails : Error → Prop} {gate : CircuitGate} {board : Board}
    (h : gate.Sound P fails) (hboard : P board) : P (gate.release board) := by
  cases gate with
  | output => exact h board hboard
  | opening | compute => exact hboard

theorem openings_append (front back : List CircuitGate) :
    openings (front ++ back) = openings front ++ openings back := List.filterMap_append

theorem records_append (front back : List CircuitGate) :
    records (front ++ back) = records front ++ records back := List.filterMap_append

end CircuitGate

/-- The value is the sum of the shares in the messages of all parties at a place. -/
def Reads (me : Party) (own : Packet) (heard : PartyId → Option Packet) (place : Nat)
    (value : Element) : Prop :=
  ∃ share : PartyId → Element, own.messages[place]? = some (Modulus.encode (share me.id)) ∧
    (∀ q ∈ me.peers, ∃ packet payload, heard q = some packet ∧
      packet.messages[place]? = some payload ∧ me.modulus.decode payload = .ok (share q)) ∧
    value = (me.peers.map share).foldl me.modulus.add (share me.id)

theorem Reads.hear {me : Party} {own : Packet} {heard heard' : PartyId → Option Packet} {place : Nat}
    {value : Element} (h : Reads me own heard place value) (hhears : Hears heard heard') :
    Reads me own heard' place value := by
  obtain ⟨share, hown, hpeers, hvalue⟩ := h
  refine ⟨share, hown, fun q hq => ?_, hvalue⟩
  obtain ⟨packet, payload, hheard, hpayload⟩ := hpeers q hq
  exact ⟨packet, payload, hhears q packet hheard, hpayload⟩

theorem Reads.forall_snoc {me : Party} {own : Packet} {heard : PartyId → Option Packet}
    {records : List Record} {record : Record}
    (h : ∀ place record, records[place]? = some record → Reads me own heard place record.value)
    (hrecord : Reads me own heard records.length record.value) :
    ∀ place record', (records ++ [record])[place]? = some record' →
      Reads me own heard place record'.value := by
  intro place record' hplace
  rcases Nat.lt_trichotomy place records.length with hlt | rfl | hgt
  · rw [List.getElem?_append_left hlt] at hplace
    exact h place record' hplace
  · rw [List.getElem?_concat_length] at hplace
    cases hplace
    exact hrecord
  · have hlength : (records ++ [record]).length ≤ place := by
      rw [List.length_append, List.length_singleton]
      exact hgt
    rw [List.getElem?_eq_none hlength] at hplace
    cases hplace

/-- The packets of an exchange in which all peers were heard. -/
theorem Party.exists_packets (me : Party) (own : Packet) {heard : PartyId → Option Packet}
    (h : ∀ q ∈ me.peers, ∃ packet, heard q = some packet) :
    ∃ packets : PartyId → Packet, packets me.id = own ∧ ∀ q ∈ me.peers, heard q = some (packets q) := by
  refine ⟨fun q => if q = me.id then own else (heard q).getD own, if_pos rfl, fun q hq => ?_⟩
  obtain ⟨packet, hpacket⟩ := h q hq
  dsimp only
  rw [if_neg (Party.mem_peers.mp hq).2, hpacket, Option.getD_some]

/-- What a batch that ends has exchanged and recorded. -/
inductive OpensBatch (me : Party) (phase : Phase) (Fine : PartyId → Packet → Prop)
    (openings : List Opening) : List (PartyId → Packet) → List Record → Prop
  /-- Nothing is opened. -/
  | nothing (h : openings = []) : OpensBatch me phase Fine openings [] []
  /-- All parties have sent one share for each opening. -/
  | exchange (packets : PartyId → Packet) (records : List Record)
      (own : packets me.id = ⟨phase, openings.map Opening.message⟩)
      (peers : ∀ q ∈ me.peers, (packets q).phase = phase ∧
        (packets q).messages.length = records.length ∧ Fine q (packets q))
      (macs : records.map Record.mac = openings.map (·.share.mac))
      (reads : ∀ place record, records[place]? = some record →
        Reads me (packets me.id) (fun q => some (packets q)) place record.value) :
      OpensBatch me phase Fine openings [packets] records

theorem OpensBatch.packets {me : Party} {phase : Phase} {Fine : PartyId → Packet → Prop}
    {openings : List Opening} {packets : PartyId → Packet} {records : List Record}
    (h : OpensBatch me phase Fine openings [packets] records) {q : PartyId} (hq : q < me.parties) :
    (packets q).phase = phase ∧ (packets q).messages.length = records.length := by
  cases h with
  | exchange _ _ hown hpeers hmacs =>
    by_cases hne : q = me.id
    · have hlength := congrArg List.length hmacs
      rw [List.length_map, List.length_map] at hlength
      rw [hne, hown, List.length_map, hlength]
      exact ⟨rfl, rfl⟩
    · obtain ⟨hphase, hlength, -⟩ := hpeers q (Party.mem_peers.mpr ⟨hq, hne⟩)
      exact ⟨hphase, hlength⟩

/-- Terms on which a party can evaluate a batch with these openings. -/
structure Terms.SuitsBatch (terms : Terms Board) (me : Party) (exchanges : List (PartyId → Packet))
    (phase : Phase) (openings : List Opening) (Fine : PartyId → Packet → Prop) (P : Board → Prop) :
    Prop extends terms.Suits me exchanges ⟨phase, openings.map Opening.message⟩ Fine P where
  encoding : ∀ q packet payload error, packet.phase = phase → Fine q packet →
    payload ∈ packet.messages → me.modulus.decode payload = .error error → terms.fails (.encoding error)
  publish : ∀ place opening value heard, openings[place]? = some opening →
    Reads me ⟨phase, openings.map Opening.message⟩ heard place value →
    (∀ q packet, heard q = some packet → packet.phase = phase ∧ Fine q packet) →
    ∀ board, P board → P (board.publish opening.handle value)

/-! ## Slots -/

/-- The opening in the slot has not begun, if there is one. -/
def Slot.Waiting (slot : Slot CircuitGate) : Prop :=
  ∀ opening, slot.gate.opening? = some opening → slot.done = false

/-- The opening in the slot has recorded its value, if there is one. -/
def Slot.Settled (slot : Slot CircuitGate) : Prop :=
  ∀ opening, slot.gate.opening? = some opening →
    slot.done = true ∧ ∃ value, slot.gate.record? = some ⟨value, opening.share.mac⟩

theorem Slot.Waiting.opening?_eq_none {slot : Slot CircuitGate} (h : slot.Waiting)
    (hdone : slot.done = true) : slot.gate.opening? = none := by
  cases hopening : slot.gate.opening? with
  | none => rfl
  | some opening => cases hdone.symm.trans (h opening hopening)

theorem Slot.settled_of_opening?_eq_none {slot : Slot CircuitGate} (h : slot.gate.opening? = none) :
    slot.Settled := by
  intro opening hopening
  rw [h] at hopening
  cases hopening

theorem Slot.settled_of_record?_eq_some {slot : Slot CircuitGate} {opening : Opening} {value : Element}
    (hopening : slot.gate.opening? = some opening) (hdone : slot.done = true)
    (hrecord : slot.gate.record? = some ⟨value, opening.share.mac⟩) : slot.Settled := by
  intro other hother
  rw [hopening] at hother
  cases hother
  exact ⟨hdone, value, hrecord⟩

namespace CircuitGate

variable {slots front : List (Slot CircuitGate)} {slot : Slot CircuitGate}

theorem openings_snoc {opening : Opening} (h : slot.gate.opening? = some opening) :
    openings ((front ++ [slot]).map Slot.gate) = openings (front.map Slot.gate) ++ [opening] := by
  rw [List.map_append, openings_append]
  exact congrArg _ (List.filterMap_cons_some h)

theorem openings_snoc_of_eq_none (h : slot.gate.opening? = none) :
    openings ((front ++ [slot]).map Slot.gate) = openings (front.map Slot.gate) := by
  rw [List.map_append, openings_append]
  exact (congrArg _ (List.filterMap_cons_none h)).trans (List.append_nil _)

theorem records_snoc {record : Record} (h : slot.gate.record? = some record) :
    records ((front ++ [slot]).map Slot.gate) = records (front.map Slot.gate) ++ [record] := by
  rw [List.map_append, records_append]
  exact congrArg _ (List.filterMap_cons_some h)

theorem records_snoc_of_eq_none (h : slot.gate.record? = none) :
    records ((front ++ [slot]).map Slot.gate) = records (front.map Slot.gate) := by
  rw [List.map_append, records_append]
  exact (congrArg _ (List.filterMap_cons_none h)).trans (List.append_nil _)

theorem mem_openings {opening : Opening} :
    opening ∈ openings (slots.map Slot.gate) ↔ ∃ slot ∈ slots, slot.gate.opening? = some opening := by
  simp [openings]

theorem map_mac_records (h : ∀ slot ∈ slots, slot.Settled) :
    (records (slots.map Slot.gate)).map Record.mac =
      (openings (slots.map Slot.gate)).map (·.share.mac) := by
  rw [records, openings, List.filterMap_map, List.filterMap_map, List.map_filterMap,
    List.map_filterMap]
  refine List.filterMap_congr fun slot hslot => ?_
  dsimp only [Function.comp_apply]
  cases hopening : slot.gate.opening? with
  | none =>
    obtain ⟨gate, done⟩ := slot
    cases gate with
    | opening | output => cases hopening
    | compute => rfl
  | some opening =>
    obtain ⟨-, value, hvalue⟩ := h slot hslot opening hopening
    rw [hvalue]
    rfl

end CircuitGate

/-- The slots of a batch with these openings, all of them sound, on a board as the predicate says. The
chronicle has these entries and the ledger these records. -/
structure Lined (P : Board → Prop) (fails : Error → Prop) (openings : List Opening)
    (entries : List Entry) (records : List Record) (slots : List (Slot CircuitGate)) (now : List Move)
    (desk : Desk Board) : Prop where
  openings_eq : CircuitGate.openings (slots.map Slot.gate) = openings
  sound : ∀ slot ∈ slots, slot.gate.Sound P fails
  board : P desk.board
  entries_eq : (Chronicle.ofMoves now).entries = entries
  records_eq : desk.ledger.records = records

namespace Lined

variable {P : Board → Prop} {fails : Error → Prop} {openings : List Opening} {entries : List Entry}
  {records : List Record} {slots front back : List (Slot CircuitGate)} {slot slot' : Slot CircuitGate}
  {past : List Move} {desk : Desk Board}

theorem inner (h : Lined P fails openings entries records slots past desk) {event : Option Event}
    (hevent : ∀ chronicle : Chronicle, (chronicle.note (.inner event)).entries = chronicle.entries) :
    Lined P fails openings entries records slots (past ++ [Move.inner event]) desk :=
  { h with entries_eq := by rw [Chronicle.ofMoves_append, hevent, h.entries_eq] }

theorem start {gates : List CircuitGate} (hsound : ∀ gate ∈ gates, gate.Sound P fails)
    (hboard : P desk.board) :
    Lined P fails (CircuitGate.openings gates) (Chronicle.ofMoves past).entries desk.ledger.records
      (gates.map fun gate => ⟨gate, false⟩) past desk where
  openings_eq := by rw [List.map_map]; exact congrArg _ (List.map_id gates)
  sound slot hslot := by
    obtain ⟨gate, hgate, rfl⟩ := List.mem_map.mp hslot
    exact hsound gate hgate
  board := hboard
  entries_eq := rfl
  records_eq := rfl

theorem replace (h : Lined P fails openings entries records (front ++ slot :: back) past desk)
    (hopening : slot'.gate.opening? = slot.gate.opening?) (hsound : slot'.gate.Sound P fails) :
    Lined P fails openings entries records (front ++ [slot'] ++ back) past desk where
  openings_eq := by
    rw [← h.openings_eq]
    simp only [List.map_append, List.map_cons, CircuitGate.openings,
      List.filterMap_append, List.append_assoc, List.singleton_append, List.filterMap_cons, hopening]
  sound := Slot.forall_mem_replace h.sound hsound
  board := h.board
  entries_eq := h.entries_eq
  records_eq := h.records_eq

theorem skip (h : Lined P fails openings entries records (front ++ slot :: back) past desk) :
    Lined P fails openings entries records (front ++ [slot] ++ back) past desk :=
  h.replace rfl (h.sound slot (List.mem_append_right _ (List.mem_cons_self ..)))

theorem compute {gate : LocalGate} {done : Bool}
    (h : Lined P fails openings entries records (front ++ ⟨.compute gate, false⟩ :: back) past desk) :
    Lined P fails openings entries records
      (front ++ [⟨.compute { gate with seen := desk.board :: gate.seen }, done⟩] ++ back) past desk := by
  obtain ⟨hseen, hact⟩ := h.sound _ (List.mem_append_right _ (List.mem_cons_self ..))
  exact h.replace rfl ⟨List.forall_mem_cons.mpr ⟨h.board, hseen⟩, hact⟩

/-- On its board, a gate that only computes fails as it may. -/
theorem fails_of_act {gate : LocalGate} {error : Error}
    (h : Lined P fails openings entries records (front ++ ⟨.compute gate, false⟩ :: back) past desk)
    (hact : gate.act (desk.board :: gate.seen) = .error error) : fails error := by
  obtain ⟨hseen, hfails⟩ := h.sound _ (List.mem_append_right _ (List.mem_cons_self ..))
  exact hfails _ (List.forall_mem_cons.mpr ⟨h.board, hseen⟩) error hact

end Lined

/-! ## One round of a gate -/

section Gates

variable {terms : Terms Board} {me : Party} {round : Nat} {past : List Move} {desk : Desk Board}

theorem CircuitGate.meets_compute {ω : Type} {terms : Terms ω} {view : Desk Board → ω}
    {gate : LocalGate} (hnow : terms.during past (view desk))
    (hnext : terms.during (past ++ [Move.inner none]) (view desk))
    (hfails : ∀ error, gate.act (desk.board :: gate.seen) = .error error → terms.fails error) :
    (Gate.evaluate me round (CircuitGate.compute gate)).Meets
      (terms.contract view fun result now desk' => now = past ++ [Move.inner none] ∧ desk' = desk ∧
        result.1 = .compute { gate with seen := desk.board :: gate.seen }) past desk := by
  refine ⟨hnow, ?_⟩
  change Program.Meets _ ((Program.ofExcept (gate.act (desk.board :: gate.seen)) >>= _) >>= _) _ _
  cases hact : gate.act (desk.board :: gate.seen) with
  | ok status => exact ⟨hnext, rfl, rfl, rfl⟩
  | error error => exact ⟨hnext, hfails error hact⟩

/-- In round zero an opening posts the share of the party. -/
theorem Opening.meets_post {ω : Type} {terms : Terms ω} {view : Desk Board → ω} {opening : Opening}
    (hnow : terms.during past (view desk))
    (hnext : terms.during (past ++ [Move.inner none])
      (view { desk with rounds := desk.rounds.postAll me.id opening.message })) :
    (opening.evaluate me 0).Meets (terms.contract view fun result now desk' =>
      result = (opening, .moreRounds) ∧ now = past ++ [Move.inner none] ∧
        desk' = { desk with rounds := desk.rounds.postAll me.id opening.message }) past desk :=
  ⟨hnow, hnext, rfl, rfl, rfl⟩

/-- In round one an opening reads the next message of each peer, and records what the shares add up
to. -/
theorem Opening.meets_read {opening : Opening} {exchanges : List (PartyId → Packet)} {phase : Phase}
    {openings : List Opening} {Fine : PartyId → Packet → Prop} {P : Board → Prop}
    {heard : PartyId → Option Packet} {place : Nat} {chronicle : Chronicle}
    (hterms : terms.SuitsBatch me exchanges phase openings Fine P) (hboard : P desk.board)
    (hopening : openings[place]? = some { opening with opened := none })
    (h : Reading me exchanges ⟨phase, openings.map message⟩ Fine heard (fun _ => place) chronicle past
      desk.rounds) :
    (opening.evaluate me 1).Meets (terms.contract Desk.board fun result now desk' =>
      ∃ heard' rounds value, Hears heard heard' ∧
        result = ({ opening with opened := some value }, .done) ∧
        desk' = { desk with rounds, ledger := desk.ledger.append value opening.share.mac } ∧
        Reads me ⟨phase, openings.map message⟩ heard' place value ∧
        Reading me exchanges ⟨phase, openings.map message⟩ Fine heard' (fun _ => place + 1)
          (chronicle.note (.inner (some (.opened ⟨value, opening.share.mac⟩)))) now rounds) past
      desk := by
  have hduring : ∀ {heard' used' chronicle' now rounds'}, Reading me exchanges
      ⟨phase, openings.map message⟩ Fine heard' used' chronicle' now rounds' →
        terms.during now desk.board := fun hnow => hterms.during _ _ hnow.standing.saying hboard
  have hencoding : ∀ q packet payload error, packet.phase = phase → Fine q packet →
      payload ∈ packet.messages →
      (me.modulus.decode payload).mapError Error.encoding = .error error → terms.fails error := by
    intro q packet payload error hphase hfine hmem hread
    obtain ⟨cause, hdecode, rfl⟩ := mapError_eq_error_iff.mp hread
    exact hterms.encoding q packet payload cause hphase hfine hmem hdecode
  refine (h.meets_gather hterms.toSuits hboard (List.Subset.refl me.peers) Party.nodup_peers
    hencoding).bind_terms ?_
  rintro _ past _ ⟨heard', rounds, share, hhears, rfl, hshare, rfl, h⟩
  have hnow := h.congr fun q hq => if_pos hq
  refine .record_bind (hduring hnow) ⟨hduring (hnow.inner _), heard', rounds, _, hhears, rfl, rfl, ?_,
    hnow.inner _⟩
  have hpeers : ∀ q ∈ me.peers, q ≠ me.id := fun q hq => (Party.mem_peers.mp hq).2
  refine ⟨Function.update share me.id opening.share.value, ?_, fun q hq => ?_, ?_⟩
  · rw [List.getElem?_map, hopening, Function.update_self]
    rfl
  · obtain ⟨packet, payload, hheard, hpayload, hread⟩ := hshare q hq
    refine ⟨packet, payload, hheard, hpayload, ?_⟩
    rw [Function.update_of_ne (hpeers q hq)]
    exact mapError_eq_ok_iff.mp hread
  · rw [Function.update_self]
    exact congrArg (List.foldl me.modulus.add opening.share.value)
      (List.map_congr_left fun q hq => (Function.update_of_ne (hpeers q hq) ..).symm)

end Gates

end AuthenticatedMpc
