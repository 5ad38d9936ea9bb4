import AuthenticatedMpc.Proofs.MacCheck.Honest
import AuthenticatedMpc.Proofs.Rounds.Conversation

/-!
# What honest parties say

Parties that evaluate the same dealt gates may take them in batches of any sizes and check when they
like. Still, what an honest party says next depends only on its phase and on the packets that it has
sent before: they tell how many values it has opened, how many of these its checks have taken, and how
many checks there were. So parties that have made the same exchanges expect of each other what they
say, as long as they are in the same phase.
-/

namespace AuthenticatedMpc

/-- How far a party is in a common stream. -/
structure Position where
  /-- The values opened so far. -/
  opened : Nat := 0
  /-- The values that earlier checks have taken. -/
  checked : Nat := 0
  /-- The checks so far. -/
  checks : Nat := 0
  /-- The exchanges of the current check so far. -/
  step : Nat := 0
deriving DecidableEq, Repr

namespace Position

def afterCheck (position : Position) : Position :=
  ⟨position.opened, position.opened, position.checks + 1, 0⟩

def next (position : Position) (packet : Packet) : Position :=
  match packet.phase with
  | .circuit _ => { position with opened := position.opened + packet.messages.length }
  | .macCheck _ =>
    if position.step < 3 then { position with step := position.step + 1 } else position.afterCheck

end Position

/-- Valid deals in the order in which they are opened, and the generators of all parties. -/
structure Playbook (table : Table) where
  deals : List Deal
  valid : ∀ deal ∈ deals, deal.Valid table
  source : PartyId → Source

namespace Playbook

variable {table : Table} (playbook : Playbook table)

/-- The generator of a party after a number of checks, if they all end. -/
def sourceAfter (q : PartyId) : Nat → Option Source
  | 0 => some (playbook.source q)
  | checks + 1 =>
    (sourceAfter q checks).bind fun source => (table.modulus.drawCheck source).map Prod.snd

/-- What a party draws for a check. It does not matter what that is for a party that draws forever. -/
def draws (checks : Nat) (q : PartyId) : Draws :=
  (((playbook.sourceAfter q checks).bind table.modulus.drawCheck).map Prod.fst).getD
    ((.zero, default), default)

def rest (position : Position) : List Deal := playbook.deals.drop position.opened

def pending (position : Position) : List Deal :=
  (playbook.deals.drop position.checked).take (position.opened - position.checked)

def records (position : Position) (q : PartyId) : List Record :=
  (playbook.pending position).map (Deal.record · q)

def checkExchanges (position : Position) (number : UInt64) : List (PartyId → Packet) :=
  table.checkExchanges number (playbook.records position) (playbook.draws position.checks)

/-- The messages of a party in its next packet, if that is of the phase and has so many. -/
def messages (q : PartyId) (position : Position) (count : Nat) : Phase → List Payload
  | .circuit _ => ((playbook.rest position).take count).map (Deal.message · q)
  | .macCheck number =>
    (playbook.checkExchanges position number)[position.step]?.elim []
      fun packets => (packets q).messages

/-- The packet is what a party says next, whatever its phase. -/
def IsNextPacket (q : PartyId) (position : Position) (packet : Packet) : Prop :=
  packet.messages = playbook.messages q position packet.messages.length packet.phase

/-- From the position on, the party says one of these packets after another. -/
def SaysInOrder (q : PartyId) : Position → List Packet → Prop
  | _, [] => True
  | position, packet :: packets =>
    playbook.IsNextPacket q position packet ∧ SaysInOrder q (position.next packet) packets

/-- From one position on, all parties can send these packets, and then are at the other. -/
def ExchangesBetween (position : Position) (exchanges : List (PartyId → Packet))
    (position' : Position) : Prop :=
  ∀ q < table.parties, playbook.SaysInOrder q position (exchanges.map (· q)) ∧
    (exchanges.map (· q)).foldl Position.next position = position'

variable {playbook} {q : PartyId} {position position' position'' : Position} {checks count : Nat}
  {exchanges exchanges' : List (PartyId → Packet)} {front back : List Packet} {packet heard : Packet}
  {number batch : UInt64}

/-! ## Draws -/

theorem reduced_draws : table.modulus.Reduced (playbook.draws checks q).1.1 := by
  unfold draws
  cases hdrawn : (playbook.sourceAfter q checks).bind table.modulus.drawCheck with
  | none => exact Modulus.reduced_zero
  | some drawn =>
    obtain ⟨source, -, hdraw⟩ := Option.bind_eq_some_iff.mp hdrawn
    exact Modulus.reduced_drawCheck hdraw

theorem draws_eq {source source' : Source} {own : Draws}
    (hsource : playbook.sourceAfter q checks = some source)
    (hdraw : table.modulus.drawCheck source = some (own, source')) :
    playbook.draws checks q = own ∧ playbook.sourceAfter q (checks + 1) = some source' := by
  rw [draws, sourceAfter, hsource, Option.bind_some, Option.bind_some, hdraw]
  exact ⟨rfl, rfl⟩

/-! ## Records -/

theorem records_append (h : position.checked ≤ position.opened) (count : Nat) :
    playbook.records { position with opened := position.opened + count } q =
      playbook.records position q ++ ((playbook.rest position).take count).map (Deal.record · q) := by
  have hsplit : position.opened + count - position.checked =
      position.opened - position.checked + count := by omega
  have hdrop : position.checked + (position.opened - position.checked) = position.opened := by omega
  simp only [records, pending, rest]
  rw [hsplit, List.take_add, List.drop_drop, hdrop, List.map_append]

theorem records_afterCheck : playbook.records position.afterCheck q = [] := by
  simp [records, pending, Position.afterCheck]

theorem mem_of_mem_rest {deal : Deal} (h : deal ∈ playbook.rest position) : deal ∈ playbook.deals :=
  List.drop_subset _ _ h

theorem valid_of_mem_pending {deal : Deal} (h : deal ∈ playbook.pending position) :
    deal.Valid table :=
  playbook.valid deal (List.drop_subset _ _ (List.take_subset _ _ h))

theorem reduced_records (hq : q < table.parties) :
    ∀ record ∈ playbook.records position q, record.Reduced table.modulus := by
  intro record hrecord
  obtain ⟨deal, hdeal, rfl⟩ := List.mem_map.mp hrecord
  exact (valid_of_mem_pending hdeal).reduced_record hq

theorem verdict_records (number : UInt64) : table.verdict number (playbook.records position)
    (table.combiner (playbook.draws position.checks)) = .ok () := by
  apply if_pos
  apply checkTotal_record_mod
  · intro deal hdeal
    exact valid_of_mem_pending hdeal
  · exact table.reduced_combiner

/-! ## Packets in order -/

theorem saysInOrder_append : playbook.SaysInOrder q position (front ++ back) ↔
    playbook.SaysInOrder q position front ∧
      playbook.SaysInOrder q (front.foldl Position.next position) back := by
  induction front generalizing position with
  | nil => exact ⟨fun h => ⟨trivial, h⟩, And.right⟩
  | cons packet front ih => exact (and_congr_right fun _ => ih).trans and_assoc.symm

theorem SaysInOrder.of_front (h : playbook.SaysInOrder q position back) (hfront : front <+: back) :
    playbook.SaysInOrder q position front := by
  obtain ⟨rest, rfl⟩ := hfront
  exact (saysInOrder_append.mp h).1

namespace ExchangesBetween

theorem nil : playbook.ExchangesBetween position [] position := by
  intro q hq
  exact ⟨trivial, rfl⟩

theorem append (h : playbook.ExchangesBetween position exchanges position')
    (h' : playbook.ExchangesBetween position' exchanges' position'') :
    playbook.ExchangesBetween position (exchanges ++ exchanges') position'' := by
  intro q hq
  rw [List.map_append, saysInOrder_append, List.foldl_append, (h q hq).2]
  exact ⟨⟨(h q hq).1, (h' q hq).1⟩, (h' q hq).2⟩

/-- A packet that comes in order after the exchanges is said at the position. -/
theorem fits (h : playbook.ExchangesBetween position exchanges position') (hq : q < table.parties)
    (hordered : playbook.SaysInOrder q position (exchanges.map (· q) ++ [packet])) :
    playbook.IsNextPacket q position' packet := by
  have hlast := (saysInOrder_append.mp hordered).2
  rw [(h q hq).2] at hlast
  exact hlast.1

end ExchangesBetween

theorem exchangesBetween_batch {packets : PartyId → Packet}
    (hphase : ∀ q < table.parties, (packets q).phase = .circuit batch)
    (hpacket : ∀ q < table.parties, playbook.IsNextPacket q position (packets q))
    (hlength : ∀ q < table.parties, (packets q).messages.length = count) :
    playbook.ExchangesBetween position [packets] { position with opened := position.opened + count } := by
  intro q hq
  constructor
  · exact ⟨hpacket q hq, trivial⟩
  · simp [Position.next, hphase q hq, hlength q hq]

/-! ## Checks -/

theorem length_checkExchanges : (playbook.checkExchanges position number).length = 4 := rfl

theorem phase_of_mem_checkExchanges {packets : PartyId → Packet}
    (h : packets ∈ playbook.checkExchanges position number) (q : PartyId) :
    (packets q).phase = .macCheck number := by
  simp only [checkExchanges, Table.checkExchanges, contributions, List.cons_append, List.nil_append,
    List.mem_cons, List.not_mem_nil, or_false] at h
  rcases h with rfl | rfl | rfl | rfl <;> rfl

theorem exchangesBetween_take_check (hstep : position.step = 0) {step : Nat} (hlt : step < 4) :
    playbook.ExchangesBetween position ((playbook.checkExchanges position number).take step)
      { position with step } := by
  obtain ⟨opened, checked, checks, _⟩ := position
  cases hstep
  intro q hq
  have h : step = 0 ∨ step = 1 ∨ step = 2 ∨ step = 3 := by omega
  -- The packets of a check do not depend on the step, so each of them is the one at its place.
  rcases h with rfl | rfl | rfl | rfl
  · exact ⟨trivial, rfl⟩
  · exact ⟨⟨rfl, trivial⟩, rfl⟩
  · exact ⟨⟨rfl, rfl, trivial⟩, rfl⟩
  · exact ⟨⟨rfl, rfl, rfl, trivial⟩, rfl⟩

theorem exchangesBetween_check (hstep : position.step = 0) :
    playbook.ExchangesBetween position (playbook.checkExchanges position number) position.afterCheck := by
  obtain ⟨opened, checked, checks, _⟩ := position
  cases hstep
  intro q hq
  exact ⟨⟨rfl, rfl, rfl, rfl, trivial⟩, rfl⟩

/-- In a check, a packet of the right phase that comes in order is the expected one. -/
theorem ExchangesBetween.heard_eq (h : playbook.ExchangesBetween position exchanges position')
    (hq : q < table.parties)
    (hstep : position'.step = 0)
    (hexpected : (playbook.checkExchanges position' number).map (· q) = front ++ packet :: back)
    (hordered : playbook.SaysInOrder q position (exchanges.map (· q) ++ front ++ [heard]))
    (hphase : heard.phase = packet.phase) : heard = packet := by
  have hlt : front.length < 4 := by
    have hlength := congrArg List.length hexpected
    rw [List.length_map, length_checkExchanges, List.length_append, List.length_cons] at hlength
    omega
  have hfront : front = ((playbook.checkExchanges position' number).take front.length).map (· q) := by
    rw [List.map_take, hexpected, List.take_left]
  obtain ⟨packets, hpackets, rfl⟩ : ∃ packets,
      (playbook.checkExchanges position' number)[front.length]? = some packets ∧
        packets q = packet := by
    have hplace := congrArg (·[front.length]?) hexpected
    simpa using hplace
  rw [hfront, ← List.map_append] at hordered
  have hmessages := (h.append (exchangesBetween_take_check hstep hlt)).fits hq hordered
  have hmacCheck := phase_of_mem_checkExchanges (List.mem_of_getElem? hpackets) q
  have hsaid : playbook.messages q { position' with step := front.length } heard.messages.length
      (.macCheck number) = (packets q).messages := by
    change (playbook.checkExchanges position' number)[front.length]?.elim [] _ = _
    rw [hpackets]
    rfl
  rw [IsNextPacket, hphase, hmacCheck, hsaid] at hmessages
  calc
    heard = ⟨heard.phase, heard.messages⟩ := rfl
    _ = packets q := by rw [hphase, hmessages]

end Playbook
end AuthenticatedMpc
