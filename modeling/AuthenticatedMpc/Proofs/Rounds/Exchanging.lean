import AuthenticatedMpc.Proofs.Rounds.Operations
import AuthenticatedMpc.Proofs.Rounds.Standing
import Mathlib.Tactic.Convert

/-!
# Making an exchange, whatever the transport does

At the end of the first round of an exchange a party ships its own packet to all peers, in the second
round it reads the packets of its peers message by message. It finds out what a packet holds only as
it reads: a message that is missing ends the round at once, a surplus message ends it at its close.
-/

namespace AuthenticatedMpc

variable {ω W : Type}

/-- Terms on which a party makes an exchange: it may say its own packet as long as the part of its
state is as the predicate says, it may be interrupted, and it may take a packet of the right phase
for a fine one. -/
structure Terms.Suits (terms : Terms ω) (me : Party) (exchanges : List (PartyId → Packet))
    (own : Packet) (Fine : PartyId → Packet → Prop) (P : ω → Prop) : Prop where
  during : ∀ now w, Saying me exchanges own now → P w → terms.during now w
  interrupted : ∀ error, error.IsInterruption → terms.fails error
  fine : ∀ q ∈ me.peers, ∀ now packet, terms.assumes now →
    receivedFrom q (talkOf now) = exchanges.map (· q) ++ [packet] → packet.phase = own.phase →
      Fine q packet

/-! ## Ends of rounds -/

namespace RoundBuffer

variable {me : Party} {exchanges : List (PartyId → Packet)} {own : Packet}
  {Fine : PartyId → Packet → Prop} {sent : PartyId → Bool} {heard : PartyId → Option Packet}
  {chronicle : Chronicle} {past : List Move} {terms : Terms ω} {P : ω → Prop} {w : ω}
  {out held : PartyId → List Payload} {fetched : PartyId → Bool}

/-- What is queued for peers is the own packet, which is sent once. -/
theorem serving_own (hterms : terms.Suits me exchanges own Fine P) (hw : P w)
    (hout : ∀ q < me.parties, out q = [] ∨ out q = own.messages ∧ sent q = false)
    (heard : PartyId → Option Packet) (chronicle : Chronicle) :
    Serving terms w own.phase me.parties out fun rest => Standing me exchanges own
      (fun q => decide (q ∉ rest ∧ out q ≠ []) || sent q) heard chronicle where
  interrupted := hterms.interrupted
  during h := hterms.during _ _ h.saying hw
  silent h := h.silent
  skip {q rest now} hnotin h hqueue := by
    refine h.congr (fun x _ => ?_) fun _ _ => rfl
    rcases eq_or_ne x q with rfl | hne
    · simp [hqueue]
    · simp [hne]
  refused {q rest now} cause hq h hqueue := hterms.during _ _ h.send_error.saying hw
  sent {q rest now} hq hnotin h hqueue := by
    obtain ⟨hmessages, hunsent⟩ := (hout q hq).resolve_left hqueue
    rw [hmessages]
    refine (h.send (by simp [hunsent])).congr (fun x _ => ?_) fun _ _ => rfl
    rcases eq_or_ne x q with rfl | hne
    · simp [hnotin, hqueue]
    · simp [hne]

theorem meets_ship (hterms : terms.Suits me exchanges own Fine P) (hw : P w)
    (hout : ∀ q < me.parties, out q = [] ∨ out q = own.messages ∧ sent q = false)
    (h : Standing me exchanges own sent heard chronicle past) :
    ship.Meets (terms.contract (fun _ => w) fun _ now rounds =>
      Standing me exchanges own (fun q => decide (out q ≠ []) || sent q) heard chronicle now ∧
        (∀ q < me.parties, held q = []) ∧ rounds = .start own.phase me.parties) past
      (.of own.phase me.parties out held fetched) := by
  refine ((serving_own hterms hw hout heard chronicle).meets_ship ?_).mono_terms ?_
  · refine h.congr (fun q hq => ?_) fun _ _ => rfl
    simp [(Party.mem_peers.mp hq).1]
  · rintro _ now _ ⟨hnow, hrest⟩
    exact ⟨by simpa using hnow, hrest⟩

end RoundBuffer

/-! ## Reading -/

/-- Whatever was heard is still heard. -/
def Hears (heard heard' : PartyId → Option Packet) : Prop :=
  ∀ q packet, heard q = some packet → heard' q = some packet

theorem Hears.refl (heard : PartyId → Option Packet) : Hears heard heard := fun _ _ => id

theorem Hears.trans {heard heard' heard'' : PartyId → Option Packet} (h : Hears heard heard')
    (h' : Hears heard' heard'') : Hears heard heard'' := fun q packet hq => h' q packet (h q packet hq)

/-- The party has said its own packet and has heard those of some peers, and of the messages of each
peer it has used the first ones. -/
structure Reading (me : Party) (exchanges : List (PartyId → Packet)) (own : Packet)
    (Fine : PartyId → Packet → Prop) (heard : PartyId → Option Packet) (used : PartyId → Nat)
    (chronicle : Chronicle) (now : List Move) (rounds : RoundBuffer) : Prop where
  standing : Standing me exchanges own (fun _ => true) heard chronicle now
  of_heard : ∀ q packet, heard q = some packet →
    q ∈ me.peers ∧ packet.phase = own.phase ∧ Fine q packet
  unused : ∀ q ∈ me.peers, heard q = none → used q = 0
  rounds_eq : rounds = .of own.phase me.parties (fun _ => [])
    (fun q => ((heard q).elim [] Packet.messages).drop (used q)) fun q => (heard q).isSome

namespace Reading

variable {me : Party} {exchanges : List (PartyId → Packet)} {own : Packet}
  {Fine : PartyId → Packet → Prop} {heard : PartyId → Option Packet} {used : PartyId → Nat}
  {chronicle : Chronicle} {past : List Move} {rounds : RoundBuffer} {terms : Terms ω} {P : ω → Prop}
  {w : ω} {q : PartyId}

theorem inner (h : Reading me exchanges own Fine heard used chronicle past rounds)
    (event : Option Event) :
    Reading me exchanges own Fine heard used (chronicle.note (.inner event))
      (past ++ [Move.inner event]) rounds :=
  { h with standing := h.standing.inner event }

theorem silent (h : Reading me exchanges own Fine heard used chronicle past rounds) :
    Reading me exchanges own Fine heard used chronicle (past ++ [Move.inner none]) rounds :=
  h.inner none

/-- Only what was used of the messages of peers matters. -/
theorem congr {used' : PartyId → Nat}
    (h : Reading me exchanges own Fine heard used chronicle past rounds)
    (hused : ∀ q ∈ me.peers, used q = used' q) :
    Reading me exchanges own Fine heard used' chronicle past rounds where
  standing := h.standing
  of_heard := h.of_heard
  unused q hq hnone := (hused q hq).symm.trans (h.unused q hq hnone)
  rounds_eq := by
    rw [h.rounds_eq]
    refine RoundBuffer.of_congr (fun _ _ => rfl) (fun q _ => ?_) fun _ _ => rfl
    cases hheard : heard q with
    | none => rw [Option.elim_none, List.drop_nil, List.drop_nil]
    | some packet => rw [hused q (h.of_heard q packet hheard).1]

theorem hear {packet : Packet} {now : List Move}
    (h : Reading me exchanges own Fine heard used chronicle past rounds) (hq : q ∈ me.peers)
    (hheard : heard q = none)
    (hstanding : Standing me exchanges own (fun _ => true) (Function.update heard q (some packet))
      chronicle now) (hphase : packet.phase = own.phase) (hfine : Fine q packet) :
    Reading me exchanges own Fine (Function.update heard q (some packet)) used chronicle now
      (rounds.accept q packet.messages) where
  standing := hstanding
  of_heard x other hx := by
    rcases eq_or_ne x q with rfl | hne
    · rw [Function.update_self] at hx
      cases hx
      exact ⟨hq, hphase, hfine⟩
    · rw [Function.update_of_ne hne] at hx
      exact h.of_heard x other hx
  unused x hx hnone := by
    rcases eq_or_ne x q with rfl | hne
    · rw [Function.update_self] at hnone
      cases hnone
    · rw [Function.update_of_ne hne] at hnone
      exact h.unused x hx hnone
  rounds_eq := by
    rw [h.rounds_eq, RoundBuffer.accept_of]
    refine RoundBuffer.of_congr (fun _ _ => rfl) (fun x _ => ?_) fun x _ => ?_ <;>
      rcases eq_or_ne x q with rfl | hne
    · simp [hheard, h.unused x hq hheard]
    · simp [hne]
    · simp
    · simp [hne]

theorem use {packet : Packet} (h : Reading me exchanges own Fine heard used chronicle past rounds)
    (hheard : heard q = some packet) :
    Reading me exchanges own Fine heard (Function.update used q (used q + 1)) chronicle past
      (rounds.consume q) where
  standing := h.standing
  of_heard := h.of_heard
  unused x hx hnone := by
    have hne : x ≠ q := by
      rintro rfl
      rw [hheard] at hnone
      cases hnone
    rw [Function.update_of_ne hne]
    exact h.unused x hx hnone
  rounds_eq := by
    rw [h.rounds_eq, RoundBuffer.consume_of]
    refine RoundBuffer.of_congr (fun _ _ => rfl) (fun x _ => ?_) fun _ _ => rfl
    rcases eq_or_ne x q with rfl | hne
    · simp
    · simp [hne]

theorem receiving (hterms : terms.Suits me exchanges own Fine P) (hw : P w) (hq : q ∈ me.peers)
    {α : Type} (ready : α → List Move → RoundBuffer → Prop) :
    RoundBuffer.Receiving (terms.contract (fun _ => w) ready) q
      (Reading me exchanges own Fine heard used chronicle)
      fun now rounds => ∃ heard' packet, Hears heard heard' ∧ heard' q = some packet ∧
        Reading me exchanges own Fine heard' used chronicle now rounds := by
  have hduring : ∀ {heard' now}, Standing me exchanges own (fun _ => true) heard' chronicle now →
      terms.during now w := fun hnow => hterms.during _ _ hnow.saying hw
  have hfetched : ∀ {now rounds}, Reading me exchanges own Fine heard used chronicle now rounds →
      rounds.hasFetched q = (heard q).isSome := fun h => by
    rw [h.rounds_eq, RoundBuffer.hasFetched_of (Party.mem_peers.mp hq).1]
  have hnone : ∀ {now rounds}, Reading me exchanges own Fine heard used chronicle now rounds →
      rounds.hasFetched q = false → heard q = none := fun h hunfetched => by
    rwa [hfetched h, ← Bool.not_eq_true, Option.not_isSome_iff_eq_none] at hunfetched
  refine ⟨fun h _ => hterms.interrupted _ h, fun h => hduring h.standing,
    fun ⟨_, _, _, _, h⟩ => hduring h.standing, fun h => h.silent,
    fun ⟨heard', packet, hhears, hheard, h⟩ => ⟨heard', packet, hhears, hheard, h.silent⟩, ?_, ?_, ?_⟩
  · intro now rounds h hthere
    rw [hfetched h] at hthere
    obtain ⟨packet, hpacket⟩ := Option.isSome_iff_exists.mp hthere
    exact ⟨heard, packet, .refl heard, hpacket, h⟩
  · intro now rounds reply h hunfetched _
    cases reply with
    | error cause => exact hduring h.standing.receive_error
    | ok packet => exact hduring (h.standing.receive (hnone h hunfetched))
  · intro now rounds packet h hunfetched hassumes hphase
    have hheard := hnone h hunfetched
    rw [show rounds.phase = own.phase by rw [h.rounds_eq, RoundBuffer.phase_of]] at hphase
    have hstanding := @Standing.receive me exchanges own packet _ heard chronicle _ q h.standing
      hheard
    have hreceived := hstanding.receivedFrom q hq
    rw [Function.update_self] at hreceived
    have hhears : Hears heard (Function.update heard q (some packet)) := by
      intro x other hx
      rwa [Function.update_of_ne]
      rintro rfl
      rw [hheard] at hx
      cases hx
    exact ⟨_, packet, hhears, Function.update_self .., h.hear hq hheard hstanding hphase
      (hterms.fine q hq _ packet hassumes hreceived hphase)⟩

theorem meets_receive (h : Reading me exchanges own Fine heard used chronicle past rounds)
    (hterms : terms.Suits me exchanges own Fine P) (hw : P w) (hq : q ∈ me.peers) :
    (RoundBuffer.receive me.id q).Meets (terms.contract (fun _ => w) fun payload now rounds' =>
      ∃ heard' packet, Hears heard heard' ∧ heard' q = some packet ∧
        packet.messages[used q]? = some payload ∧
        Reading me exchanges own Fine heard' (Function.update used q (used q + 1)) chronicle now
          rounds') past rounds := by
  refine (receiving hterms hw hq _).meets_receive ?_ ?_ h
  · intro now rounds h hstranger
    rw [h.rounds_eq, RoundBuffer.isPeer_of.mpr (Party.mem_peers.mp hq)] at hstranger
    cases hstranger
  · rintro now rounds payload rest ⟨heard', packet, hhears, hheard, h⟩ hpending
    rw [h.rounds_eq, RoundBuffer.pending_of (Party.mem_peers.mp hq).1, hheard] at hpending
    have hpayload : packet.messages[used q]? = some payload := by
      rw [← List.head?_drop, show packet.messages.drop (used q) = payload :: rest from hpending,
        List.head?_cons]
    exact ⟨hterms.during _ _ h.standing.saying hw, heard', packet, hhears, hheard, hpayload,
      h.use hheard⟩

/-- Adding up the contributions of peers reads the next message of each of them. -/
theorem meets_gather {terms : Terms W} {P : W → Prop} {desk : Desk W}
    {read : PartyId → Payload → Except Error Element} {peers : List PartyId} {total : Element}
    (h : Reading me exchanges own Fine heard used chronicle past desk.rounds)
    (hterms : terms.Suits me exchanges own Fine P) (hw : P desk.board)
    (hpeers : peers ⊆ me.peers) (hnodup : peers.Nodup)
    (hread : ∀ q packet payload error, packet.phase = own.phase → Fine q packet →
      payload ∈ packet.messages → read q payload = .error error → terms.fails error) :
    (Desk.gather me read peers total).Meets
      (terms.contract Desk.board fun sum now desk' =>
        ∃ heard' rounds, ∃ value : PartyId → Element, Hears heard heard' ∧
          desk' = { desk with rounds } ∧
          (∀ q ∈ peers, ∃ packet payload, heard' q = some packet ∧
            packet.messages[used q]? = some payload ∧ read q payload = .ok (value q)) ∧
          sum = (peers.map value).foldl me.modulus.add total ∧
          Reading me exchanges own Fine heard' (fun q => if q ∈ peers then used q + 1 else used q)
            chronicle now rounds) past desk := by
  refine Desk.meets_gather (fun rest sum now desk' => ∃ front heard' rounds,
    ∃ value : PartyId → Element, peers = front ++ rest ∧ Hears heard heard' ∧
      desk' = { desk with rounds } ∧
      (∀ q ∈ front, ∃ packet payload, heard' q = some packet ∧
        packet.messages[used q]? = some payload ∧ read q payload = .ok (value q)) ∧
      sum = (front.map value).foldl me.modulus.add total ∧
      Reading me exchanges own Fine heard' (fun q => if q ∈ front then used q + 1 else used q)
        chronicle now rounds) ?_ ?_ ?_
  · rintro q rest sum now _ ⟨front, heard', rounds, value, rfl, hhears, rfl, hvalues, rfl, h⟩
    have hq : q ∈ me.peers := hpeers (by simp)
    have hnotin : q ∉ front := fun hmem =>
      (List.nodup_append.mp hnodup).2.2 q hmem q (List.mem_cons_self ..) rfl
    have hne : ∀ x ∈ front, x ≠ q := fun x hx => ne_of_mem_of_not_mem hx hnotin
    refine .zoom ((h.meets_receive hterms hw hq).mono (fun _ _ => id) ?_ fun _ _ _ _ => id)
    rintro payload now rounds' hduring ⟨heard'', packet, hhears', hheard, hpayload, h'⟩
    rw [if_neg hnotin] at hpayload h'
    refine ⟨fun own' hvalue => ⟨front ++ [q], heard'', rounds', Function.update value q own', by simp,
      hhears.trans hhears', rfl, ?_, ?_, ?_⟩, fun error hvalue => ?_⟩
    · refine List.forall_mem_append.mpr ⟨fun x hx => ?_, List.forall_mem_singleton.mpr
        ⟨packet, payload, hheard, hpayload, by rw [Function.update_self, hvalue]⟩⟩
      obtain ⟨other, payload', hother, hpayload', hread'⟩ := hvalues x hx
      exact ⟨other, payload', hhears' x other hother, hpayload',
        by rwa [Function.update_of_ne (hne x hx)]⟩
    · have hmap : front.map (Function.update value q own') = front.map value :=
        List.map_congr_left fun x hx => Function.update_of_ne (hne x hx) ..
      rw [List.map_append, hmap, List.map_singleton, Function.update_self, List.foldl_append,
        List.foldl_cons, List.foldl_nil]
    · convert h' using 2 with x
      rcases eq_or_ne x q with rfl | hxq
      · simp
      · simp [hxq]
    · obtain ⟨-, hphase, hfine⟩ := h'.of_heard q packet hheard
      exact ⟨hduring, hread q packet payload error hphase hfine (List.mem_of_getElem? hpayload) hvalue⟩
  · rintro sum now _ ⟨front, heard', rounds, value, rfl, hhears, rfl, hvalues, rfl, h⟩
    rw [List.append_nil]
    exact ⟨hterms.during _ _ h.standing.saying hw, heard', rounds, value, hhears, rfl, hvalues, rfl, h⟩
  · exact ⟨[], heard, desk.rounds, fun _ => .zero, rfl, .refl heard, rfl, nofun, rfl, by simpa using h⟩

end Reading
end AuthenticatedMpc
