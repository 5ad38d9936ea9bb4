import AuthenticatedMpc.Proofs.Circuit.OpeningRounds
import AuthenticatedMpc.Proofs.Evaluation.Course
import AuthenticatedMpc.Proofs.Evaluation.Playbook
import AuthenticatedMpc.Proofs.MacCheck.Vigilance

/-!
# Evaluations of dealt gates

A party that evaluates dealt gates goes by the playbook as long as its peers do. Then all that it opens
is what was dealt, each of its checks that ends has passed, and it fails only if the transport fails, a
peer is elsewhere, or a computation fails.
-/

namespace AuthenticatedMpc

/-! ## What dealt gates open -/

namespace DealtGate

variable {gates : List DealtGate} {i : PartyId}

/-- A computation of a party can fail with the error when only dealt values are published. -/
def Raises (deals : List Deal) (i : PartyId) (error : Error) : DealtGate → Prop
  | compute _ act => ∃ seen, (∀ board ∈ seen, Board.Faithful deals board) ∧ act i seen = .error error
  | _ => False

theorem openings_map_gate : CircuitGate.openings (gates.map (gate i)) =
    (deals gates).map (Deal.opening · i false) := by
  rw [CircuitGate.openings, deals, List.filterMap_map, List.map_filterMap]
  apply List.filterMap_congr
  intro gate _
  cases gate <;> rfl

theorem sound_gate {fails : Error → Prop} {gate : DealtGate} (deals : List Deal)
    (hfails : ∀ error, gate.Raises deals i error → fails error) :
    (gate.gate i).Sound (Board.Faithful deals) fails := by
  cases gate with
  | opening | output =>
    intro board hboard
    exact hboard
  | compute revealsOutput act =>
    constructor
    · intro board hboard
      cases hboard
    · intro seen hseen error herror
      exact hfails error ⟨seen, hseen, herror⟩

end DealtGate

theorem CircuitGate.openings_batch {gates before batch : List CircuitGate} {deals : List Deal}
    {i : PartyId} (hgates : openings gates = deals.map (Deal.opening · i false))
    (hbatch : before ++ batch <+: gates) :
    openings batch = ((deals.drop (openings before).length).take (openings batch).length).map
      (Deal.opening · i false) := by
  obtain ⟨rest, rfl⟩ := hbatch
  rw [openings_append, openings_append, List.append_assoc] at hgates
  rw [List.map_take, List.map_drop, ← hgates, List.drop_left, List.take_left]

namespace Deal

variable {table : Table} {i : Fin table.parties} {rest : List Deal} {deal : Deal}
  {heard : PartyId → Option Packet} {place count : Nat} {value : Element}

theorem exists_of_getElem?_map_take {α : Type} {f : Deal → α} {a : α}
    (h : ((rest.take count).map f)[place]? = some a) :
    ∃ deal, rest[place]? = some deal ∧ f deal = a := by
  rw [List.getElem?_map, List.getElem?_take] at h
  split at h
  · exact Option.map_eq_some_iff.mp h
  · cases h

theorem message_eq {q : PartyId} {payload : Payload} (hdeal : rest[place]? = some deal)
    (hpayload : ((rest.take count).map (message · q))[place]? = some payload) :
    payload = deal.message q := by
  obtain ⟨_, hdeal', rfl⟩ := exists_of_getElem?_map_take hpayload
  cases hdeal.symm.trans hdeal'
  rfl

/-- The shares that a party reads at a place add up to what was dealt for it. -/
theorem Valid.eq_of_reads (h : deal.Valid table) (hdeal : rest[place]? = some deal) {own : Packet}
    (hown : own.messages = (rest.take count).map (message · i))
    (hheard : ∀ q ∈ (table.party i).peers, ∀ packet, heard q = some packet →
      packet.messages = (rest.take packet.messages.length).map (message · q))
    (hreads : Reads (table.party i) own heard place value) : value = deal.value := by
  obtain ⟨share, hshare, hpeers, rfl⟩ := hreads
  rw [hown] at hshare
  have hself : share i = (deal.share i).value := Limbs.toBytes_inj.mp (message_eq hdeal hshare)
  have hothers : (table.party i).peers.map share =
      (table.party i).peers.map fun q => (deal.share q).value := by
    apply List.map_congr_left
    intro q hq
    obtain ⟨packet, payload, hpacket, hpayload, hdecode⟩ := hpeers q hq
    rw [hheard q hq packet hpacket] at hpayload
    rw [message_eq hdeal hpayload] at hdecode
    exact Except.ok.inj (hdecode.symm.trans (h.decode_message (Table.mem_peers.mp hq).1))
  rw [hothers]
  exact (congrArg (List.foldl _ · _) hself).trans h.foldl_add

end Deal

/-! ## What a party promises -/

namespace Playbook

variable {table : Table} (playbook : Playbook table)

/-- The party goes by the playbook if its peers do, publishes dealt values only, and fails only if it is
interrupted or with one of the given errors. -/
def terms (i : PartyId) (fails : Error → Prop) : Terms Board where
  during now board :=
    (∀ q < table.parties, q ≠ i → playbook.SaysInOrder i {} (sentTo q (talkOf now))) ∧
      board.Faithful playbook.deals
  fails error := error.IsInterruption ∨ fails error
  assumes now := ∀ q < table.parties, q ≠ i → playbook.SaysInOrder q {} (receivedFrom q (talkOf now))

/-- Between batches and checks, the party is at the position after these exchanges. -/
structure AtPosition (i : Fin table.parties) (fails : Error → Prop)
    (exchanges : List (PartyId → Packet)) (position : Position) (before : List CircuitGate)
    (now : List Move) (books : Books) : Prop where
  exchanged : Exchanged (table.party i) exchanges now
  between : playbook.ExchangesBetween {} exchanges position
  step_eq : position.step = 0
  checked_le : position.checked ≤ position.opened
  opened_eq : (CircuitGate.openings before).length = position.opened
  records_eq : books.records = playbook.records position i
  source_eq : playbook.sourceAfter i position.checks = some books.generator
  board : books.board.Faithful playbook.deals
  staged : ∀ gate ∈ books.staged,
    gate.Sound (Board.Faithful playbook.deals) (playbook.terms i fails).fails

variable {playbook} {i : Fin table.parties} {fails : Error → Prop}
  {exchanges : List (PartyId → Packet)} {position : Position} {before batch gates : List CircuitGate}
  {past now : List Move} {books : Books} {board : Board} {number : UInt64} {openings : List Opening}

theorem ExchangesBetween.saying {own : Packet} (h : playbook.ExchangesBetween {} exchanges position)
    (hown : playbook.IsNextPacket i position own)
    (hsaying : Saying (table.party i) exchanges own now) :
    ∀ q < table.parties, q ≠ i → playbook.SaysInOrder i {} (sentTo q (talkOf now)) := by
  obtain ⟨hordered, hposition⟩ := h i i.isLt
  have hall : playbook.SaysInOrder i {} (exchanges.map (· i) ++ [own]) := by
    rw [saysInOrder_append, hposition]
    exact ⟨hordered, hown, trivial⟩
  intro q hq hne
  exact hall.of_front (hsaying q (Table.mem_peers.mpr ⟨hq, hne⟩))

theorem terms_during_inner {event : Option Event} (h : (playbook.terms i fails).during past board) :
    (playbook.terms i fails).during (past ++ [Move.inner event]) board := by
  simpa [terms] using h

theorem AtPosition.during (h : playbook.AtPosition i fails exchanges position before now books) :
    (playbook.terms i fails).during now books.board := by
  constructor
  · intro q hq hne
    rw [h.exchanged.sentTo q (Table.mem_peers.mpr ⟨hq, hne⟩)]
    exact (h.between i i.isLt).1
  · exact h.board

/-! ## Batches -/

/-- The openings are those of the deals that come next. -/
def OpensNextDeals (playbook : Playbook table) (i : PartyId) (position : Position)
    (openings : List Opening) : Prop :=
  openings = ((playbook.rest position).take openings.length).map (Deal.opening · i false)

theorem OpensNextDeals.messages_eq (h : playbook.OpensNextDeals i position openings) :
    openings.map Opening.message =
      playbook.messages i position openings.length (.circuit number) := by
  have hmessages := congrArg (List.map Opening.message) h
  rw [List.map_map] at hmessages
  exact hmessages

theorem OpensNextDeals.fits (h : playbook.OpensNextDeals i position openings) :
    playbook.IsNextPacket i position ⟨.circuit number, openings.map Opening.message⟩ := by
  rw [IsNextPacket, List.length_map]
  exact h.messages_eq

theorem eq_of_reads {place : Nat} {deal : Deal} {value : Element} {own : Packet}
    {heard : PartyId → Option Packet}
    (hdeal : (playbook.rest position)[place]? = some deal)
    (hown : playbook.IsNextPacket i position own) (hphase : own.phase = .circuit number)
    (hheard : ∀ q ∈ (table.party i).peers, ∀ packet, heard q = some packet →
      packet.phase = .circuit number ∧ playbook.IsNextPacket q position packet)
    (hreads : Reads (table.party i) own heard place value) : value = deal.value := by
  have hmem : deal ∈ playbook.deals := mem_of_mem_rest (List.mem_of_getElem? hdeal)
  rw [IsNextPacket, hphase] at hown
  apply (playbook.valid deal hmem).eq_of_reads hdeal hown _ hreads
  intro q hq packet hpacket
  obtain ⟨hphase, hpacket⟩ := hheard q hq packet hpacket
  rwa [IsNextPacket, hphase] at hpacket

theorem OpensNextDeals.suits (hnext : playbook.OpensNextDeals i position openings)
    (hbetween : playbook.ExchangesBetween {} exchanges position) :
    (playbook.terms i fails).Suits (table.party i) exchanges
      ⟨.circuit number, openings.map Opening.message⟩
      (fun q packet => q < table.parties ∧ playbook.IsNextPacket q position packet)
      (Board.Faithful playbook.deals) := by
  constructor
  case during =>
    intro now board hsaying hboard
    exact ⟨hbetween.saying hnext.fits hsaying, hboard⟩
  case interrupted =>
    intro error herror
    exact .inl herror
  case fine =>
    intro q hq now packet hassumes hreceived _
    obtain ⟨hlt, hne⟩ := Table.mem_peers.mp hq
    have hordered := hassumes q hlt hne
    rw [hreceived] at hordered
    exact ⟨hlt, hbetween.fits hlt hordered⟩

theorem OpensNextDeals.suits_batch (hnext : playbook.OpensNextDeals i position openings)
    (hbetween : playbook.ExchangesBetween {} exchanges position) :
    (playbook.terms i fails).SuitsBatch (table.party i) exchanges (.circuit number) openings
      (fun q packet => q < table.parties ∧ playbook.IsNextPacket q position packet)
      (Board.Faithful playbook.deals) := by
  constructor
  case toSuits => exact hnext.suits hbetween
  case encoding =>
    -- The share of a peer is reduced, so it is decoded.
    rintro q packet payload error hphase ⟨hlt, hpacket⟩ hpayload herror
    rw [IsNextPacket, hphase] at hpacket
    rw [hpacket] at hpayload
    obtain ⟨deal, hdeal, rfl⟩ := List.mem_map.mp hpayload
    have hvalid := playbook.valid deal (mem_of_mem_rest (List.take_subset _ _ hdeal))
    cases herror.symm.trans (hvalid.decode_message hlt)
  case publish =>
    intro place opening value heard hplace hreads hheard board hboard
    rw [hnext] at hplace
    obtain ⟨deal, hdeal, rfl⟩ := Deal.exists_of_getElem?_map_take hplace
    have hvalue : value = deal.value := by
      apply eq_of_reads hdeal hnext.fits rfl _ hreads
      intro q hq packet hpacket
      obtain ⟨hphase, -, hpacket⟩ := hheard q packet hpacket
      exact ⟨hphase, hpacket⟩
    rw [hvalue]
    exact hboard.publish (mem_of_mem_rest (List.mem_of_getElem? hdeal))

/-- A record of the batch has the MAC share of its deal, and the value that the shares add up to. -/
theorem OpensNextDeals.exists_deal_of_reads {packets : PartyId → Packet} {place : Nat} {record : Record}
    (hnext : playbook.OpensNextDeals i position openings)
    (hphase : ∀ q < table.parties, (packets q).phase = .circuit number)
    (hpacket : ∀ q < table.parties, playbook.IsNextPacket q position (packets q))
    (hmac : (openings.map (·.share.mac))[place]? = some record.mac)
    (hreads : Reads (table.party i) (packets i) (fun q => some (packets q)) place record.value) :
    ∃ deal : Deal, (playbook.rest position)[place]? = some deal ∧ record = deal.record i := by
  rw [hnext, List.map_map] at hmac
  obtain ⟨deal, hdeal, hmac⟩ := Deal.exists_of_getElem?_map_take hmac
  have hvalue : record.value = deal.value := by
    apply eq_of_reads hdeal (hpacket i i.isLt) (hphase i i.isLt) _ hreads
    rintro q hq _ ⟨⟩
    have hlt := (Table.mem_peers.mp hq).1
    exact ⟨hphase q hlt, hpacket q hlt⟩
  refine ⟨deal, hdeal, ?_⟩
  rw [Deal.record, ← hvalue]
  exact congrArg (Record.mk record.value) hmac.symm

/-- A batch that ends has opened what was dealt. -/
theorem OpensNextDeals.of_opens {made : List (PartyId → Packet)} {new : List Record}
    (hnext : playbook.OpensNextDeals i position openings)
    (hopens : OpensBatch (table.party i) (.circuit number)
      (fun q packet => q < table.parties ∧ playbook.IsNextPacket q position packet) openings made new) :
    playbook.ExchangesBetween position made { position with opened := position.opened + openings.length } ∧
      new = ((playbook.rest position).take openings.length).map (Deal.record · i) := by
  have hmade := hopens
  cases hopens with
  | nothing hnil =>
    subst hnil
    exact ⟨.nil, rfl⟩
  | exchange packets _ hown hpeers hmacs hreads =>
    have hlength : new.length = openings.length := by
      have h := congrArg List.length hmacs
      rwa [List.length_map, List.length_map] at h
    have hpacket : ∀ q < table.parties, playbook.IsNextPacket q position (packets q) := by
      intro q hq
      by_cases hne : q = i
      · have hself : packets i = ⟨.circuit number, openings.map Opening.message⟩ := hown
        rw [hne, hself]
        exact hnext.fits
      · exact (hpeers q (Table.mem_peers.mpr ⟨hq, hne⟩)).2.2.2
    constructor
    · apply exchangesBetween_batch
      · intro q hq
        exact (hmade.packets hq).1
      · exact hpacket
      · intro q hq
        exact (hmade.packets hq).2.trans hlength
    have hrecord : ∀ (place : Nat) (record : Record), new[place]? = some record →
        ∃ deal : Deal, (playbook.rest position)[place]? = some deal ∧ record = deal.record i := by
      intro place record hplace
      have hmac : (openings.map (·.share.mac))[place]? = some record.mac := by
        rw [← hmacs, List.getElem?_map, hplace, Option.map_some]
      exact hnext.exists_deal_of_reads (fun q hq => (hmade.packets hq).1) hpacket hmac
        (hreads place record hplace)
    apply List.ext_getElem
    · have hcount := congrArg List.length hnext
      rw [List.length_map] at hcount ⊢
      exact hlength.trans hcount
    · intro place hplace _
      obtain ⟨deal, hdeal, heq⟩ := hrecord place _ (List.getElem?_eq_getElem hplace)
      rw [heq, List.getElem_map, List.getElem_take, (List.getElem?_eq_some_iff.mp hdeal).2]

theorem AtPosition.inner (h : playbook.AtPosition i fails exchanges position before past books)
    (event : Option Event) :
    playbook.AtPosition i fails exchanges position before (past ++ [Move.inner event]) books :=
  { h with exchanged := h.exchanged.inner }

theorem AtPosition.meets_process {desk : Desk Board}
    (h : playbook.AtPosition i fails exchanges position before past books)
    (hopenings : CircuitGate.openings gates = playbook.deals.map (Deal.opening · i false))
    (hsound : ∀ gate ∈ gates,
      gate.Sound (Board.Faithful playbook.deals) (playbook.terms i fails).fails)
    (hbatch : before ++ batch <+: gates)
    (hrecords : desk.ledger.records = books.records) (hboard : desk.board = books.board)
    (hrounds : desk.rounds = .start (.circuit number) table.parties) :
    (Bench.process (table.party i)).Meets ((playbook.terms i fails).contract (fun bench =>
      bench.desk.board) fun _ now bench => ∃ exchanges position,
        playbook.AtPosition i fails exchanges position (before ++ batch) now
          { books with
            records := bench.desk.ledger.records
            board := bench.desk.board
            staged := books.staged ++ (bench.slots.map Slot.gate).filter Gate.revealsOutput }) past
      ⟨batch.map fun gate => ⟨gate, false⟩, desk⟩ := by
  have hnext : playbook.OpensNextDeals i position (CircuitGate.openings batch) := by
    have hall := CircuitGate.openings_batch hopenings hbatch
    rwa [h.opened_eq] at hall
  have hgates : ∀ gate ∈ batch,
      gate.Sound (Board.Faithful playbook.deals) (playbook.terms i fails).fails := by
    intro gate hgate
    exact hsound gate (hbatch.subset (List.mem_append_right _ hgate))
  have hprocess := Bench.meets_process_openings (hnext.suits_batch h.between) h.exchanged hgates
    (hboard ▸ h.board) hrounds
  apply hprocess.mono_terms
  rintro _ now bench ⟨made, new, hopens, hexchanged, hlined⟩
  obtain ⟨hbetween, hnew⟩ := hnext.of_opens hopens
  refine ⟨exchanges ++ made, _, hexchanged, h.between.append hbetween, h.step_eq, ?_, ?_, ?_, h.source_eq,
    hlined.board, ?_⟩
  · exact h.checked_le.trans (Nat.le_add_right ..)
  · rw [CircuitGate.openings_append, List.length_append, h.opened_eq]
  · dsimp only
    rw [hlined.records_eq, hrecords, h.records_eq, hnew, records_append h.checked_le]
  · intro gate hgate
    rcases List.mem_append.mp hgate with hstaged | hnew
    · exact h.staged gate hstaged
    · obtain ⟨slot, hslot, rfl⟩ := List.mem_map.mp (List.mem_filter.mp hnew).1
      exact hlined.sound slot hslot

/-! ## Checks -/

section Check

variable {v : Verifier} {config : Config} {own : Draws} {source : Source}

/-- A check whose draw ends can pass, after the exchanges of the playbook. -/
theorem AtPosition.exists_ends_execute
    (h : playbook.AtPosition i fails exchanges position before past books)
    (hne : books.records ≠ [])
    (hcheck : v.check = MacCheck.start books.checks books.records table.modulus config)
    (hgenerator : v.generator = books.generator)
    (hdraw : table.modulus.drawCheck books.generator = some (own, source)) :
    ∃ final, (Verifier.execute (table.party i)).Ends v
        (conversation (table.party i) (playbook.checkExchanges position books.checks)) (.ok ()) final ∧
      playbook.sourceAfter i (position.checks + 1) = some final.generator := by
  rw [h.records_eq] at hne hcheck
  obtain ⟨rfl, hsource⟩ := draws_eq h.source_eq hdraw
  have hown : table.modulus.drawCheck v.generator =
      some (playbook.draws position.checks i, source) := by
    rw [hgenerator, hdraw]
  obtain ⟨final, hends, -, rfl⟩ := @Table.exists_ends_check table i books.checks
    (playbook.records position) (playbook.draws position.checks) v config source hne
    (fun q hq => reduced_records hq) (fun q _ => reduced_draws) hcheck hown
  rw [verdict_records] at hends
  exact ⟨final, hends, hsource⟩

/-- In a check, whatever comes from a peer in the right phase is what the playbook says. -/
theorem AtPosition.heard_eq (h : playbook.AtPosition i fails exchanges position before past books)
    {q : PartyId}
    {now : List Move} {front back : List Packet} {packet heard : Packet}
    (hassumes : (playbook.terms i fails).assumes now)
    (hexpected : receivedFrom q (conversation (table.party i)
      (playbook.checkExchanges position number)) = front ++ packet :: back)
    (hheard : receivedFrom q (talkOf now) = receivedFrom q (talkOf past) ++ front ++ [heard])
    (hphase : heard.phase = packet.phase) : heard = packet := by
  by_cases hq : q ∈ (table.party i).peers
  · rw [receivedFrom_conversation hq] at hexpected
    obtain ⟨hlt, hne⟩ := Table.mem_peers.mp hq
    have hordered := hassumes q hlt hne
    rw [hheard, h.exchanged.receivedFrom q hq] at hordered
    exact h.between.heard_eq hlt h.step_eq hexpected hordered hphase
  · rw [receivedFrom_conversation_of_notMem hq] at hexpected
    simp at hexpected

theorem AtPosition.afterCheck (h : playbook.AtPosition i fails exchanges position before past books)
    (htalk : talkOf now = talkOf past ++
      conversation (table.party i) (playbook.checkExchanges position number))
    (hsource : playbook.sourceAfter i (position.checks + 1) = some source) (checks : UInt64) :
    playbook.AtPosition i fails (exchanges ++ playbook.checkExchanges position number)
      position.afterCheck before now
      { books with records := [], generator := source, checks := checks } where
  exchanged := h.exchanged.conversation htalk
  between := h.between.append (exchangesBetween_check h.step_eq)
  step_eq := rfl
  checked_le := Nat.le_refl _
  opened_eq := h.opened_eq
  records_eq := records_afterCheck.symm
  source_eq := hsource
  board := h.board
  staged := h.staged

theorem AtPosition.meets_execute
    (h : playbook.AtPosition i fails exchanges position before past books)
    (hne : books.records ≠ []) (hgenerator : v.generator = books.generator)
    (hcheck : v.check = MacCheck.start books.checks books.records table.modulus config) :
    (Verifier.execute (table.party i)).Meets ((playbook.terms i fails).contract (fun _ => books.board)
      fun _ now v' => ∃ exchanges position, playbook.AtPosition i fails exchanges position before now
        { books with
          records := []
          generator := v'.generator
          checks := books.checks + 1 }) past v := by
  cases hdraw : table.modulus.drawCheck books.generator with
  | none =>
    have hstuck : table.modulus.draw v.generator = none := by
      rw [hgenerator]
      apply Option.eq_none_iff_forall_ne_some.mpr
      rintro ⟨own, source⟩ hown
      obtain ⟨draws, source', hdraws⟩ := Modulus.exists_drawCheck hown
      cases hdraw.symm.trans hdraws
    have hfresh : Verifier.Fresh (table.party i) v.check := hcheck ▸ Verifier.fresh_start hne
    have hsilent : ∀ past, (playbook.terms i fails).during past books.board →
        (playbook.terms i fails).during (past ++ [Move.inner none]) books.board :=
      fun _ => terms_during_inner
    exact hfresh.meets_execute_of_draw_eq_none hstuck h.during hsilent
  | some drawn =>
    obtain ⟨own, source⟩ := drawn
    obtain ⟨final, hends, hsource⟩ := h.exists_ends_execute hne hcheck hgenerator hdraw
    have hvigilant : (Verifier.execute (table.party i)).Vigilant fun _ => True :=
      Verifier.vigilant_execute fun _ _ _ => trivial
    have hmeets := hvigilant.meets hends fun q now front packet back heard => h.heard_eq
    apply hmeets.mono
    · intro now _ hsent
      constructor
      · intro q hlt hne
        have hq := Table.mem_peers.mpr ⟨hlt, hne⟩
        have hfront := hsent q
        rw [h.exchanged.sentTo q hq, sentTo_conversation hq, ← List.map_append] at hfront
        exact ((h.between.append (exchangesBetween_check h.step_eq)) i i.isLt).1.of_front hfront
      · exact h.board
    · rintro _ now _ - ⟨-, rfl, htalk⟩
      exact ⟨_, _, h.afterCheck htalk hsource _⟩
    · intro error _ _ _ herror
      exact .inl herror

end Check

/-! ## Evaluations -/

theorem AtPosition.release (h : playbook.AtPosition i fails exchanges position before past books) :
    playbook.AtPosition i fails exchanges position before past books.release := by
  have hboard : books.release.board.Faithful playbook.deals := by
    apply List.foldlRecOn books.staged _ h.board
    intro board hboard gate hgate
    exact (h.staged gate hgate).release hboard
  exact { h with board := hboard, staged := nofun }

/-- Every part of an evaluation of dealt gates goes by the playbook. -/
theorem booksInvariant (config : Config)
    (hopenings : CircuitGate.openings gates = playbook.deals.map (Deal.opening · i false))
    (hsound : ∀ gate ∈ gates,
      gate.Sound (Board.Faithful playbook.deals) (playbook.terms i fails).fails) :
    BooksInvariant (playbook.terms i fails) (table.party i) config gates fun before now books =>
      ∃ exchanges position, playbook.AtPosition i fails exchanges position before now books where
  during := fun ⟨_, _, h⟩ => h.during
  abort := terms_during_inner
  idle := fun _ ⟨exchanges, position, h⟩ => ⟨exchanges, position, h.inner _⟩
  check := fun ⟨_, _, h⟩ => (h.inner _).meets_execute
  batch := fun ⟨_, _, h⟩ => h.meets_process hopenings hsound
  release := fun ⟨exchanges, position, h⟩ _ => ⟨exchanges, position, h.release⟩

/-- A party that evaluates its dealt gates keeps its promise. -/
theorem meets_evaluate {config : Config} {dealt : List DealtGate}
    (hdeals : playbook.deals = DealtGate.deals dealt)
    (hfails : ∀ gate ∈ dealt, ∀ error, gate.Raises playbook.deals i error → fails error) :
    (Evaluator.evaluate (.standard (table.party i) config) (dealt.map (DealtGate.gate i))).Meets
      ((playbook.terms i fails).contract Evaluator.board fun _ _ _ => True) []
      (.start .start (playbook.source i) .empty) := by
  have hopenings : CircuitGate.openings (dealt.map (DealtGate.gate i)) =
      playbook.deals.map (Deal.opening · i false) := hdeals ▸ DealtGate.openings_map_gate
  have hsound : ∀ gate ∈ dealt.map (DealtGate.gate i),
      gate.Sound (Board.Faithful playbook.deals) (playbook.terms i fails).fails := by
    intro _ hmem
    obtain ⟨gate, hgate, rfl⟩ := List.mem_map.mp hmem
    apply DealtGate.sound_gate
    intro error herror
    exact .inr (hfails gate hgate error herror)
  have hstart : playbook.AtPosition i fails [] {} [] []
      (Evaluator.books (.start .start (playbook.source i) .empty)) :=
    { exchanged := exchanged_nil
      between := .nil
      step_eq := rfl
      checked_le := Nat.le_refl _
      opened_eq := rfl
      records_eq := rfl
      source_eq := rfl
      board := Board.faithful_empty
      staged := nofun }
  have hmeets := (booksInvariant config hopenings hsound).meets_evaluate rfl rfl ⟨[], {}, hstart⟩
  exact hmeets.mono_terms fun _ _ _ _ => trivial

end Playbook
end AuthenticatedMpc
