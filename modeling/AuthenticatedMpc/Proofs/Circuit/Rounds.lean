import AuthenticatedMpc.Proofs.Circuit.Dealing
import AuthenticatedMpc.Proofs.Rounds.Batch

/-!
# A batch in an honest run

In round zero every party broadcasts its share of each deal of the batch, in round one it takes the
shares of the others; further rounds are those of gates that only compute. So a batch takes one
exchange, or none if nothing is opened.
-/

namespace AuthenticatedMpc

/-- The boards of the first rounds, the last of them first. -/
def history (sights : Nat → Board) (count : Nat) : List Board :=
  ((List.range count).map sights).reverse

theorem history_succ (sights : Nat → Board) (count : Nat) :
    history sights (count + 1) = sights count :: history sights count := by
  simp [history, List.range_succ]

/-- A gate of a batch, with the board that it meets in each round and the round in which it is
done. -/
structure Item where
  gate : DealtGate
  sights : Nat → Board
  last : Nat

namespace Item

variable (item : Item) (i : PartyId) (round : Nat)

def gateAt : CircuitGate :=
  match item.gate with
  | .opening deal => .opening (deal.opening i (decide (1 < round)))
  | .output deal => .output (deal.opening i (decide (1 < round)))
  | .compute revealsOutput act =>
    .compute ⟨revealsOutput, act i, history item.sights (min round (item.last + 1))⟩

def slotAt : Slot CircuitGate := ⟨item.gateAt i round, decide (item.last < round)⟩

/-- The gate is done in its last round and not before. -/
def Runs : Prop :=
  match item.gate with
  | .compute _ act =>
    (∀ k < item.last, act i (history item.sights (k + 1)) = .ok .moreRounds) ∧
      act i (history item.sights (item.last + 1)) = .ok .done
  | _ => item.last = 1

variable {item i round}

theorem slotAt_succ (h : item.Runs i) (hlt : item.last < round) :
    item.slotAt i (round + 1) = item.slotAt i round := by
  obtain ⟨gate, sights, last⟩ := item
  have hdone : decide (last < round + 1) = decide (last < round) := by
    rw [decide_eq_decide]
    dsimp only at hlt
    omega
  cases gate with
  | opening | output =>
    obtain rfl : last = 1 := h
    have hopened : decide (1 < round + 1) = decide (1 < round) := hdone
    simp only [slotAt, gateAt, hopened]
  | compute =>
    have hmin : min (round + 1) (last + 1) = min round (last + 1) := by
      dsimp only at hlt
      omega
    simp only [slotAt, gateAt, hmin, hdone]

end Item

section Passes

variable {table : Table} {i : Fin table.parties} {round : Nat} {items : List Item} {item : Item}
  {phase : Phase} {desk desk' : Desk Board} {talk : List Signal}

theorem CircuitGate.ends_compute {me : Party} {revealsOutput : Bool}
    {act : List Board → Except Error Status} {seen : List Board} {status : Status}
    (hact : act (desk.board :: seen) = .ok status) :
    (Gate.evaluate me round (CircuitGate.compute ⟨revealsOutput, act, seen⟩)).Ends desk []
      (.ok (.compute ⟨revealsOutput, act, desk.board :: seen⟩, status)) desk := by
  have hgate : (LocalGate.evaluate ⟨revealsOutput, act, seen⟩).Ends desk []
      (.ok (⟨revealsOutput, act, desk.board :: seen⟩, status)) desk := by
    rw [LocalGate.evaluate, Program.ends_get_bind]
    dsimp only
    rw [hact]
    exact ⟨rfl, rfl, rfl⟩
  exact hgate.bind ⟨rfl, rfl, rfl⟩

/-- A gate that is done, or that only computes, neither talks nor changes the desk. -/
theorem Pass.cons_quiet
    (rest : Pass (table.party i) round (items.map (Item.slotAt · i round)) desk talk
      (items.map (Item.slotAt · i (round + 1))) desk')
    (h : item.Runs i) (hquiet : item.gate.deal? ≠ none → item.last < round)
    (hboard : desk.board = item.sights round) :
    Pass (table.party i) round ((item :: items).map (Item.slotAt · i round)) desk talk
      ((item :: items).map (Item.slotAt · i (round + 1))) desk' := by
  rw [List.map_cons, List.map_cons]
  by_cases hlt : item.last < round
  · rw [Item.slotAt_succ h hlt, Item.slotAt, decide_eq_true hlt]
    exact .skip rest
  · obtain ⟨gate, sights, last⟩ := item
    dsimp only at hlt hboard
    cases gate with
    | opening | output => exact absurd (hquiet (Option.some_ne_none _)) hlt
    | compute revealsOutput act =>
      have hle : round ≤ last := not_lt.mp hlt
      have hact : act i (desk.board :: history sights round) =
          .ok (if round = last then .done else .moreRounds) := by
        rw [hboard, ← history_succ]
        split
        · next heq => rw [heq, h.2]
        · next hne => rw [h.1 round (lt_of_le_of_ne hle hne)]
      have hbefore : Item.slotAt ⟨.compute revealsOutput act, sights, last⟩ i round =
          ⟨.compute ⟨revealsOutput, act i, history sights round⟩, false⟩ := by
        simp [Item.slotAt, Item.gateAt, hlt, Nat.min_eq_left (Nat.le_succ_of_le hle)]
      have hafter : Item.slotAt ⟨.compute revealsOutput act, sights, last⟩ i (round + 1) =
          ⟨.compute ⟨revealsOutput, act i, desk.board :: history sights round⟩,
            decide ((if round = last then Status.done else .moreRounds) = .done)⟩ := by
        have hdone : last < round + 1 ↔ round = last := by omega
        rw [hboard, ← history_succ]
        simp [Item.slotAt, Item.gateAt, hdone, Nat.min_eq_left (Nat.succ_le_succ hle)]
      rw [hbefore, hafter]
      exact .evaluate (CircuitGate.ends_compute hact) rest

theorem Pass.quiet (hruns : ∀ item ∈ items, item.Runs i)
    (hquiet : ∀ item ∈ items, item.gate.deal? ≠ none → item.last < round)
    (hboard : ∀ item ∈ items, item.sights round = desk.board) :
    Pass (table.party i) round (items.map (Item.slotAt · i round)) desk []
      (items.map (Item.slotAt · i (round + 1))) desk := by
  induction items with
  | nil => exact .nil desk
  | cons item items ih =>
    obtain ⟨hrun, hruns⟩ := List.forall_mem_cons.mp hruns
    obtain ⟨hfirst, hquiet⟩ := List.forall_mem_cons.mp hquiet
    obtain ⟨hsight, hboard⟩ := List.forall_mem_cons.mp hboard
    exact (ih hruns hquiet hboard).cons_quiet hrun hfirst hsight.symm

/-! ### Openings -/

/-- The desk in a round in which these messages were broadcast so far. -/
def Desk.posting (desk : Desk Board) (me : Party) (phase : Phase) (messages : List Payload) :
    Desk Board :=
  { desk with
    rounds := .of phase me.parties (fun q => if q = me.id then [] else messages) (fun _ => [])
      fun _ => false }

theorem Opening.ends_post {me : Party} {opening : Opening} {messages : List Payload} :
    (opening.evaluate me 0).Ends (desk.posting me phase messages) [] (.ok (opening, .moreRounds))
      (desk.posting me phase (messages ++ [Modulus.encode opening.share.value])) := by
  rw [Opening.evaluate, if_pos rfl]
  refine (Desk.ends_broadcast.mpr ⟨rfl, rfl, ?_⟩ : Program.Ends _ _ [] _ _).bind ⟨rfl, rfl, rfl⟩
  simp only [Desk.posting]
  congr 2
  funext q
  split <;> rfl

/-- A gate that opens a deal broadcasts the share of the party. -/
theorem Item.ends_post {deal : Deal} (hdeal : item.gate.deal? = some deal) {me : Party}
    {messages : List Payload} :
    (Gate.evaluate me 0 (item.gateAt i 0)).Ends (desk.posting me phase messages) []
      (.ok (item.gateAt i 1, .moreRounds))
      (desk.posting me phase (messages ++ [deal.message i])) := by
  obtain ⟨gate, sights, last⟩ := item
  cases gate with
  | opening =>
    cases hdeal
    exact Opening.ends_post.bind ⟨rfl, rfl, rfl⟩
  | output =>
    cases hdeal
    exact Opening.ends_post.bind ⟨rfl, rfl, rfl⟩
  | compute => cases hdeal

/-- A gate that has the shares of all parties records their sum and publishes it if it is meant for
the computation. -/
theorem Item.ends_read {deal : Deal} (hdeal : item.gate.deal? = some deal) {me : Party}
    (hgather : (Desk.gather me (fun _ payload => (me.modulus.decode payload).mapError .encoding)
      me.peers (deal.share i).value).Ends desk talk (.ok deal.value) desk') :
    (Gate.evaluate me 1 (item.gateAt i 1)).Ends desk talk (.ok (item.gateAt i 2, .done))
      { desk' with
        ledger := desk'.ledger.append deal.value (deal.share i).mac
        board := item.gate.publish desk'.board } := by
  have hopening : (Opening.evaluate me 1 (deal.opening i false)).Ends desk talk
      (.ok (deal.opening i true, .done))
      { desk' with ledger := desk'.ledger.append deal.value (deal.share i).mac } := by
    rw [Opening.evaluate, if_neg Nat.one_ne_zero, ← List.append_nil talk]
    exact hgather.bind ⟨rfl, rfl, rfl⟩
  obtain ⟨gate, sights, last⟩ := item
  rw [← List.append_nil talk]
  cases gate with
  | opening =>
    cases hdeal
    exact hopening.bind ⟨rfl, rfl, rfl⟩
  | output =>
    cases hdeal
    exact hopening.bind ⟨rfl, rfl, rfl⟩
  | compute => cases hdeal

/-! ### Passes -/

def Item.deals (items : List Item) : List Deal := items.filterMap (·.gate.deal?)

theorem Item.deals_cons_none (h : item.gate.deal? = none) :
    deals (item :: items) = deals items := List.filterMap_cons_none h

theorem Item.deals_cons_some {deal : Deal} (h : item.gate.deal? = some deal) :
    deals (item :: items) = deal :: deals items := List.filterMap_cons_some h

theorem Item.last_eq {deal : Deal} (hdeal : item.gate.deal? = some deal) (h : item.Runs i) :
    item.last = 1 := by
  obtain ⟨gate, sights, last⟩ := item
  cases gate with
  | opening | output => exact h
  | compute => cases hdeal

theorem Pass.cons_deal {deal : Deal} {status : Status} {middle : Desk Board}
    {front back : List Signal}
    (rest : Pass (table.party i) round (items.map (Item.slotAt · i round)) middle back
      (items.map (Item.slotAt · i (round + 1))) desk')
    (hdeal : item.gate.deal? = some deal) (h : item.Runs i)
    (hstatus : status = .done ↔ round = 1) (hround : round ≤ 1)
    (first : (Gate.evaluate (table.party i) round (item.gateAt i round)).Ends desk front
      (.ok (item.gateAt i (round + 1), status)) middle) :
    Pass (table.party i) round ((item :: items).map (Item.slotAt · i round)) desk (front ++ back)
      ((item :: items).map (Item.slotAt · i (round + 1))) desk' := by
  have hlast := item.last_eq hdeal h
  have hbefore : item.slotAt i round = ⟨item.gateAt i round, false⟩ := by
    rw [Item.slotAt, decide_eq_false (by omega)]
  have hafter : item.slotAt i (round + 1) =
      ⟨item.gateAt i (round + 1), decide (status = .done)⟩ := by
    have hdone : item.last < round + 1 ↔ status = .done := by
      rw [hstatus]
      omega
    rw [Item.slotAt, decide_eq_decide.mpr hdone]
  rw [List.map_cons, List.map_cons, hbefore, hafter]
  exact .evaluate first rest

/-- The boards of the rounds: before the batch, in round one, and from then on. -/
def sightsFrom (start now last : Board) : Nat → Board
  | 0 => start
  | 1 => now
  | _ => last

/-- In round one a gate meets the board that the gates before it leave. -/
def Laid (start last : Board) : Board → List Item → Prop
  | _, [] => True
  | now, item :: items =>
    item.sights = sightsFrom start now last ∧ Laid start last (item.gate.publish now) items

namespace Laid

variable {start now last : Board}

theorem exists_sights (h : Laid start last now items) :
    ∀ item ∈ items, ∃ now', item.sights = sightsFrom start now' last := by
  induction items generalizing now with
  | nil => exact fun _ hitem => by cases hitem
  | cons item items ih =>
    exact List.forall_mem_cons.mpr ⟨⟨now, h.1⟩, ih h.2⟩

theorem sights_zero (h : Laid start last now items) : ∀ item ∈ items, item.sights 0 = start := by
  intro item hitem
  obtain ⟨_, hsights⟩ := h.exists_sights item hitem
  rw [hsights]
  rfl

theorem sights_of_two_le (h : Laid start last now items) (hround : 2 ≤ round) :
    ∀ item ∈ items, item.sights round = last := by
  intro item hitem
  obtain ⟨_, hsights⟩ := h.exists_sights item hitem
  obtain ⟨round, rfl⟩ := Nat.exists_eq_add_of_le' hround
  rw [hsights]
  rfl

theorem sights_eq (h : Laid start start start items) (hdeals : Item.deals items = [])
    (round : Nat) : ∀ item ∈ items, item.sights round = start := by
  induction items with
  | nil => exact fun _ hitem => by cases hitem
  | cons item items ih =>
    obtain ⟨hsights, hlaid⟩ := h
    have hnone : item.gate.deal? = none :=
      List.filterMap_eq_nil_iff.mp hdeals item (List.mem_cons_self ..)
    rw [Item.deals_cons_none hnone] at hdeals
    rw [DealtGate.publish_of_deal?_eq_none hnone] at hlaid
    refine List.forall_mem_cons.mpr ⟨?_, ih hlaid hdeals⟩
    rw [hsights]
    match round with
    | 0 | 1 | _ + 2 => rfl

end Laid

theorem Pass.post (hruns : ∀ item ∈ items, item.Runs i)
    (hboard : ∀ item ∈ items, item.sights 0 = desk.board) (messages : List Payload) :
    Pass (table.party i) 0 (items.map (Item.slotAt · i 0))
      (desk.posting (table.party i) phase messages) [] (items.map (Item.slotAt · i 1))
      (desk.posting (table.party i) phase
        (messages ++ (Item.deals items).map (Deal.message · i))) := by
  induction items generalizing messages with
  | nil => simpa [Item.deals] using Pass.nil _
  | cons item items ih =>
    obtain ⟨hrun, hruns⟩ := List.forall_mem_cons.mp hruns
    obtain ⟨hfirst, hboard⟩ := List.forall_mem_cons.mp hboard
    cases hdeal : item.gate.deal? with
    | none =>
      rw [Item.deals_cons_none hdeal]
      exact (ih hruns hboard messages).cons_quiet hrun (absurd hdeal) hfirst.symm
    | some deal =>
      have hmessages : messages ++ (Item.deals (item :: items)).map (Deal.message · i) =
          messages ++ [deal.message i] ++ (Item.deals items).map (Deal.message · i) := by
        rw [Item.deals_cons_some hdeal, List.map_cons, List.append_cons]
      rw [hmessages]
      exact (ih hruns hboard _).cons_deal hdeal hrun (by decide) (Nat.zero_le 1)
        (Item.ends_post hdeal)

def Desk.afterOpening (desk : Desk Board) (i : PartyId) (gate : DealtGate) (deal : Deal) :
    Desk Board :=
  { desk with
    ledger := desk.ledger.append deal.value (deal.share i).mac
    board := gate.publish desk.board }

def Desk.opened (desk : Desk Board) (i : PartyId) (items : List Item) : Desk Board :=
  { desk with
    ledger := ⟨desk.ledger.records ++ (Item.deals items).map (Deal.record · i)⟩
    board := items.foldl (fun board item => item.gate.publish board) desk.board }

theorem Desk.opened_cons {deal : Deal} (hdeal : item.gate.deal? = some deal) :
    desk.opened i (item :: items) = (desk.afterOpening i item.gate deal).opened i items := by
  simp [opened, afterOpening, Item.deals_cons_some hdeal, Ledger.append, Deal.record]

theorem Desk.opened_cons_none (h : item.gate.deal? = none) :
    desk.opened i (item :: items) = desk.opened i items := by
  rw [opened, Item.deals_cons_none h, List.foldl_cons, DealtGate.publish_of_deal?_eq_none h, opened]

theorem Desk.opened_of_deals_eq_nil (h : Item.deals items = []) : desk.opened i items = desk := by
  induction items with
  | nil => simp [opened, Item.deals]
  | cons item items ih =>
    have hnone : item.gate.deal? = none :=
      List.filterMap_eq_nil_iff.mp h item (List.mem_cons_self ..)
    rw [opened_cons_none hnone, ih (Item.deals_cons_none hnone ▸ h)]

/-- Round one, once the packets of the peers are there: every deal is opened. -/
theorem Pass.read_held (hvalid : ∀ deal ∈ Item.deals items, deal.Valid table)
    (hruns : ∀ item ∈ items, item.Runs i) {start last : Board}
    (hlaid : Laid start last desk.board items) :
    Pass (table.party i) 1 (items.map (Item.slotAt · i 1))
      (desk.afterReading (table.party i) phase fun q => (Item.deals items).map (Deal.message · q))
      [] (items.map (Item.slotAt · i 2))
      ((desk.opened i items).afterReading (table.party i) phase fun _ => []) := by
  induction items generalizing desk with
  | nil => simpa [Item.deals, Desk.opened] using Pass.nil _
  | cons item items ih =>
    obtain ⟨hrun, hruns⟩ := List.forall_mem_cons.mp hruns
    obtain ⟨hsights, hlaid⟩ := hlaid
    cases hdeal : item.gate.deal? with
    | none =>
      rw [Item.deals_cons_none hdeal] at hvalid ⊢
      rw [DealtGate.publish_of_deal?_eq_none hdeal] at hlaid
      rw [Desk.opened_cons_none hdeal]
      exact (ih hvalid hruns hlaid).cons_quiet hrun (absurd hdeal) (by rw [hsights]; rfl)
    | some deal =>
      rw [Item.deals_cons_some hdeal] at hvalid
      obtain ⟨hdealt, hvalid⟩ := List.forall_mem_cons.mp hvalid
      have hgather := @Desk.ends_gather_fetched _ phase (table.party i) desk
        (fun _ payload => (table.modulus.decode payload).mapError .encoding) deal.message
        (fun q => (Item.deals items).map (Deal.message · q)) (fun q => (deal.share q).value)
        (fun q hq => by rw [hdealt.decode_message (Table.mem_peers.mp hq).1]; rfl)
        (deal.share i).value
      rw [hdealt.foldl_add] at hgather
      rw [Item.deals_cons_some hdeal, Desk.opened_cons hdeal]
      have hrest := @ih (desk.afterOpening i item.gate deal) hvalid hruns hlaid
      exact hrest.cons_deal hdeal hrun (by decide) le_rfl (Item.ends_read hdeal hgather)

theorem Pass.read (hvalid : ∀ deal ∈ Item.deals items, deal.Valid table)
    (hruns : ∀ item ∈ items, item.Runs i) {start last : Board}
    (hlaid : Laid start last desk.board items) (hne : Item.deals items ≠ []) :
    Pass (table.party i) 1 (items.map (Item.slotAt · i 1))
      { desk with rounds := .start phase table.parties }
      ((table.party i).peers.map fun q =>
        .received q ⟨phase, (Item.deals items).map (Deal.message · q)⟩)
      (items.map (Item.slotAt · i 2))
      ((desk.opened i items).afterReading (table.party i) phase fun _ => []) := by
  induction items generalizing desk with
  | nil => exact absurd rfl hne
  | cons item items ih =>
    obtain ⟨hrun, hruns⟩ := List.forall_mem_cons.mp hruns
    obtain ⟨hsights, hlaid⟩ := hlaid
    cases hdeal : item.gate.deal? with
    | none =>
      rw [Item.deals_cons_none hdeal] at hvalid hne ⊢
      rw [DealtGate.publish_of_deal?_eq_none hdeal] at hlaid
      rw [Desk.opened_cons_none hdeal]
      exact (ih hvalid hruns hlaid hne).cons_quiet hrun (absurd hdeal) (by rw [hsights]; rfl)
    | some deal =>
      rw [Item.deals_cons_some hdeal] at hvalid
      obtain ⟨hdealt, hvalid⟩ := List.forall_mem_cons.mp hvalid
      have hgather := (@Desk.ends_gather _ phase (table.party i) desk _ _
        (fun _ payload => (table.modulus.decode payload).mapError .encoding) (deal.share i).value
        deal.value).mpr ⟨deal.message, fun q => (Item.deals items).map (Deal.message · q),
          fun q => (deal.share q).value, rfl, fun q hq => by
            rw [hdealt.decode_message (Table.mem_peers.mp hq).1]
            rfl, hdealt.foldl_add.symm, rfl⟩
      have hrest := @read_held _ _ items phase (desk.afterOpening i item.gate deal) hvalid hruns _ _
        hlaid
      have hpass :=
        hrest.cons_deal hdeal hrun (by decide) le_rfl (Item.ends_read hdeal hgather)
      rw [List.append_nil] at hpass
      rw [Item.deals_cons_some hdeal, Desk.opened_cons hdeal]
      exact hpass

end Passes

/-! ## Whole batches -/

section Batch

variable {table : Table} {i : Fin table.parties} {round limit : Nat} {items : List Item}
  {phase : Phase} {desk : Desk Board}

def openingExchange (phase : Phase) : List Deal → List (PartyId → Packet)
  | [] => []
  | deal :: deals => [fun q => ⟨phase, (deal :: deals).map (Deal.message · q)⟩]

def Item.bench (items : List Item) (i : Fin table.parties) (phase : Phase) (desk : Desk Board)
    (round : Nat) : Bench CircuitGate Board :=
  ⟨items.map (Item.slotAt · i round), { desk with rounds := .start phase table.parties }⟩

theorem Item.isDone_iff :
    (bench items i phase desk round).isDone = true ↔ ∀ item ∈ items, item.last < round := by
  simp [bench, Bench.isDone, slotAt]

theorem Bench.ends_runRound_quiet (hruns : ∀ item ∈ items, item.Runs i)
    (hquiet : ∀ item ∈ items, item.gate.deal? ≠ none → item.last < round)
    (hboard : ∀ item ∈ items, item.sights round = desk.board) :
    (runRound (table.party i) round).Ends (Item.bench items i phase desk round) [] (.ok ())
      (Item.bench items i phase desk (round + 1)) := by
  have hpass := @Pass.quiet table i round items { desk with rounds := .start phase table.parties }
    hruns hquiet hboard
  exact hpass.ends_runRound RoundBuffer.ends_ship_start

variable (phase) in
theorem Bench.ends_runRound_share (hruns : ∀ item ∈ items, item.Runs i)
    (hboard : ∀ item ∈ items, item.sights 0 = desk.board) (hne : Item.deals items ≠ []) :
    (runRound (table.party i) 0).Ends (Item.bench items i phase desk 0)
      ((table.party i).peers.map (.sent · ⟨phase, (Item.deals items).map (Deal.message · i)⟩))
      (.ok ()) (Item.bench items i phase desk 1) := by
  have hpass := @Pass.post table i items phase desk hruns hboard []
  have hstart : desk.posting (table.party i) phase [] =
      { desk with rounds := .start phase table.parties } := by
    rw [Desk.posting, RoundBuffer.start_eq_of]
    congr 2
    funext q
    exact ite_self _
  rw [hstart, List.nil_append] at hpass
  exact hpass.ends_runRound ((RoundBuffer.ends_ship_posted (mt List.map_eq_nil_iff.mp hne)).mpr
    ⟨rfl, fun _ _ => rfl, rfl⟩)

variable (phase) in
theorem Bench.ends_runRound_open (hvalid : ∀ deal ∈ Item.deals items, deal.Valid table)
    (hruns : ∀ item ∈ items, item.Runs i) {start last : Board}
    (hlaid : Laid start last desk.board items) (hne : Item.deals items ≠ []) :
    (runRound (table.party i) 1).Ends (Item.bench items i phase desk 1)
      ((table.party i).peers.map fun q =>
        .received q ⟨phase, (Item.deals items).map (Deal.message · q)⟩)
      (.ok ()) (Item.bench items i phase (desk.opened i items) 2) := by
  have hpass := @Pass.read table i items phase desk hvalid hruns _ _ hlaid hne
  have hround := hpass.ends_runRound
    (RoundBuffer.ends_ship_silent.mpr ⟨rfl, fun _ _ => ite_self _, rfl⟩)
  rw [List.append_nil] at hround
  exact hround

variable (phase) in
theorem Bench.ends_runRounds_quiet (hruns : ∀ item ∈ items, item.Runs i)
    (hquiet : ∀ item ∈ items, item.gate.deal? ≠ none → item.last < round)
    (hboard : ∀ r ≥ round, ∀ item ∈ items, item.sights r = desk.board) {count : Nat}
    (hlast : ∀ item ∈ items, item.last < round + count) (hlimit : count < limit) :
    ∃ rounds ≥ round, (∀ item ∈ items, item.last < rounds) ∧
      (runRounds (table.party i) limit round).Ends (Item.bench items i phase desk round) []
        (.ok rounds) (Item.bench items i phase desk rounds) := by
  obtain ⟨limit, rfl⟩ := Nat.exists_eq_succ_of_ne_zero (Nat.ne_zero_of_lt hlimit)
  induction count generalizing round limit with
  | zero =>
    exact ⟨round, le_rfl, hlast,
      (ends_runRounds_done (Item.isDone_iff.mpr hlast)).mpr ⟨rfl, rfl, rfl⟩⟩
  | succ count ih =>
    cases hdone : (Item.bench items i phase desk round).isDone with
    | true =>
      exact ⟨round, le_rfl, Item.isDone_iff.mp hdone,
        (ends_runRounds_done hdone).mpr ⟨rfl, rfl, rfl⟩⟩
    | false =>
      obtain ⟨limit, rfl⟩ := Nat.exists_eq_succ_of_ne_zero (by omega : limit ≠ 0)
      obtain ⟨rounds, hle, hrounds, hends⟩ := ih
        (fun item hitem hdeal => Nat.lt_succ_of_lt (hquiet item hitem hdeal))
        (fun r hr => hboard r (Nat.le_of_succ_le hr))
        (fun item hitem => by have := hlast item hitem; omega) limit (by omega)
      exact ⟨rounds, Nat.le_of_succ_le hle, hrounds, (ends_runRounds_succ hdone).mpr
        ⟨_, [], [], rfl, ends_runRound_quiet hruns hquiet (hboard round le_rfl), hends⟩⟩

/-- A batch takes one exchange, or none if it opens nothing, and then all its gates are done. -/
theorem Bench.ends_process_items (hvalid : ∀ deal ∈ Item.deals items, deal.Valid table)
    (hruns : ∀ item ∈ items, item.Runs i)
    (hlaid : Laid desk.board (desk.opened i items).board desk.board items)
    (hlimit : ∀ item ∈ items, item.last + 1 < roundLimit) :
    ∃ rounds, (∀ item ∈ items, item.last < rounds) ∧
      (process (table.party i)).Ends (Item.bench items i phase desk 0)
        (conversation (table.party i) (openingExchange phase (Item.deals items))) (.ok rounds)
        (Item.bench items i phase (desk.opened i items) rounds) := by
  cases hdeals : Item.deals items with
  | nil =>
    have hopened : desk.opened i items = desk := Desk.opened_of_deals_eq_nil hdeals
    have hquiet : ∀ item ∈ items, item.gate.deal? ≠ none → item.last < 0 :=
      fun item hitem hdeal => absurd (List.filterMap_eq_nil_iff.mp hdeals item hitem) hdeal
    have hlast : ∀ item ∈ items, item.last < 0 + (roundLimit - 1) := by
      intro item hitem
      have := hlimit item hitem
      omega
    rw [hopened] at hlaid ⊢
    obtain ⟨rounds, -, hrounds, hends⟩ := ends_runRounds_quiet phase hruns hquiet
      (fun r _ => hlaid.sights_eq hdeals r) hlast (Nat.sub_lt (by decide) Nat.one_pos)
    exact ⟨rounds, hrounds, hends⟩
  | cons deal deals =>
    have hne : Item.deals items ≠ [] := by simp [hdeals]
    have hbusy : ∀ round ≤ 1, ∀ desk, (Item.bench items i phase desk round).isDone = false := by
      obtain ⟨item, hitem, hdeal⟩ := List.mem_filterMap.mp
        (show deal ∈ Item.deals items by simp [hdeals])
      refine fun round hround desk => Bool.eq_false_iff.mpr fun hdone => ?_
      have hlast := Item.isDone_iff.mp hdone item hitem
      rw [item.last_eq hdeal (hruns item hitem)] at hlast
      omega
    have hlast : ∀ item ∈ items, item.last < 2 + (roundLimit - 3) := by
      intro item hitem
      have := hlimit item hitem
      simp only [roundLimit] at this ⊢
      omega
    obtain ⟨rounds, -, hrounds, hends⟩ := ends_runRounds_quiet phase hruns
      (fun item hitem hdeal => by
        obtain ⟨deal, hdeal⟩ := Option.ne_none_iff_exists'.mp hdeal
        rw [item.last_eq hdeal (hruns item hitem)]
        exact Nat.one_lt_two) (fun r hr => hlaid.sights_of_two_le hr) hlast
      (show roundLimit - 3 < roundLimit - 2 by decide)
    have hshare := ends_runRound_share phase hruns hlaid.sights_zero hne
    have hopen := ends_runRound_open phase hvalid hruns hlaid hne
    refine ⟨rounds, hrounds, ?_⟩
    rw [process, show roundLimit = roundLimit - 2 + 1 + 1 from rfl]
    refine (ends_runRounds_succ (hbusy 0 (Nat.zero_le 1) desk)).mpr ⟨_, _, _, ?_, hshare,
      (ends_runRounds_succ (hbusy 1 le_rfl desk)).mpr ⟨_, _, [], rfl, hopen, hends⟩⟩
    rw [hdeals, List.append_nil]
    exact List.flatMap_singleton ..

end Batch
end AuthenticatedMpc
