import AuthenticatedMpc.Proofs.Circuit.Rounds

/-!
# All parties evaluate a batch

A batch that all parties evaluate leaves the same board with each of them, and each holds the same
values back for its output gates.
-/

namespace AuthenticatedMpc

variable {table : Table} {i : Fin table.parties} {round : Nat} {items : List Item} {item : Item}
  {gates : List DealtGate} {gate : DealtGate} {board start now last : Board} {phase : Phase}

/-- Whether the gate of a party, over rounds that meet the given boards, is done in time. -/
def DealtGate.Finishes (i : PartyId) (sights : Nat → Board) : DealtGate → Prop
  | compute _ act =>
    ∃ last, last + 1 < Bench.roundLimit ∧
      (∀ k < last, act i (history sights (k + 1)) = .ok .moreRounds) ∧
      act i (history sights (last + 1)) = .ok .done
  | _ => True

def Board.publishDeals (deals : List Deal) (board : Board) : Board :=
  deals.foldl (fun board deal => board.publish deal.handle deal.value) board

namespace Board

variable {all deals : List Deal} {deal : Deal}

theorem Holds.publishDeals (h : board.Holds deal) : (board.publishDeals deals).Holds deal := by
  induction deals generalizing board with
  | nil => exact h
  | cons other deals ih => exact ih (h.publish other.handle other.value)

theorem Faithful.publishDeals (h : board.Faithful all) (hdeals : deals ⊆ all) :
    (board.publishDeals deals).Faithful all := by
  induction deals generalizing board with
  | nil => exact h
  | cons deal deals ih =>
    obtain ⟨hdeal, hdeals⟩ := List.cons_subset.mp hdeals
    exact ih (h.publish hdeal) hdeals

theorem Faithful.holds_publishDeals (h : board.Faithful all) (hdeals : deals ⊆ all)
    (hnodup : (all.map Deal.handle).Nodup) (hmem : deal ∈ deals) :
    (board.publishDeals deals).Holds deal := by
  induction deals generalizing board with
  | nil => cases hmem
  | cons other deals ih =>
    obtain ⟨hother, hdeals⟩ := List.cons_subset.mp hdeals
    obtain rfl | hmem := List.mem_cons.mp hmem
    · exact (h.holds_publish hother hnodup).publishDeals
    · exact ih (h.publish hother) hdeals hmem

end Board

theorem DealtGate.publishAll_eq :
    publishAll gates board = board.publishDeals (DealtGate.openings gates) := by
  induction gates generalizing board with
  | nil => rfl
  | cons gate gates ih => cases gate <;> exact ih

namespace Item

theorem deals_eq : deals items = DealtGate.deals (items.map Item.gate) := by
  rw [deals, DealtGate.deals, List.filterMap_map]
  rfl

theorem slotAt_zero : item.slotAt i 0 = ⟨item.gate.gate i, false⟩ := by
  obtain ⟨gate, sights, last⟩ := item
  cases gate <;> rfl

theorem exists_of_finishes {sights : Nat → Board} (h : gate.Finishes i sights) :
    ∃ last, last + 1 < Bench.roundLimit ∧ (⟨gate, sights, last⟩ : Item).Runs i := by
  cases gate with
  | opening | output => exact ⟨1, by decide, rfl⟩
  | compute => exact h

/-- Gates that finish on the boards that they meet make up a batch. -/
theorem exists_laid (h : ∀ before gate after, gates = before ++ gate :: after →
      gate.Finishes i (sightsFrom start (DealtGate.publishAll before now) last)) :
    ∃ items : List Item, items.map Item.gate = gates ∧ (∀ item ∈ items, item.Runs i) ∧
      (∀ item ∈ items, item.last + 1 < Bench.roundLimit) ∧ Laid start last now items := by
  induction gates generalizing now with
  | nil => exact ⟨[], rfl, by simp, by simp, trivial⟩
  | cons gate gates ih =>
    obtain ⟨last', hlimit, hrun⟩ := exists_of_finishes (h [] gate gates rfl)
    obtain ⟨items, rfl, hruns, hlimits, hlaid⟩ := @ih (gate.publish now) fun before other after heq =>
      h (gate :: before) other after (by rw [heq]; rfl)
    exact ⟨⟨gate, _, last'⟩ :: items, rfl, List.forall_mem_cons.mpr ⟨hrun, hruns⟩,
      List.forall_mem_cons.mpr ⟨hlimit, hlimits⟩, rfl, hlaid⟩

theorem foldl_release (h : ∀ item ∈ items, item.gate.deal? ≠ none → 1 < round) (board : Board) :
    ((items.map (Item.gateAt · i round)).filter Gate.revealsOutput).foldl
        (fun board gate => Gate.release gate board) board =
      board.publishDeals (DealtGate.outputs (items.map Item.gate)) := by
  induction items generalizing board with
  | nil => rfl
  | cons item items ih =>
    obtain ⟨hitem, hitems⟩ := List.forall_mem_cons.mp h
    obtain ⟨gate, sights, last⟩ := item
    cases gate with
    | opening deal => exact ih hitems board
    | output deal =>
      have hopened : decide (1 < round) = true := decide_eq_true (hitem (Option.some_ne_none _))
      have hrelease : Gate.release (gateAt ⟨.output deal, sights, last⟩ i round) board =
          board.publish deal.handle deal.value := by
        rw [gateAt, hopened]
        rfl
      rw [List.map_cons, List.filter_cons_of_pos rfl, List.foldl_cons, hrelease]
      exact ih hitems _
    | compute revealsOutput act =>
      cases revealsOutput <;> exact ih hitems board

end Item

def DealtGate.bench (gates : List DealtGate) (i : Fin table.parties) (phase : Phase)
    (desk : Desk Board) : Bench CircuitGate Board :=
  ⟨gates.map fun gate => ⟨gate.gate i, false⟩,
    { desk with rounds := .start phase table.parties }⟩

theorem Item.bench_zero {desk : Desk Board} :
    bench items i phase desk 0 = DealtGate.bench (items.map Item.gate) i phase desk := by
  simp only [bench, DealtGate.bench, slotAt_zero, List.map_map]
  rfl

theorem Desk.board_opened {desk : Desk Board} (i : PartyId) :
    (desk.opened i items).board = DealtGate.publishAll (items.map Item.gate) desk.board := by
  rw [DealtGate.publishAll, List.foldl_map]
  rfl

/-- What all parties have in common after a batch. -/
structure Evaluated (gates : List DealtGate) (i : Fin table.parties) (board : Board)
    (records : List Record) (bench : Bench CircuitGate Board) : Prop where
  records_eq : bench.desk.ledger.records =
    records ++ (DealtGate.deals gates).map (Deal.record · i)
  board_eq : bench.desk.board = DealtGate.publishAll gates board
  length_eq : bench.slots.length = gates.length
  release : ∀ board : Board, ((bench.slots.map Slot.gate).filter Gate.revealsOutput).foldl
    (fun board gate => Gate.release gate board) board =
      board.publishDeals (DealtGate.outputs gates)

/-- All parties evaluate a batch in one exchange, or in none if it opens nothing. -/
theorem Together.process (hvalid : ∀ deal ∈ DealtGate.deals gates, deal.Valid table)
    (hfinishes : ∀ before gate after, gates = before ++ gate :: after →
      ∀ i : Fin table.parties, gate.Finishes i (sightsFrom board
        (DealtGate.publishAll before board) (DealtGate.publishAll gates board)))
    {desk : Fin table.parties → Desk Board} (hboard : ∀ i, (desk i).board = board) :
    Together table (fun i => Bench.process (table.party i))
      (fun i => DealtGate.bench gates i phase (desk i))
      fun i _ bench => Evaluated gates i board (desk i).ledger.records bench := by
  have hbench : ∀ i, ∃ rounds bench, (Bench.process (table.party i)).Ends
      (DealtGate.bench gates i phase (desk i))
      (conversation (table.party i) (openingExchange phase (DealtGate.deals gates)))
      (.ok rounds) bench ∧ Evaluated gates i board (desk i).ledger.records bench := by
    intro i
    obtain ⟨items, rfl, hruns, hlimit, hlaid⟩ := Item.exists_laid fun before gate after heq =>
      hfinishes before gate after heq i
    rw [← Item.deals_eq] at hvalid
    rw [← hboard i, ← Desk.board_opened i] at hlaid
    obtain ⟨rounds, hrounds, hends⟩ := Bench.ends_process_items hvalid hruns hlaid
      hlimit
    rw [Item.bench_zero, Item.deals_eq] at hends
    refine ⟨rounds, _, hends, ?_, ?_, ?_, fun board => ?_⟩
    · rw [← Item.deals_eq]
      rfl
    · rw [← hboard i, ← Desk.board_opened i]
      rfl
    · simp [Item.bench]
    · have hgates : (Item.bench items i phase ((desk i).opened i items) rounds).slots.map Slot.gate =
          items.map (Item.gateAt · i rounds) := List.map_map ..
      rw [hgates]
      refine Item.foldl_release (fun item hitem hdeal => ?_) board
      obtain ⟨deal, hdeal⟩ := Option.ne_none_iff_exists'.mp hdeal
      rw [← item.last_eq hdeal (hruns item hitem)]
      exact hrounds item hitem
  choose rounds bench hbench using hbench
  exact ⟨_, rounds, bench, hbench⟩
end AuthenticatedMpc
