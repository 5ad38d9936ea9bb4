import AuthenticatedMpc.Circuit.CircuitGate
import AuthenticatedMpc.Proofs.Field.Residue
import AuthenticatedMpc.Proofs.Rounds.Together
import Mathlib.Algebra.BigOperators.Group.List.Basic

/-!
# Dealt values

A deal is a value with the shares that all parties hold of it and of its MAC. What is published on
a board in an honest run are dealt values.
-/

namespace AuthenticatedMpc

theorem Party.sum_peers (me : Party) (f : PartyId → Nat) :
    f me.id + (me.peers.map f).sum = ((List.range me.parties).map f).sum := by
  have herase : me.peers = (List.range me.parties).erase me.id := by
    rw [List.nodup_range.erase_eq_filter]
    rfl
  rw [herase, List.sum_map_erase f (List.mem_range.mpr me.id_lt)]

def Table.key (table : Table) : Element :=
  table.modulus.sum ((List.range table.parties).map table.keyShare)

/-- A value to be opened under a handle, with the share of each party. -/
structure Deal where
  handle : Handle
  value : Element
  share : PartyId → Share

namespace Deal

/-- The shares are reduced and stand for the value and its MAC. -/
structure Valid (table : Table) (deal : Deal) : Prop where
  value_lt : ∀ i < table.parties, table.modulus.Reduced (deal.share i).value
  mac_lt : ∀ i < table.parties, table.modulus.Reduced (deal.share i).mac
  openAll_eq : Share.openAll table.modulus ((List.range table.parties).map deal.share) =
    ⟨deal.value, table.modulus.mul table.key deal.value⟩

variable {table : Table} {deal : Deal} {i : Fin table.parties}

def record (deal : Deal) (i : PartyId) : Record := ⟨deal.value, (deal.share i).mac⟩

def opening (deal : Deal) (i : PartyId) (opened : Bool) : Opening :=
  ⟨deal.share i, deal.handle, if opened then some deal.value else none⟩

def message (deal : Deal) (i : PartyId) : Payload := Modulus.encode (deal.share i).value

theorem Valid.reduced_value (h : deal.Valid table) : table.modulus.Reduced deal.value := by
  have hvalue : table.modulus.sum _ = deal.value := congrArg Share.value h.openAll_eq
  rw [← hvalue, List.map_map]
  refine Modulus.reduced_foldl_add Modulus.reduced_zero fun value hmem => ?_
  obtain ⟨q, hq, rfl⟩ := List.mem_map.mp hmem
  exact h.value_lt q (List.mem_range.mp hq)

/-- The shares of all parties add up to the value. -/
theorem Valid.foldl_add (h : deal.Valid table) :
    ((table.party i).peers.map fun q => (deal.share q).value).foldl (table.party i).modulus.add
      (deal.share i).value = deal.value := by
  have hpeers : ∀ value ∈ (table.party i).peers.map fun q => (deal.share q).value,
      table.modulus.Reduced value := by
    intro value hmem
    obtain ⟨q, hq, rfl⟩ := List.mem_map.mp hmem
    exact h.value_lt q (Table.mem_peers.mp hq).1
  have hall : ∀ value ∈ ((List.range table.parties).map deal.share).map Share.value,
      table.modulus.Reduced value := by
    intro value hmem
    rw [List.map_map] at hmem
    obtain ⟨q, hq, rfl⟩ := List.mem_map.mp hmem
    exact h.value_lt q (List.mem_range.mp hq)
  have hvalue := congrArg (fun share => share.value.toNat) h.openAll_eq
  have hsum := (table.party i).sum_peers fun q => (deal.share q).value.toNat
  simp only [Share.openAll, Modulus.sum] at hvalue
  rw [Modulus.toNat_foldl_add Modulus.reduced_zero hall, Element.toNat_zero, Nat.zero_add] at hvalue
  rw [← Limbs.toNat_inj, @Modulus.toNat_foldl_add (table.party i).modulus _ _
    (h.value_lt i i.isLt) hpeers, ← hvalue]
  simp only [List.map_map]
  exact congrArg (· % table.modulus.value.toNat) hsum

theorem Valid.decode_message (h : deal.Valid table) {q : PartyId} (hq : q < table.parties) :
    table.modulus.decode (deal.message q) = .ok (deal.share q).value :=
  Modulus.decode_eq_ok_iff.mpr ⟨rfl, Modulus.reduced_iff.mp (h.value_lt q hq)⟩

end Deal

/-! ## Boards -/

namespace Board

variable {board : Board} {deal other : Deal} {deals : List Deal}

def Holds (board : Board) (deal : Deal) : Prop := board.value? deal.handle = some deal.value

/-- Nothing but dealt values stands on the board. -/
def Faithful (deals : List Deal) (board : Board) : Prop :=
  ∀ handle value, board.value? handle = some value →
    ∃ deal ∈ deals, deal.handle = handle ∧ deal.value = value

theorem faithful_empty : Faithful deals .empty := fun _ _ h => by cases h

theorem Holds.publish (h : board.Holds deal) (handle : Handle) (value : Element) :
    (board.publish handle value).Holds deal := by
  rw [Holds, value?_publish, h, Option.some_or]

theorem Faithful.publish (h : Faithful deals board) (hmem : deal ∈ deals) :
    Faithful deals (board.publish deal.handle deal.value) := by
  intro handle value hvalue
  rw [value?_publish] at hvalue
  cases hold : board.value? handle with
  | some old =>
    rw [hold, Option.some_or] at hvalue
    exact h handle value (hold.trans hvalue)
  | none =>
    rw [hold, Option.none_or] at hvalue
    split at hvalue
    · next heq => exact ⟨deal, hmem, heq.symm, Option.some.inj hvalue⟩
    · cases hvalue

/-- Publishing a deal makes the board hold it when no two deals have one handle. -/
theorem Faithful.holds_publish (h : Faithful deals board) (hmem : deal ∈ deals)
    (hnodup : (deals.map Deal.handle).Nodup) :
    (board.publish deal.handle deal.value).Holds deal := by
  rw [Holds, value?_publish, if_pos rfl]
  cases hold : board.value? deal.handle with
  | none => rfl
  | some old =>
    obtain ⟨other, hother, hhandle, rfl⟩ := h _ _ hold
    rw [List.inj_on_of_nodup_map hnodup hother hmem hhandle, Option.some_or]

end Board

/-! ## Gates of a common stream -/

/-- A gate that all parties evaluate, each with its own share or computation. -/
inductive DealtGate where
  | opening (deal : Deal)
  | output (deal : Deal)
  | compute (revealsOutput : Bool) (act : PartyId → List Board → Except Error Status)

namespace DealtGate

def gate (i : PartyId) : DealtGate → CircuitGate
  | opening deal => .opening (deal.opening i false)
  | output deal => .output (deal.opening i false)
  | compute revealsOutput act => .compute { revealsOutput, act := act i }

def revealsOutput : DealtGate → Bool
  | opening _ => false
  | output _ => true
  | compute revealsOutput _ => revealsOutput

def deal? : DealtGate → Option Deal
  | opening deal | output deal => some deal
  | compute _ _ => none

def opening? : DealtGate → Option Deal
  | opening deal => some deal
  | _ => none

def output? : DealtGate → Option Deal
  | output deal => some deal
  | _ => none

def publish (gate : DealtGate) (board : Board) : Board :=
  match gate with
  | opening deal => board.publish deal.handle deal.value
  | _ => board

theorem publish_of_deal?_eq_none {gate : DealtGate} (h : gate.deal? = none) (board : Board) :
    gate.publish board = board := by
  cases gate with
  | opening | output => cases h
  | compute => rfl

def deals (gates : List DealtGate) : List Deal := gates.filterMap deal?

def openings (gates : List DealtGate) : List Deal := gates.filterMap opening?

def outputs (gates : List DealtGate) : List Deal := gates.filterMap output?

theorem mem_deals {deal : Deal} {gates : List DealtGate} :
    deal ∈ deals gates ↔ deal ∈ openings gates ∨ deal ∈ outputs gates := by
  simp only [deals, openings, outputs, List.mem_filterMap, ← exists_or, ← and_or_left]
  refine exists_congr fun gate => and_congr_right fun _ => ?_
  cases gate <;> simp [deal?, opening?, output?]

theorem openings_subset (gates : List DealtGate) : openings gates ⊆ deals gates :=
  fun _ h => mem_deals.mpr (.inl h)

theorem outputs_subset (gates : List DealtGate) : outputs gates ⊆ deals gates :=
  fun _ h => mem_deals.mpr (.inr h)

def publishAll (gates : List DealtGate) (board : Board) : Board :=
  gates.foldl (fun board gate => gate.publish board) board

end DealtGate
end AuthenticatedMpc
