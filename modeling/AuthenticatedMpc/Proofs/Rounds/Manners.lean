import AuthenticatedMpc.Proofs.Field.Arithmetic
import AuthenticatedMpc.Proofs.Rounds.Operations
import AuthenticatedMpc.Proofs.Rounds.Visiting
import AuthenticatedMpc.Proofs.Runs.Manners

/-!
# Manners of a batch

What a party sends in a round was queued before. So if its gates queue only what may be said in the phase
of the batch, only that is sent, whatever comes from the peers.
-/

namespace AuthenticatedMpc

variable {manner : Manner} {kind : Phase → Prop} {me : Party}

namespace RoundBuffer

/-- What is queued may be said, in a phase of this kind. -/
structure Mannered (manner : Manner) (kind : Phase → Prop) (buffer : RoundBuffer) : Prop where
  phase : kind buffer.phase
  sends : ∀ queue ∈ buffer.outbox, ∀ message ∈ queue, manner.sends buffer.phase message

variable {buffer : RoundBuffer}

theorem mannered_start {phase : Phase} (h : kind phase) (parties : Nat) :
    (start phase parties).Mannered manner kind where
  phase := h
  sends _ hqueue _ hmessage := by
    rw [List.eq_of_mem_replicate hqueue] at hmessage
    cases hmessage

namespace Mannered

theorem postAll (h : buffer.Mannered manner kind) {payload : Payload}
    (hpayload : ∀ phase, kind phase → manner.sends phase payload) (party : PartyId) :
    (buffer.postAll party payload).Mannered manner kind where
  phase := h.phase
  sends queue hqueue message hmessage := by
    obtain ⟨peer, hpeer, rfl⟩ := List.mem_mapIdx.mp hqueue
    split at hmessage
    · exact h.sends _ (List.getElem_mem hpeer) message hmessage
    · obtain hmessage | hmessage := List.mem_append.mp hmessage
      · exact h.sends _ (List.getElem_mem hpeer) message hmessage
      · obtain rfl := List.mem_singleton.mp hmessage
        exact hpayload _ h.phase

theorem clearQueue (h : buffer.Mannered manner kind) (peer : PartyId) :
    (buffer.clearQueue peer).Mannered manner kind where
  phase := h.phase
  sends queue hqueue message hmessage := by
    obtain hqueue | rfl := List.mem_or_eq_of_mem_set hqueue
    · exact h.sends queue hqueue message hmessage
    · cases hmessage

theorem sends_queued (h : buffer.Mannered manner kind) {peer : PartyId} {message : Payload}
    (hmessage : message ∈ buffer.queued peer) : manner.sends buffer.phase message := by
  unfold queued at hmessage
  cases hqueue : buffer.outbox[peer]? with
  | none => simp [hqueue] at hmessage
  | some queue =>
    rw [hqueue, Option.getD_some] at hmessage
    exact h.sends queue (List.mem_of_getElem? hqueue) message hmessage

end Mannered

theorem upholds_broadcast {payload : Payload}
    (hpayload : ∀ phase, kind phase → manner.sends phase payload) (party : PartyId) :
    (broadcast party payload).Upholds manner (Mannered manner kind) fun _ => True :=
  .modify fun _ h => h.postAll hpayload party

theorem receiving_mannered {α : Type} (peer : PartyId) (post : α → Prop) :
    Receiving (manner.contract (Mannered manner kind) post) peer (manner.Kept (Mannered manner kind))
      (manner.Kept (Mannered manner kind)) where
  interruptible _ _ := trivial
  before_during := id
  after_during := id
  before_silent h := h.silent
  after_silent h := h.silent
  fetched h _ := h
  heard _ h _ _ := h.snoc trivial h.2
  accept h _ _ _ := h.snoc trivial ⟨h.2.phase, h.2.sends⟩

theorem upholds_receive (party peer : PartyId) :
    (receive party peer).Upholds manner (Mannered manner kind) fun _ => True := fun _ _ h =>
  (receiving_mannered peer _).meets_receive (fun _ _ => trivial)
    (fun h _ => ⟨⟨h.1, h.2.phase, h.2.sends⟩, trivial⟩) h

theorem shipping_mannered {α : Type} (post : α → Prop) :
    Shipping (manner.contract (Mannered manner kind) post) fun _ =>
      manner.Kept (Mannered manner kind) where
  interruptible _ _ := trivial
  during := id
  silent h := h.silent
  skip h _ := h
  cleared h := ⟨h.1, h.2.clearQueue _⟩
  refused _ h _ := h.snoc (fun _ => h.2.sends_queued) (h.2.clearQueue _)
  sent h _ := h.snoc (fun _ => h.2.sends_queued) (h.2.clearQueue _)

theorem upholds_ship : ship.Upholds manner (Mannered manner kind) fun _ => True := fun _ _ h =>
  (shipping_mannered _).meets_ship (fun h => ⟨h.1, h.2.phase, h.2.sends⟩) (fun _ _ => trivial) h

end RoundBuffer

variable {W : Type} {keeps : Ledger → W → Prop}

namespace Desk

/-- What is queued may be said, and the ledger and the board are kept. -/
structure Mannered (manner : Manner) (kind : Phase → Prop) (keeps : Ledger → W → Prop) (desk : Desk W) :
    Prop where
  rounds : desk.rounds.Mannered manner kind
  keeps : keeps desk.ledger desk.board

theorem upholds_rounds {α : Type} {p : Program RoundBuffer α} {post : α → Prop}
    (h : p.Upholds manner (RoundBuffer.Mannered manner kind) post) :
    (p.zoom roundsPart).Upholds manner (Mannered manner kind keeps) post :=
  h.zoom (fun _ hdesk => hdesk.rounds) fun _ _ hdesk hrounds => ⟨hrounds, hdesk.keeps⟩

theorem upholds_broadcast {payload : Payload}
    (hpayload : ∀ phase, kind phase → manner.sends phase payload) :
    (broadcast me payload).Upholds manner (Mannered manner kind keeps) fun _ => True :=
  upholds_rounds (RoundBuffer.upholds_broadcast hpayload me.id)

theorem upholds_receive (peer : PartyId) :
    (receive me peer).Upholds manner (Mannered manner kind keeps) fun _ => True :=
  upholds_rounds (RoundBuffer.upholds_receive me.id peer)

theorem upholds_gather {read : PartyId → Payload → Except Error Element}
    (hread : ∀ peer payload value, read peer payload = .ok value → me.modulus.Reduced value)
    (peers : List PartyId) {total : Element} (htotal : me.modulus.Reduced total) :
    (gather me read peers total).Upholds manner (Mannered manner kind keeps) me.modulus.Reduced := by
  intro past desk h
  refine meets_gather (fun _ total now desk => me.modulus.Reduced total ∧
    manner.Kept (Mannered manner kind keeps) now desk) ?_ (fun h => h.symm) ⟨htotal, h⟩
  rintro q rest total now desk ⟨htotal, h⟩
  refine (upholds_receive q now desk h).mono (fun _ _ => id) ?_ fun _ _ _ _ => id
  intro payload now desk h _
  exact ⟨fun value hvalue => ⟨Modulus.reduced_add htotal (hread q payload value hvalue), h⟩,
    fun _ _ => ⟨h, trivial⟩⟩

end Desk

namespace Bench

variable {G : Type} {fine : G → Prop}

structure Mannered (manner : Manner) (kind : Phase → Prop) (keeps : Ledger → W → Prop) (fine : G → Prop)
    (bench : Bench G W) : Prop where
  slots : ∀ slot ∈ bench.slots, fine slot.gate
  desk : bench.desk.Mannered manner kind keeps

theorem Mannered.load {bench : Bench G W} (h : keeps bench.desk.ledger bench.desk.board) {gates : List G}
    (hgates : ∀ gate ∈ gates, fine gate) {phase : Phase} (hphase : kind phase) (parties : Nat) :
    (bench.load gates phase parties).Mannered manner kind keeps fine where
  slots slot hslot := by
    obtain ⟨gate, hgate, rfl⟩ := List.mem_map.mp hslot
    exact hgates gate hgate
  desk := ⟨RoundBuffer.mannered_start hphase parties, h⟩

variable [Gate G W]

section Rounds

variable (hmarks : ∀ phase place round, manner.marks (.evaluating phase place round))
  (hgate : ∀ round gate, fine gate → (Gate.evaluate me round gate).Upholds manner
    (Desk.Mannered manner kind keeps) fun result => fine result.1)
include hmarks hgate

theorem visiting_mannered (round : Nat) :
    Visiting ⟨manner.Kept (Mannered manner kind keeps fine), fun _ => True, fun _ => True⟩ id me round
      fun front back now desk =>
        manner.Kept (Mannered manner kind keeps fine) now ⟨front ++ back, desk⟩ where
  during := id
  silent h := h.silent
  skip {front gate back now desk} h := by rwa [List.append_assoc]
  evaluate {front gate back now desk} h := by
    have hfine : fine gate := h.2.slots ⟨gate, false⟩ (List.mem_append_right _ (List.mem_cons_self ..))
    have hnow : manner.Kept (Desk.Mannered manner kind keeps)
        (now ++ [Move.inner (some (.evaluating desk.rounds.phase front.length round))]) desk :=
      ⟨List.forall_mem_append.mpr ⟨h.1, List.forall_mem_singleton.mpr (hmarks ..)⟩, h.2.desk⟩
    refine (hgate round gate hfine _ desk hnow).mono
      (fun _ _ hdesk => ⟨hdesk.1, h.2.slots, hdesk.2⟩) ?_ (fun _ _ _ _ => id) fun _ _ => trivial
    intro result now desk hdesk hresult
    exact ⟨hdesk.1, Slot.forall_mem_replace h.2.slots hresult, hdesk.2⟩

/-- A batch of gates that keep to a manner keeps to it. -/
theorem upholds_process :
    (process me).Upholds manner (Mannered manner kind keeps fine) fun _ => True := by
  intro past bench h
  let terms : Terms (Bench G W) :=
    ⟨manner.Kept (Mannered manner kind keeps fine), fun _ => True, fun _ => True⟩
  have hround : ∀ {round now bench}, manner.Kept (Mannered manner kind keeps fine) now bench →
      (runRound me round).Meets (terms.contract id fun _ =>
        manner.Kept (Mannered manner kind keeps fine)) now bench := by
    intro round now bench h
    refine (visiting_mannered hmarks hgate round).meets_runRound (fun slots now desk h => ?_) h
    rw [List.append_nil] at h
    exact (RoundBuffer.upholds_ship now desk.rounds ⟨h.1, h.2.desk.rounds⟩).mono
      (fun _ _ hrounds => ⟨hrounds.1, h.2.slots, hrounds.2, h.2.desk.keeps⟩)
      (fun _ _ _ hrounds _ => ⟨hrounds.1, h.2.slots, hrounds.2, h.2.desk.keeps⟩)
      (fun _ _ _ _ => id) fun _ _ => trivial
  exact (meets_runRounds (fun _ => manner.Kept (Mannered manner kind keeps fine)) id
    Manner.Kept.silent (fun h _ => hround h) h).mono (fun _ _ => id) (fun _ _ _ _ _ => trivial)
    (fun _ _ _ _ _ => trivial) fun _ _ => trivial

end Rounds

end Bench
end AuthenticatedMpc
