import AuthenticatedMpc.Proofs.Rounds.Operations

/-!
# What is queued

Receiving leaves the queues of a round alone. Shipping empties them, whatever the transport does, and
queues nothing.
-/

namespace AuthenticatedMpc
namespace RoundBuffer

variable {buffer buffer' buffer'' : RoundBuffer} {past : List Move}

def Quiet (buffer : RoundBuffer) : Prop := ∀ q, buffer.queued q = []

/-- Messages may have come, but nothing was queued or sent. -/
def Waits (buffer buffer' : RoundBuffer) : Prop := buffer'.outbox = buffer.outbox

theorem Waits.refl (buffer : RoundBuffer) : buffer.Waits buffer := rfl

theorem Waits.trans (h : buffer.Waits buffer') (h' : buffer'.Waits buffer'') :
    buffer.Waits buffer'' :=
  Eq.trans h' h

theorem Waits.quiet (h : buffer.Waits buffer') (hquiet : buffer.Quiet) : buffer'.Quiet := by
  intro q
  rw [queued, show buffer'.outbox = buffer.outbox from h]
  exact hquiet q

theorem quiet_start (phase : Phase) (parties : Nat) : (start phase parties).Quiet := by
  intro q
  rw [queued, start, List.getElem?_replicate]
  split <;> rfl

theorem receiving_waits {α : Type} (peer : PartyId) (ready : α → RoundBuffer → Prop) :
    Receiving (.ofState buffer.Waits ready) peer (fun _ => buffer.Waits) fun _ => buffer.Waits where
  interruptible _ := id
  before_during := id
  after_during := id
  before_silent := id
  after_silent := id
  fetched h _ := h
  heard _ h _ _ := h
  accept h _ _ _ := h

theorem meets_receive_waits {me peer : PartyId} :
    (receive me peer).Meets (.ofState buffer.Waits fun _ => buffer.Waits) past buffer :=
  (receiving_waits peer _).meets_receive (fun h _ => h) (fun h _ => ⟨h, h⟩) (Waits.refl buffer)

/-- Messages may have been sent, but nothing was queued. -/
def Drains (buffer buffer' : RoundBuffer) : Prop :=
  ∀ q, buffer.queued q = [] → buffer'.queued q = []

theorem Drains.refl (buffer : RoundBuffer) : buffer.Drains buffer := fun _ => id

theorem Drains.trans (h : buffer.Drains buffer') (h' : buffer'.Drains buffer'') :
    buffer.Drains buffer'' :=
  fun q hq => h' q (h q hq)

theorem queued_clearQueue (buffer : RoundBuffer) (peer q : PartyId) :
    (buffer.clearQueue peer).queued q = if q = peer then [] else buffer.queued q := by
  rw [queued, clearQueue, List.getElem?_set]
  split
  · next hpeer =>
    subst hpeer
    rw [if_pos rfl]
    split <;> rfl
  · next hpeer => rw [if_neg (Ne.symm hpeer), queued]

theorem drains_clearQueue (buffer : RoundBuffer) (peer : PartyId) :
    buffer.Drains (buffer.clearQueue peer) := by
  intro q hq
  rw [queued_clearQueue, hq, ite_self]

theorem shipping_drains {α : Type} (ready : α → RoundBuffer → Prop) :
    Shipping (.ofState buffer.Drains ready) fun rest _ buffer' =>
      buffer.Drains buffer' ∧ ∀ q ∉ rest, buffer'.queued q = [] where
  interruptible _ := id
  during h := h.1
  silent := id
  skip {q rest now b} h hqueue := by
    refine ⟨h.1, fun x hx => ?_⟩
    rcases eq_or_ne x q with rfl | hne
    · exact hqueue
    · exact h.2 x (List.not_mem_cons_of_ne_of_not_mem hne hx)
  cleared h := h.1.trans (drains_clearQueue _ _)
  refused _ h _ := h.1.trans (drains_clearQueue _ _)
  sent {q rest now b} h _ := by
    refine ⟨h.1.trans (drains_clearQueue _ _), fun x hx => ?_⟩
    rcases eq_or_ne x q with rfl | hne
    · rw [queued_clearQueue, if_pos rfl]
    · exact drains_clearQueue b q x (h.2 x (List.not_mem_cons_of_ne_of_not_mem hne hx))

/-- At the end of a round nothing is queued any more. -/
theorem meets_ship_drains :
    ship.Meets (.ofState buffer.Drains fun _ buffer' => buffer.Drains buffer' ∧ buffer'.Quiet) past
      buffer := by
  refine (shipping_drains _).meets_ship (fun h => h.1)
    (fun h _ => ⟨h.1, fun q => h.2 q List.not_mem_nil⟩) ⟨Drains.refl buffer, fun q hq => ?_⟩
  rw [queued, List.getElem?_eq_none (Nat.le_of_not_lt (mt List.mem_range.mpr hq)), Option.getD_none]

end RoundBuffer
end AuthenticatedMpc
