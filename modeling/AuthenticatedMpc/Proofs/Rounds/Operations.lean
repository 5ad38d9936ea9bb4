import AuthenticatedMpc.Proofs.Rounds.Exchange
import AuthenticatedMpc.Proofs.Runs.Vigilance

/-!
# The operations of a round under a contract

Here the operations of a round are walked through once, for any contract. What is to hold at their
moments is given as invariants: for shipping one that follows the list of the parties still to
serve, for receiving one before the packet of the peer is there and one after. Statements about the
moments of a round choose their invariants and are instances.
-/

namespace AuthenticatedMpc

/-- An interruption is within the contract at any moment. -/
def Contract.Interruptible {σ α : Type} (c : Contract σ α) : Prop :=
  ∀ {error now s}, error.IsInterruption → c.during now s → c.fails error now s

namespace RoundBuffer

variable {α : Type} {past : List Move} {buffer : RoundBuffer}

/-! ## Shipping -/

/-- What holds while the parties of a list are still to be served. A packet leaves in three moments:
its queue is cleared, and the packet is refused or sent. -/
structure Shipping (c : Contract RoundBuffer α)
    (inv : List PartyId → List Move → RoundBuffer → Prop) : Prop where
  interruptible : c.Interruptible
  during : ∀ {rest now b}, inv rest now b → c.during now b
  silent : ∀ {rest now b}, inv rest now b → inv rest (now ++ [.inner none]) b
  skip : ∀ {q rest now b}, inv (q :: rest) now b → b.queued q = [] → inv rest now b
  cleared : ∀ {q rest now b}, inv (q :: rest) now b → c.during now (b.clearQueue q)
  refused : ∀ {q rest now b} cause, inv (q :: rest) now b → b.queued q ≠ [] →
    c.during (now ++ [.sent q ⟨b.phase, b.queued q⟩ (.error cause)]) (b.clearQueue q)
  sent : ∀ {q rest now b}, inv (q :: rest) now b → b.queued q ≠ [] →
    inv rest (now ++ [.sent q ⟨b.phase, b.queued q⟩ (.ok ())]) (b.clearQueue q)

theorem Shipping.meets_flushTo {c : Contract RoundBuffer α}
    {inv : List PartyId → List Move → RoundBuffer → Prop} (hship : Shipping c inv)
    {parties : List PartyId} (h : inv parties past buffer) :
    (flushTo parties).Meets (c.before fun _ => inv []) past buffer := by
  induction parties generalizing past buffer with
  | nil => exact ⟨hship.during h, h⟩
  | cons q parties ih =>
    have hread := hship.silent h
    refine .get_bind (hship.during h) ?_
    split
    · next hqueue => exact ih (hship.skip hread hqueue)
    · next hqueue =>
      have hclear := hship.silent hread
      refine .modify_bind (hship.during hread) ⟨hship.cleared hclear, fun reply => ?_⟩
      cases reply with
      | error cause =>
        have hrefused := hship.refused cause hclear hqueue
        exact ⟨hrefused, hship.interruptible trivial hrefused⟩
      | ok => exact ih (hship.sent hclear hqueue)

/-- The end of a round: all parties are served, and the messages that are left are dropped. -/
theorem Shipping.meets_ship {c : Contract RoundBuffer Unit}
    {inv : List PartyId → List Move → RoundBuffer → Prop} (hship : Shipping c inv)
    (hdropped : ∀ {now b}, inv [] now b → c.during now b.clearInbox)
    (hclosed : ∀ {now b}, inv [] now b → b.surplus? = none → c.returns () now b.clearInbox)
    (h : inv (List.range buffer.parties) past buffer) : ship.Meets c past buffer := by
  have hflush : flush.Meets (c.before fun _ => inv []) past buffer :=
    .get_bind (hship.during h) (hship.meets_flushTo (hship.silent h))
  refine hflush.bind fun _ now b h => ?_
  have hend := hship.silent (hship.silent h)
  refine .get_bind (hship.during h) (.modify_bind (hship.during (hship.silent h)) ?_)
  split
  · next hnone => exact ⟨hdropped hend, hclosed hend hnone⟩
  · exact ⟨hdropped hend, hship.interruptible trivial (hdropped hend)⟩

/-- What holds of the moves while the given contents are shipped, whatever the state is besides. -/
structure Serving {ω : Type} (terms : Terms ω) (w : ω) (phase : Phase) (n : Nat)
    (out : PartyId → List Payload) (inv : List PartyId → List Move → Prop) : Prop where
  interrupted : ∀ error, error.IsInterruption → terms.fails error
  during : ∀ {rest now}, inv rest now → terms.during now w
  silent : ∀ {rest now}, inv rest now → inv rest (now ++ [.inner none])
  skip : ∀ {q rest now}, q ∉ rest → inv (q :: rest) now → out q = [] → inv rest now
  refused : ∀ {q rest now} cause, q < n → inv (q :: rest) now → out q ≠ [] →
    terms.during (now ++ [.sent q ⟨phase, out q⟩ (.error cause)]) w
  sent : ∀ {q rest now}, q < n → q ∉ rest → inv (q :: rest) now → out q ≠ [] →
    inv rest (now ++ [.sent q ⟨phase, out q⟩ (.ok ())])

section Serving

variable {ω : Type} {terms : Terms ω} {w : ω} {phase : Phase} {n : Nat}
  {out : PartyId → List Payload} {inv : List PartyId → List Move → Prop}

def unserved (out : PartyId → List Payload) (rest : List PartyId) (q : PartyId) : List Payload :=
  if q ∈ rest then out q else []

theorem Serving.shipping (hserve : Serving terms w phase n out inv)
    (held : PartyId → List Payload) (fetched : PartyId → Bool)
    (ready : α → List Move → RoundBuffer → Prop) :
    Shipping (terms.contract (fun _ => w) ready) fun rest now b =>
      inv rest now ∧ rest <:+ List.range n ∧ b = .of phase n (unserved out rest) held fetched := by
  have hhead : ∀ {q rest}, q :: rest <:+ List.range n →
      q < n ∧ q ∉ rest ∧ rest <:+ List.range n := fun hrest =>
    ⟨List.mem_range.mp (hrest.subset (List.mem_cons_self ..)),
      (List.nodup_cons.mp (hrest.sublist.nodup List.nodup_range)).1,
      (List.suffix_cons ..).trans hrest⟩
  have hqueued : ∀ {q rest}, q < n →
      (of phase n (unserved out (q :: rest)) held fetched).queued q = out q := fun hq => by
    rw [queued_of hq, unserved, if_pos (List.mem_cons_self ..)]
  refine ⟨fun h _ => hserve.interrupted _ h, fun h => hserve.during h.1,
    fun h => ⟨hserve.silent h.1, h.2⟩, ?_, fun h => hserve.during h.1, ?_, ?_⟩
  · rintro q rest now b ⟨h, hrest, rfl⟩ hqueue
    obtain ⟨hq, hnotin, hsuffix⟩ := hhead hrest
    rw [hqueued hq] at hqueue
    refine ⟨hserve.skip hnotin h hqueue, hsuffix, ?_⟩
    refine of_congr (fun x _ => ?_) (fun _ _ => rfl) fun _ _ => rfl
    rcases eq_or_ne x q with rfl | hne
    · simp [unserved, hqueue]
    · simp [unserved, hne]
  · rintro q rest now b cause ⟨h, hrest, rfl⟩ hqueue
    obtain ⟨hq, -, -⟩ := hhead hrest
    rw [hqueued hq] at hqueue ⊢
    exact hserve.refused cause hq h hqueue
  · rintro q rest now b ⟨h, hrest, rfl⟩ hqueue
    obtain ⟨hq, hnotin, hsuffix⟩ := hhead hrest
    rw [hqueued hq] at hqueue ⊢
    refine ⟨hserve.sent hq hnotin h hqueue, hsuffix, ?_⟩
    rw [clearQueue_of]
    refine of_congr (fun x _ => ?_) (fun _ _ => rfl) fun _ _ => rfl
    rcases eq_or_ne x q with rfl | hne
    · simp [unserved, hnotin]
    · simp [unserved, hne]

/-- After the end of the round another one can start. -/
theorem Serving.meets_ship (hserve : Serving terms w phase n out inv)
    {held : PartyId → List Payload} {fetched : PartyId → Bool} (h : inv (List.range n) past) :
    ship.Meets (terms.contract (fun _ => w) fun _ now b =>
      inv [] now ∧ (∀ q < n, held q = []) ∧ b = .start phase n) past
      (.of phase n out held fetched) := by
  refine (hserve.shipping held fetched _).meets_ship (fun h => hserve.during h.1) ?_ ?_
  · rintro now b ⟨h, -, rfl⟩ hsurplus
    refine ⟨h, surplus?_of.mp hsurplus, ?_⟩
    rw [clearInbox_of, start_eq_of]
    exact of_congr (fun _ _ => if_neg List.not_mem_nil) (fun _ _ => rfl) fun _ _ => rfl
  · rw [parties_of]
    exact ⟨h, List.suffix_refl _, of_congr (fun q hq => (if_pos (List.mem_range.mpr hq)).symm)
      (fun _ _ => rfl) fun _ _ => rfl⟩

end Serving

/-! ## Receiving -/

/-- What holds while the next message of a peer is received, before the packet of the peer is there
and after. -/
structure Receiving (c : Contract RoundBuffer α) (peer : PartyId)
    (before after : List Move → RoundBuffer → Prop) : Prop where
  interruptible : c.Interruptible
  before_during : ∀ {now b}, before now b → c.during now b
  after_during : ∀ {now b}, after now b → c.during now b
  before_silent : ∀ {now b}, before now b → before (now ++ [.inner none]) b
  after_silent : ∀ {now b}, after now b → after (now ++ [.inner none]) b
  fetched : ∀ {now b}, before now b → b.hasFetched peer = true → after now b
  heard : ∀ {now b} reply, before now b → b.hasFetched peer = false →
    c.assumes (now ++ [.received peer reply]) → c.during (now ++ [.received peer reply]) b
  accept : ∀ {now b packet}, before now b → b.hasFetched peer = false →
    c.assumes (now ++ [.received peer (.ok packet)]) → packet.phase = b.phase →
      after (now ++ [.received peer (.ok packet)]) (b.accept peer packet.messages)

variable {me peer : PartyId} {before after : List Move → RoundBuffer → Prop}

theorem Receiving.meets_fetch {c : Contract RoundBuffer α} (hreceive : Receiving c peer before after)
    (h : before past buffer) : (fetch peer).Meets (c.before fun _ => after) past buffer := by
  have hread := hreceive.before_silent h
  refine .get_bind (hreceive.before_during h) ?_
  split
  · next hfetched =>
    have hthere := hreceive.fetched hread hfetched
    exact ⟨hreceive.after_during hthere, hthere⟩
  · next hfetched =>
    rw [Bool.not_eq_true] at hfetched
    refine ⟨hreceive.before_during hread, fun reply hreply => ?_⟩
    have hheard := hreceive.heard reply hread hfetched hreply
    cases reply with
    | error cause => exact ⟨hheard, hreceive.interruptible trivial hheard⟩
    | ok packet =>
      change Program.Meets _ (if packet.phase = buffer.phase then _ else _) _ _
      split
      · next hphase =>
        have haccept := hreceive.after_silent (hreceive.accept hread hfetched hreply hphase)
        exact ⟨hheard, hreceive.after_during haccept, haccept⟩
      · exact ⟨hheard, hreceive.interruptible trivial hheard⟩

/-- The message that is received is the first one that is held, once the packet is there. -/
theorem Receiving.meets_receive {c : Contract RoundBuffer Payload}
    (hreceive : Receiving c peer before after)
    (hstranger : ∀ {now b}, before now b → b.isPeer me peer = false →
      c.fails (.setup (.cannotReceive peer)) now b)
    (hconsume : ∀ {now b message rest}, after now b → b.pending peer = message :: rest →
      c.during now (b.consume peer) ∧ c.returns message now (b.consume peer))
    (h : before past buffer) : (receive me peer).Meets c past buffer := by
  have hread := hreceive.before_silent h
  refine .get_bind (hreceive.before_during h) ?_
  split
  · refine (hreceive.meets_fetch hread).bind fun _ now b hthere => ?_
    have hlook := hreceive.after_silent hthere
    refine .get_bind (hreceive.after_during hthere) ?_
    split
    · next hpending =>
      exact .modify_bind (hreceive.after_during hlook)
        (hconsume (hreceive.after_silent hlook) hpending)
    · exact ⟨hreceive.after_during hlook,
        hreceive.interruptible trivial (hreceive.after_during hlook)⟩
  · next hpeer =>
    exact ⟨hreceive.before_during hread, hstranger hread (Bool.not_eq_true _ ▸ hpeer)⟩

end RoundBuffer

/-! ## Adding up -/

/-- Contributions are added up peer by peer. The invariant follows the list of the peers that are
left and the sum so far. -/
theorem Desk.meets_gather {W : Type} {me : Party} {c : Contract (Desk W) Element}
    {read : PartyId → Payload → Except Error Element}
    (inv : List PartyId → Element → List Move → Desk W → Prop)
    (hreceive : ∀ {q rest total now desk}, inv (q :: rest) total now desk →
      (receive me q).Meets (c.before fun payload now desk =>
        (∀ value, read q payload = .ok value → inv rest (me.modulus.add total value) now desk) ∧
        ∀ error, read q payload = .error error → c.during now desk ∧ c.fails error now desk) now desk)
    (hdone : ∀ {total now desk}, inv [] total now desk →
      c.during now desk ∧ c.returns total now desk)
    {peers : List PartyId} {total : Element} {past : List Move} {desk : Desk W}
    (h : inv peers total past desk) : (gather me read peers total).Meets c past desk := by
  induction peers generalizing total past desk with
  | nil => exact hdone h
  | cons q peers ih =>
    refine (hreceive h).bind fun payload now desk hpayload => ?_
    cases hread : read q payload with
    | ok value => exact ih (hpayload.1 value hread)
    | error error => exact hpayload.2 error hread

end AuthenticatedMpc
