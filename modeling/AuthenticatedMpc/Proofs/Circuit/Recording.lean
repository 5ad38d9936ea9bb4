import AuthenticatedMpc.Circuit.CircuitGate
import AuthenticatedMpc.Proofs.Rounds.Queues
import AuthenticatedMpc.Proofs.Rounds.Visiting

/-!
# What a batch leaves behind

Whatever the transport delivers, a batch only adds to the ledger, and it publishes only what its
openings inside the computation open. When all gates of a batch are done, the ledger has what each
output holds back.
-/

namespace AuthenticatedMpc

variable {me : Party} {round : Nat} {past : List Move} {desk desk' desk'' : Desk Board}
  {hidden : Handle → Prop}

/-! ## Desks -/

theorem Desk.meets_gather_waits {inv : Desk Board → Prop} {post : Element → Desk Board → Prop}
    {read : PartyId → Payload → Except Error Element} {peers : List PartyId} {total : Element}
    (hinv : ∀ rounds, desk.rounds.Waits rounds → inv { desk with rounds })
    (hpost : ∀ value rounds, desk.rounds.Waits rounds → post value { desk with rounds }) :
    (gather me read peers total).Meets (.ofState inv post) past desk := by
  refine meets_gather (fun _ _ _ desk' => ∃ rounds, desk.rounds.Waits rounds ∧
    desk' = { desk with rounds }) ?_ ?_ ⟨desk.rounds, .refl _, rfl⟩
  · rintro q rest total now _ ⟨rounds, hrounds, rfl⟩
    have hwaits : ∀ rounds', rounds.Waits rounds' → inv { desk with rounds := rounds' } :=
      fun rounds' h => hinv rounds' (hrounds.trans h)
    refine .zoom (RoundBuffer.meets_receive_waits.mono (fun _ => hwaits) ?_
      fun _ _ rounds' h _ => hwaits rounds' h)
    intro payload now rounds' h _
    exact ⟨fun _ _ => ⟨rounds', hrounds.trans h, rfl⟩, fun _ _ => ⟨hwaits rounds' h, hwaits rounds' h⟩⟩
  · rintro total now _ ⟨rounds, hrounds, rfl⟩
    exact ⟨hinv rounds hrounds, hpost total rounds hrounds⟩

/-- The ledger grows, and nothing is published under the hidden handles. -/
structure Desk.Extends (hidden : Handle → Prop) (desk desk' : Desk Board) : Prop where
  records : desk.ledger.records <+: desk'.ledger.records
  value : ∀ handle, hidden handle → desk'.board.value? handle = desk.board.value? handle

theorem Desk.Extends.refl (desk : Desk Board) : desk.Extends hidden desk :=
  ⟨List.prefix_refl _, fun _ _ => rfl⟩

theorem Desk.Extends.trans (h : desk.Extends hidden desk') (h' : desk'.Extends hidden desk'') :
    desk.Extends hidden desk'' :=
  ⟨h.records.trans h'.records, fun handle hhidden =>
    (h'.value handle hhidden).trans (h.value handle hhidden)⟩

theorem Desk.Extends.publish (h : desk.Extends hidden desk') (opening : Opening)
    (hspares : ¬hidden opening.handle) :
    desk.Extends hidden { desk' with board := opening.publish desk'.board } := by
  refine ⟨h.records, fun handle hhidden => (h.value handle hhidden).symm ▸ ?_⟩
  unfold Opening.publish
  cases opening.opened with
  | none => rfl
  | some value =>
    have hne : handle ≠ opening.handle := fun heq => hspares (heq ▸ hhidden)
    rw [Board.value?_publish, if_neg hne, Option.or_none]

/-! ## Gates -/

/-- What an opening does to a desk in one round: in round one it may record a value. -/
inductive Opening.Turns (opening : Opening) (desk : Desk Board) :
    Opening × Status → Desk Board → Prop
  | waiting (rounds : RoundBuffer) :
      Turns opening desk (opening, .moreRounds) { desk with rounds }
  | opened (rounds : RoundBuffer) (value : Element) :
      Turns opening desk ({ opening with opened := some value }, .done)
        { desk with rounds, ledger := desk.ledger.append value opening.share.mac }

theorem Opening.meets_evaluate (opening : Opening) {inv : Desk Board → Prop}
    (hinv : ∀ rounds, inv { desk with rounds })
    (hrecorded : ∀ rounds value,
      inv { desk with rounds, ledger := desk.ledger.append value opening.share.mac }) :
    (opening.evaluate me round).Meets (.ofState inv (opening.Turns desk)) past desk := by
  unfold evaluate
  split
  · have hbroadcast : (Desk.broadcast me (Modulus.encode opening.share.value)).Meets
        (.ofState inv fun _ d => ∃ rounds, d = { desk with rounds }) past desk :=
      .of_zoom hinv fun _ rounds => ⟨rounds, rfl⟩
    refine hbroadcast.bind_state ?_
    rintro _ past _ ⟨rounds, rfl⟩
    exact ⟨hinv rounds, .waiting rounds⟩
  · have hgather : (Desk.gather me (fun _ payload => (me.modulus.decode payload).mapError .encoding)
        me.peers opening.share.value).Meets
          (.ofState inv fun _ d => ∃ rounds, d = { desk with rounds }) past desk :=
      Desk.meets_gather_waits (fun rounds _ => hinv rounds) fun _ rounds _ => ⟨rounds, rfl⟩
    refine hgather.bind_state ?_
    rintro value past _ ⟨rounds, rfl⟩
    exact ⟨hinv rounds, hrecorded rounds value, .opened rounds value⟩

theorem LocalGate.meets_evaluate (gate : LocalGate) {inv : Desk Board → Prop} (hinv : inv desk) :
    gate.evaluate.Meets (.ofState inv fun result desk' =>
      desk' = desk ∧ ∃ seen, result.1 = { gate with seen }) past desk := by
  refine ⟨hinv, ?_⟩
  change (Program.ofExcept (gate.act (desk.board :: gate.seen)) >>= _).Meets _ _ _
  cases gate.act (desk.board :: gate.seen) with
  | ok status => exact ⟨hinv, rfl, _, rfl⟩
  | error error => exact ⟨hinv, hinv⟩

namespace CircuitGate

/-- The gate is a later state of another. -/
inductive Becomes : CircuitGate → CircuitGate → Prop
  | opening (gate : Opening) (opened : Option Element) :
      Becomes (.opening gate) (.opening { gate with opened })
  | output (gate : Opening) (opened : Option Element) :
      Becomes (.output gate) (.output { gate with opened })
  | compute (gate : LocalGate) (seen : List Board) :
      Becomes (.compute gate) (.compute { gate with seen })

/-- An output has opened a value, and its record satisfies the predicate. -/
def Recorded (P : Record → Prop) : CircuitGate → Prop
  | output gate => ∃ value, gate.opened = some value ∧ P ⟨value, gate.share.mac⟩
  | _ => True

/-- The gate publishes nothing under the hidden handles unless it is released. -/
def Spares (hidden : Handle → Prop) : CircuitGate → Prop
  | opening gate => ¬hidden gate.handle
  | _ => True

variable {gate gate' gate'' : CircuitGate}

theorem Becomes.refl (gate : CircuitGate) : gate.Becomes gate := by
  cases gate with
  | opening gate => exact .opening gate gate.opened
  | output gate => exact .output gate gate.opened
  | compute gate => exact .compute gate gate.seen

theorem Becomes.trans (h : gate.Becomes gate') (h' : gate'.Becomes gate'') :
    gate.Becomes gate'' := by
  cases h with
  | opening gate => cases h' with | opening => exact .opening gate _
  | output gate => cases h' with | output => exact .output gate _
  | compute gate => cases h' with | compute => exact .compute gate _

theorem Becomes.spares (h : gate.Becomes gate') (hspares : gate.Spares hidden) :
    gate'.Spares hidden := by
  cases h <;> exact hspares

theorem Recorded.imp {P Q : Record → Prop} (h : gate.Recorded P)
    (himp : ∀ record, P record → Q record) : gate.Recorded Q := by
  cases gate with
  | output gate =>
    obtain ⟨value, hvalue, hrecord⟩ := h
    exact ⟨value, hvalue, himp _ hrecord⟩
  | opening | compute => trivial

/-- Whatever the transport delivers, a gate only adds to the ledger, and when it is done, what it
holds back is there. -/
theorem meets_evaluate (gate : CircuitGate) (hspares : gate.Spares hidden) :
    (gate.evaluate me round).Meets (.ofState (desk.Extends hidden) fun result desk' =>
      desk.Extends hidden desk' ∧ gate.Becomes result.1 ∧
        (result.2 = .done → result.1.Recorded (· ∈ desk'.ledger.records))) past desk := by
  have hrounds : ∀ rounds, desk.Extends hidden { desk with rounds } :=
    fun _ => ⟨List.prefix_refl _, fun _ _ => rfl⟩
  have hrecorded : ∀ rounds value mac,
      desk.Extends hidden { desk with rounds, ledger := desk.ledger.append value mac } :=
    fun _ _ _ => ⟨List.prefix_append .., fun _ _ => rfl⟩
  cases gate with
  | opening gate =>
    refine (gate.meets_evaluate hrounds fun rounds value =>
      hrecorded rounds value gate.share.mac).bind_state ?_
    rintro _ past _ (⟨rounds⟩ | ⟨rounds, value⟩)
    · have hpublish := (hrounds rounds).publish gate hspares
      exact ⟨hrounds rounds, hpublish, hpublish, .opening gate gate.opened, nofun⟩
    · have hdesk := hrecorded rounds value gate.share.mac
      have hpublish := hdesk.publish { gate with opened := some value } hspares
      exact ⟨hdesk, hpublish, hpublish, .opening gate _, fun _ => trivial⟩
  | output gate =>
    refine (gate.meets_evaluate hrounds fun rounds value =>
      hrecorded rounds value gate.share.mac).bind_state ?_
    rintro _ past _ (⟨rounds⟩ | ⟨rounds, value⟩)
    · exact ⟨hrounds rounds, hrounds rounds, .output gate gate.opened, nofun⟩
    · exact ⟨hrecorded rounds value _, hrecorded rounds value _, .output gate _,
        fun _ => ⟨value, rfl, List.mem_append_right _ (List.mem_singleton_self _)⟩⟩
  | compute gate =>
    refine (gate.meets_evaluate (Desk.Extends.refl desk)).bind_state ?_
    rintro ⟨_, status⟩ past _ ⟨rfl, seen, rfl⟩
    exact ⟨.refl _, .refl _, .compute gate seen, fun _ => trivial⟩

end CircuitGate
/-! ## Benches -/

namespace Bench

variable {gates : List CircuitGate} {bench : Bench CircuitGate Board}

/-- The gates on a bench come from a batch that began on the given desk; what the outputs among
those that are done hold back is in the ledger. -/
structure Tracks (hidden : Handle → Prop) (gates : List CircuitGate) (desk : Desk Board)
    (bench : Bench CircuitGate Board) : Prop where
  extended : desk.Extends hidden bench.desk
  slot : ∀ slot ∈ bench.slots, (∃ gate ∈ gates, gate.Becomes slot.gate) ∧
    (slot.done = true → slot.gate.Recorded (· ∈ bench.desk.ledger.records))

theorem Tracks.setDesk (h : bench.Tracks hidden gates desk)
    (hdesk : bench.desk.Extends hidden desk') :
    Tracks hidden gates desk (deskPart.set bench desk') where
  extended := h.extended.trans hdesk
  slot slot hslot := (h.slot slot hslot).imp_right fun hrecorded hdone =>
    (hrecorded hdone).imp fun _ hmem => hdesk.records.subset hmem

theorem Tracks.replace {front back : List (Slot CircuitGate)} {slot slot' : Slot CircuitGate}
    (h : Tracks hidden gates desk ⟨front ++ slot :: back, desk'⟩)
    (hgate : ∃ origin ∈ gates, origin.Becomes slot'.gate)
    (hrecorded : slot'.done = true → slot'.gate.Recorded (· ∈ desk'.ledger.records)) :
    Tracks hidden gates desk ⟨front ++ [slot'] ++ back, desk'⟩ where
  extended := h.extended
  slot := Slot.forall_mem_replace h.slot ⟨hgate, hrecorded⟩

theorem visiting_tracks (hspares : ∀ gate ∈ gates, gate.Spares hidden) :
    Visiting (Terms.always (Tracks hidden gates desk)) id me round fun front back _ desk' =>
      Tracks hidden gates desk ⟨front ++ back, desk'⟩ where
  during := id
  silent := id
  skip {front gate back now desk'} h := by
    rwa [List.append_assoc]
  evaluate {front gate back now desk'} h := by
    obtain ⟨⟨origin, horigin, hbecomes⟩, -⟩ :=
      h.slot ⟨gate, false⟩ (List.mem_append_right _ (List.mem_cons_self ..))
    refine (gate.meets_evaluate (hbecomes.spares (hspares origin horigin))).mono
      (fun _ _ hdesk => h.setDesk hdesk) ?_ (fun _ _ _ _ _ => trivial) fun _ _ => trivial
    rintro ⟨gate', status⟩ now desk'' - ⟨hdesk, hgate, hrecorded⟩
    exact (h.setDesk hdesk).replace ⟨origin, horigin, hbecomes.trans hgate⟩ fun hdone =>
      hrecorded (of_decide_eq_true hdone)

theorem meets_runRound (hspares : ∀ gate ∈ gates, gate.Spares hidden)
    (h : bench.Tracks hidden gates desk) :
    (runRound me round).Meets ((Terms.always (Tracks hidden gates desk)).contract id fun _ _ =>
      Tracks hidden gates desk) past bench := by
  refine (visiting_tracks hspares).meets_runRound (fun slots now desk' h => ?_) h
  rw [List.append_nil] at h
  have hrounds : ∀ rounds, Tracks hidden gates desk ⟨slots, { desk' with rounds }⟩ := fun _ =>
    h.setDesk ⟨List.prefix_refl _, fun _ _ => rfl⟩
  exact .of_forall (fun _ => hrounds) (fun _ _ => hrounds) fun _ _ _ => trivial

/-- Whatever the transport delivers, a batch that is evaluated to its end has recorded what its
outputs hold back. -/
theorem meets_process (hspares : ∀ gate ∈ gates, gate.Spares hidden)
    (h : bench.Tracks hidden gates desk) :
    (process me).Meets (.ofState (Tracks hidden gates desk) fun _ bench' =>
      bench'.Tracks hidden gates desk ∧ bench'.isDone = true) past bench :=
  .of_always (meets_runRounds (fun _ _ => Tracks hidden gates desk) id id
    (fun h _ => meets_runRound hspares h) h)

end Bench
end AuthenticatedMpc
