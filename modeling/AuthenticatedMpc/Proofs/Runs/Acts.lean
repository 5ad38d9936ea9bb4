import AuthenticatedMpc.Proofs.Rounds.Exchange
import AuthenticatedMpc.Proofs.Runs.Vigilance

/-!
# What a party does towards its peers, and what of it is veiled

The acts of a party are the packets that it sends and the packets that it takes, in their order; of a
packet that it takes only the sender counts. A veil covers what may depend on MAC keys and on MAC shares:
in every check the commitment to the check value, and the check value in what opens it.
-/

namespace AuthenticatedMpc

inductive Act where
  | send (peer : PartyId) (packet : Packet)
  /-- A packet of the peer is taken, whatever it holds. -/
  | take (peer : PartyId)
deriving DecidableEq, Repr

def Signal.act? : Signal → Option Act
  | .sent peer packet => some (.send peer packet)
  | .received peer _ => some (.take peer)
  | .closed => none

def actsOf (moves : List Move) : List Act := (talkOf moves).filterMap Signal.act?

section Acts

variable {past : List Move} {peer : PartyId} {packet : Packet} {cause : NetworkError}

theorem actsOf_append (front back : List Move) : actsOf (front ++ back) = actsOf front ++ actsOf back := by
  rw [actsOf, talkOf_append, List.filterMap_append]
  rfl

@[simp] theorem actsOf_inner (event : Option Event) : actsOf (past ++ [Move.inner event]) = actsOf past := by
  rw [actsOf, talkOf_inner, actsOf]

@[simp] theorem actsOf_sent :
    actsOf (past ++ [.sent peer packet (.ok ())]) = actsOf past ++ [.send peer packet] :=
  actsOf_append ..

@[simp] theorem actsOf_sent_error : actsOf (past ++ [.sent peer packet (.error cause)]) = actsOf past := by
  rw [actsOf, talkOf_sent_error, actsOf]

@[simp] theorem actsOf_received :
    actsOf (past ++ [.received peer (.ok packet)]) = actsOf past ++ [.take peer] :=
  actsOf_append ..

@[simp] theorem actsOf_received_error :
    actsOf (past ++ [.received peer (.error cause)]) = actsOf past := by
  rw [actsOf, talkOf_received_error, actsOf]

end Acts

/-- An exchange as a party goes about it: a packet for every peer, then a packet of every peer. -/
def speech (peers : List PartyId) (packet : Packet) : List Act :=
  peers.map (.send · packet) ++ peers.map .take

theorem filterMap_act?_exchange (me : Party) (packet : Packet) (packets : PartyId → Packet) :
    (exchange me packet packets).filterMap Signal.act? = speech me.peers packet := by
  simp [exchange, speech, Signal.act?, List.filterMap_map, Function.comp_def]

/-! ## The veil -/

/-- What is known of a message whose first bytes are not. -/
def Payload.veil (count : Nat) (payload : Payload) : Payload :=
  List.replicate (min count payload.length) 0 ++ payload.drop count

/-- Of every four packets that a party sends to a peer in checks, the first two commit to its part of the
combiner and open that; the third commits to its check value, and all of it is veiled; the fourth opens
that, and the check value in it is veiled, which comes first. -/
def Packet.veil (turn : Nat) (packet : Packet) : Packet :=
  match turn % 4 with
  | 2 => { packet with messages := packet.messages.map fun message => message.veil message.length }
  | 3 => { packet with messages := packet.messages.map (Payload.veil 16) }
  | _ => packet

theorem Packet.veil_congr {turn turn' : Nat} (h : turn % 4 = turn' % 4) (packet : Packet) :
    packet.veil turn = packet.veil turn' := by
  rw [veil, veil, h]

namespace Act

def isCheckTo (peer : PartyId) : Act → Bool
  | send receiver ⟨.macCheck _, _⟩ => receiver == peer
  | _ => false

def veil (past : List Act) : Act → Act
  | send peer ⟨.macCheck number, messages⟩ =>
    send peer (Packet.veil (past.countP (isCheckTo peer)) ⟨.macCheck number, messages⟩)
  | act => act

end Act

def veilAfter (past : List Act) : List Act → List Act
  | [] => []
  | act :: acts => act.veil past :: veilAfter (past ++ [act]) acts

def veil (acts : List Act) : List Act := veilAfter [] acts

section Veil

variable {past acts acts' : List Act} {peers : List PartyId} {number : UInt64} {messages : List Payload}
  {turn : Nat}

theorem veilAfter_append (past front back : List Act) :
    veilAfter past (front ++ back) = veilAfter past front ++ veilAfter (past ++ front) back := by
  induction front generalizing past with
  | nil => rw [List.append_nil]; rfl
  | cons act front ih =>
    rw [List.cons_append, veilAfter, veilAfter, ih, List.append_assoc, List.singleton_append,
      List.cons_append]

theorem veil_append (front back : List Act) : veil (front ++ back) = veil front ++ veilAfter front back :=
  veilAfter_append [] front back

/-- What comes later does not lift the veil. -/
theorem isPrefix_veil (h : acts <+: acts') : veil acts <+: veil acts' := by
  obtain ⟨rest, rfl⟩ := h
  rw [veil_append]
  exact List.prefix_append ..

theorem veilAfter_of_not_isCheckTo (h : ∀ act ∈ acts, ∀ peer, act.isCheckTo peer = false) :
    veilAfter past acts = acts := by
  induction acts generalizing past with
  | nil => rfl
  | cons act acts ih =>
    obtain ⟨hact, hacts⟩ := List.forall_mem_cons.mp h
    have hveil : act.veil past = act := by
      match act, hact with
      | .take _, _ | .send _ ⟨.circuit _, _⟩, _ => rfl
      | .send peer ⟨.macCheck _, _⟩, hact => simpa [Act.isCheckTo] using hact peer
    rw [veilAfter, hveil, ih hacts]

theorem isCheckTo_of_mem_map_take {act : Act} (h : act ∈ peers.map Act.take) (peer : PartyId) :
    act.isCheckTo peer = false := by
  obtain ⟨q, -, rfl⟩ := List.mem_map.mp h
  rfl

theorem isCheckTo_of_mem_speech {act : Act} (h : act ∈ speech peers ⟨.circuit number, messages⟩)
    (peer : PartyId) : act.isCheckTo peer = false := by
  obtain hsend | htake := List.mem_append.mp h
  · obtain ⟨q, -, rfl⟩ := List.mem_map.mp hsend
    rfl
  · exact isCheckTo_of_mem_map_take htake peer

theorem countP_speech (hnodup : peers.Nodup) {peer : PartyId} (hpeer : peer ∈ peers) :
    (speech peers ⟨.macCheck number, messages⟩).countP (Act.isCheckTo peer) = 1 := by
  have hsends : (peers.map (Act.send · ⟨.macCheck number, messages⟩)).countP (Act.isCheckTo peer) =
      peers.count peer := by
    rw [List.countP_map, List.count]
    exact List.countP_congr fun _ _ => Iff.rfl
  have htakes : (peers.map Act.take).countP (Act.isCheckTo peer) = 0 :=
    List.countP_eq_zero.mpr fun act hact => by simp [isCheckTo_of_mem_map_take hact]
  rw [speech, List.countP_append, hsends, htakes, hnodup.count, if_pos hpeer]

/-- The packets of an exchange are all veiled in the same way. -/
theorem veilAfter_speech (hnodup : peers.Nodup)
    (hturn : ∀ peer ∈ peers, past.countP (Act.isCheckTo peer) % 4 = turn % 4) :
    veilAfter past (speech peers ⟨.macCheck number, messages⟩) =
      speech peers (Packet.veil turn ⟨.macCheck number, messages⟩) := by
  rw [speech, veilAfter_append, veilAfter_of_not_isCheckTo fun act hact => isCheckTo_of_mem_map_take hact,
    speech]
  congr 1
  induction peers generalizing past with
  | nil => rfl
  | cons peer peers ih =>
    obtain ⟨hnotin, hnodup⟩ := List.nodup_cons.mp hnodup
    obtain ⟨hpeer, hpeers⟩ := List.forall_mem_cons.mp hturn
    -- The packet to the first peer is none to the others.
    have hrest : ∀ q ∈ peers, (past ++ [Act.send peer ⟨.macCheck number, messages⟩]).countP
        (Act.isCheckTo q) % 4 = turn % 4 := by
      intro q hq
      have hne : peer ≠ q := fun heq => hnotin (heq ▸ hq)
      rw [List.countP_append, List.countP_singleton, if_neg (by simp [Act.isCheckTo, hne]), Nat.add_zero]
      exact hpeers q hq
    rw [List.map_cons, List.map_cons, veilAfter, ih hnodup hrest, Act.veil, Packet.veil_congr hpeer]

end Veil

/-! ## Terms on acts -/

/-- Terms on which a party acts as the script says, as far as it comes. -/
def Terms.acting {ω : Type} (script : List Act) : Terms ω where
  during now _ := actsOf now <+: script
  fails _ := True
  assumes _ := True

/-- Terms on which the acts of a party are these under the veil, as far as it comes. -/
def Terms.reciting (script : List Act) : Terms Unit where
  during now _ := veil (actsOf now) <+: script
  fails _ := True
  assumes _ := True

abbrev Contract.reciting {σ α : Type} (script : List Act) (ready : α → List Move → σ → Prop) :
    Contract σ α :=
  (Terms.reciting script).contract (fun _ => ()) ready

/-- The acts so far are these under the veil, and this is the number, up to multiples of four, of the
packets that every peer was sent in checks. -/
structure Recited (me : Party) (turn : Nat) (script : List Act) (now : List Move) : Prop where
  veil_eq : veil (actsOf now) = script
  countP_eq : ∀ q ∈ me.peers, (actsOf now).countP (Act.isCheckTo q) % 4 = turn % 4

section Reciting

variable {σ α : Type} {me : Party} {turn : Nat} {script script' : List Act} {past now : List Move}
  {number : UInt64} {messages : List Payload}

theorem Program.Meets.reciting_mono {p : Program σ α} {ready : α → List Move → σ → Prop} {s : σ}
    (h : p.Meets (.reciting script ready) past s) (hwithin : script <+: script') :
    p.Meets (.reciting script' ready) past s :=
  h.mono (fun _ _ hnow => hnow.trans hwithin) (fun _ _ _ _ => id) fun _ _ _ _ => id

theorem Recited.during (h : Recited me turn script now) (hwithin : script <+: script') :
    veil (actsOf now) <+: script' :=
  h.veil_eq ▸ hwithin

theorem Recited.congr (h : Recited me turn script past) (hacts : actsOf now = actsOf past) :
    Recited me turn script now := by
  obtain ⟨hveil, hcount⟩ := h
  rw [← hacts] at hveil hcount
  exact ⟨hveil, hcount⟩

theorem Recited.inner (h : Recited me turn script past) (event : Option Event) :
    Recited me turn script (past ++ [Move.inner event]) :=
  h.congr (actsOf_inner event)

theorem Recited.veil_speech (h : Recited me turn script past) :
    veil (actsOf past ++ speech me.peers ⟨.macCheck number, messages⟩) =
      script ++ speech me.peers (Packet.veil turn ⟨.macCheck number, messages⟩) := by
  rw [veil_append, h.veil_eq, veilAfter_speech Party.nodup_peers h.countP_eq]

theorem Recited.speech (h : Recited me turn script past)
    (hacts : actsOf now = actsOf past ++ AuthenticatedMpc.speech me.peers ⟨.macCheck number, messages⟩) :
    Recited me (turn + 1)
      (script ++ AuthenticatedMpc.speech me.peers (Packet.veil turn ⟨.macCheck number, messages⟩)) now where
  veil_eq := by rw [hacts, h.veil_speech]
  countP_eq q hq := by
    rw [hacts, List.countP_append, countP_speech Party.nodup_peers hq, Nat.add_mod, h.countP_eq q hq,
      ← Nat.add_mod]

theorem Recited.veil_append {acts : List Act} (h : Recited me turn script past)
    (hcheck : ∀ act ∈ acts, ∀ peer, act.isCheckTo peer = false) :
    veil (actsOf past ++ acts) = script ++ acts := by
  rw [AuthenticatedMpc.veil_append, h.veil_eq, veilAfter_of_not_isCheckTo hcheck]

theorem Recited.append {acts : List Act} (h : Recited me turn script past)
    (hcheck : ∀ act ∈ acts, ∀ peer, act.isCheckTo peer = false) (hacts : actsOf now = actsOf past ++ acts) :
    Recited me turn (script ++ acts) now where
  veil_eq := by rw [hacts, h.veil_append hcheck]
  countP_eq q hq := by
    have hnone : acts.countP (Act.isCheckTo q) = 0 :=
      List.countP_eq_zero.mpr fun act hact => by simp [hcheck act hact q]
    rw [hacts, List.countP_append, hnone, Nat.add_zero, h.countP_eq q hq]

end Reciting
end AuthenticatedMpc
