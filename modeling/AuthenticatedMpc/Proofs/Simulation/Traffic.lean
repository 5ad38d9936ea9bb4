import AuthenticatedMpc.Proofs.Simulation.Commuting

/-!
# Traffic over the mesh

Parties call their networks in any order: they send, receive, close their streams and give their
networks up. Whatever they do, what a party has received from another are the first of the packets
that were sent to it, the others are in the queue between them, and the counts of a party are those of
its own calls.
-/

namespace AuthenticatedMpc

-- The empty sum is the numeral zero.
attribute [local instance (high)] Zero.ofOfNat0

/-- A call of a party on its network. -/
inductive MeshCall where
  | send (peer : PartyId) (packet : Packet)
  | receive (peer : PartyId)
  | close
  /-- Gives the network up. -/
  | leave

inductive MeshEvent where
  | moved (party : PartyId) (move : Move)
  | left (party : PartyId)

namespace Mesh

/-- One call of a party. Nothing happens where the party has no network any more, and where a receive
would have to wait. -/
def call (mesh : Mesh) (me : PartyId) (call : MeshCall) : Option (MeshEvent × Mesh) :=
  if mesh.isPresent me then
    match call with
    | .send peer packet =>
      let (reply, after) := mesh.send me peer packet
      some (.moved me (.sent peer packet reply), after)
    | .receive peer =>
      (mesh.receive me peer).map fun (reply, after) => (.moved me (.received peer reply), after)
    | .close => some (.moved me .closed, mesh.close me)
    | .leave => some (.left me, mesh.disconnect me)
  else none

def play (mesh : Mesh) : List (PartyId × MeshCall) → List MeshEvent × Mesh
  | [] => ([], mesh)
  | (me, call) :: rest =>
    match mesh.call me call with
    | none => mesh.play rest
    | some (event, after) =>
      let (log, last) := after.play rest
      (event :: log, last)

end Mesh

/-! ## What the log tells -/

def MeshEvent.moveOf? (p : PartyId) : MeshEvent → Option Move
  | moved party move => if party = p then some move else none
  | left _ => none

def movesOf (p : PartyId) (log : List MeshEvent) : List Move := log.filterMap (MeshEvent.moveOf? p)

/-- The party has closed its streams, or its network is gone. -/
def HasEnded (p : PartyId) (log : List MeshEvent) : Prop :=
  .moved p .closed ∈ log ∨ .left p ∈ log

namespace Move

/-- The packet of a send that went through, or that failed since the network of the peer was gone. -/
def dispatched? : Move → Option Packet
  | .sent _ packet (.ok ()) | .sent _ packet (.error (.sendFailed _)) => some packet
  | _ => none

def taken? : Move → Option Packet
  | .received _ (.ok packet) => some packet
  | _ => none

end Move

def TrafficCount.ofMoves (moves : List Move) : TrafficCount :=
  let sent := moves.filterMap Move.dispatched?
  let received := moves.filterMap Move.taken?
  ⟨sent.length, received.length, (sent.map Packet.payloadLength).sum,
    (received.map Packet.payloadLength).sum⟩

section Log

variable {p me : PartyId} {log : List MeshEvent} {move : Move}

theorem movesOf_moved (p : PartyId) :
    movesOf p (log ++ [.moved me move]) = movesOf p log ++ if p = me then [move] else [] := by
  rw [movesOf, List.filterMap_append, ← movesOf]
  by_cases h : me = p
  · simp [MeshEvent.moveOf?, h]
  · simp [MeshEvent.moveOf?, h, Ne.symm h]

theorem movesOf_left (p : PartyId) : movesOf p (log ++ [.left me]) = movesOf p log :=
  List.filterMap_append.trans (List.append_nil _)

theorem hasEnded_moved :
    HasEnded p (log ++ [.moved me move]) ↔ HasEnded p log ∨ me = p ∧ move = .closed := by
  simp only [HasEnded, List.mem_append, List.mem_singleton, MeshEvent.moved.injEq, reduceCtorEq,
    or_false, eq_comm]
  tauto

theorem hasEnded_left : HasEnded p (log ++ [.left me]) ↔ HasEnded p log ∨ me = p := by
  simp only [HasEnded, List.mem_append, List.mem_singleton, MeshEvent.left.injEq, reduceCtorEq,
    or_false, eq_comm]
  tauto

theorem sentTo_moved (p q : PartyId) :
    sentTo q (talkOf (movesOf p (log ++ [.moved me move]))) =
      sentTo q (talkOf (movesOf p log)) ++ if p = me then sentTo q (talkOf [move]) else [] := by
  rw [movesOf_moved, talkOf_append, sentTo_append]
  split <;> rfl

theorem receivedFrom_moved (p q : PartyId) :
    receivedFrom p (talkOf (movesOf q (log ++ [.moved me move]))) =
      receivedFrom p (talkOf (movesOf q log)) ++
        if q = me then receivedFrom p (talkOf [move]) else [] := by
  rw [movesOf_moved, talkOf_append, receivedFrom_append]
  split <;> rfl

theorem Move.tally_ofMoves (moves : List Move) :
    move.tally (.ofMoves moves) = .ofMoves (moves ++ [move]) := by
  rcases move with _ | ⟨_, _, (_ | _ | _ | _) | ⟨⟨⟩⟩⟩ | ⟨_, _ | _⟩ | _ <;>
    simp [tally, dispatched?, taken?, TrafficCount.ofMoves, TrafficCount.countSent,
      TrafficCount.countReceived, List.filterMap_cons]

end Log

namespace Mesh

variable {n : Nat} {mesh mesh' : Mesh} {me p q : PartyId} {move : Move}
  {event : MeshEvent} {log : List MeshEvent} {packet : Packet}

/-! ## One call -/

theorem of_call {call : MeshCall} (h : mesh.call me call = some (event, mesh')) :
    mesh.isPresent me = true ∧
      ((∃ move, event = .moved me move ∧ mesh.Answers me move ∧ mesh' = mesh.after me move) ∨
        event = .left me ∧ mesh' = mesh.disconnect me) := by
  unfold Mesh.call at h
  split at h
  · next hpresent =>
    refine ⟨hpresent, ?_⟩
    cases call with
    | send peer packet =>
      cases h
      exact .inl ⟨_, rfl, rfl, send_snd rfl⟩
    | receive peer =>
      obtain ⟨⟨reply, _⟩, hreceive, heq⟩ := Option.map_eq_some_iff.mp h
      cases heq
      exact .inl ⟨_, rfl, ⟨_, hreceive⟩, receive_snd hreceive⟩
    | close =>
      cases h
      exact .inl ⟨_, rfl, trivial, close_eq⟩
    | leave =>
      cases h
      exact .inr ⟨rfl, rfl⟩
  · cases h

theorem count_after (hme : me < mesh.parties) :
    (mesh.after me move).count p =
      if p = me then move.tally (mesh.count p) else mesh.count p := by
  unfold count
  rw [getElem?_after]
  by_cases hp : p = me
  · subst hp
    obtain ⟨station, hstation⟩ : ∃ station, mesh.stations[p]? = some station :=
      ⟨_, List.getElem?_eq_getElem hme⟩
    simp [hstation, Station.after]
  · cases mesh.stations[p]? <;> simp [Station.after, hp, Ne.symm hp]

theorem count_disconnect : (mesh.disconnect me).count p = mesh.count p := by
  unfold count disconnect modifyStation
  rw [List.getElem?_modify]
  split <;> cases mesh.stations[p]? <;> rfl

theorem isOpen_after_iff : (mesh.after me move).isOpen p = true ↔
    mesh.isOpen p = true ∧ ¬(me = p ∧ move = .closed) := by
  rw [isOpen_after]
  cases move <;> simp [Move.closes]

theorem isOpen_disconnect_iff :
    (mesh.disconnect me).isOpen p = true ↔ mesh.isOpen p = true ∧ me ≠ p := by
  unfold isOpen disconnect modifyStation
  rw [List.getElem?_modify]
  split <;> cases mesh.stations[p]? <;> simp [*]

theorem isPresent_disconnect_iff :
    (mesh.disconnect me).isPresent p = true ↔ mesh.isPresent p = true ∧ me ≠ p := by
  unfold isPresent disconnect modifyStation
  rw [List.getElem?_modify]
  split <;> cases mesh.stations[p]? <;> simp [*]

/-- What a move takes from the front of a queue its party hears, and what it puts at the end of one its
party says. -/
theorem Wired.after (h : mesh.Wired n) (hme : me < n) (hmove : mesh.Answers me move) :
    (mesh.after me move).Wired n ∧ ∀ p q,
      (if q = me then receivedFrom p (talkOf [move]) else []) ++ (mesh.after me move).queue p q =
        mesh.queue p q ++ if p = me then sentTo q (talkOf [move]) else [] := by
  cases move with
  | inner event =>
    rw [after_inner]
    refine ⟨h, fun p q => ?_⟩
    change (if q = me then [] else []) ++ mesh.queue p q = mesh.queue p q ++ if p = me then [] else []
    rw [ite_self, ite_self, List.nil_append, List.append_nil]
  | sent peer packet reply =>
    have hsend : mesh.send me peer packet = (reply, mesh.after me (.sent peer packet reply)) :=
      Prod.ext hmove (send_snd hmove)
    obtain ⟨hwired, hqueue⟩ := h.send_talk hme hsend
    refine ⟨hwired, fun p q => ?_⟩
    rw [hqueue, receivedFrom_talkOf_sent, ite_self, List.nil_append]
  | received peer reply =>
    obtain ⟨mesh', hreceive⟩ := hmove
    obtain rfl := receive_snd hreceive
    obtain ⟨hwired, hqueue⟩ := h.receive_talk hme hreceive
    refine ⟨hwired, fun p q => ?_⟩
    rw [hqueue, sentTo_talkOf_received, ite_self, List.append_nil]
  | closed =>
    rw [← close_eq]
    refine ⟨h.modifyStation fun _ => rfl, fun p q => ?_⟩
    rw [queue_close]
    change (if q = me then [] else []) ++ mesh.queue p q = mesh.queue p q ++ if p = me then [] else []
    rw [ite_self, ite_self, List.nil_append, List.append_nil]

/-! ## All calls -/

/-- The log says of each party whether it can send, whether its network exists and what it has counted,
and of each two what is on its way between them. -/
structure Accounted (n : Nat) (log : List MeshEvent) (mesh : Mesh) : Prop where
  wired : mesh.Wired n
  isOpen : ∀ p, mesh.isOpen p = true ↔ p < n ∧ ¬HasEnded p log
  isPresent : ∀ p, mesh.isPresent p = true ↔ p < n ∧ .left p ∉ log
  queue : ∀ p q, sentTo q (talkOf (movesOf p log)) =
    receivedFrom p (talkOf (movesOf q log)) ++ mesh.queue p q
  count : ∀ p, mesh.count p = .ofMoves (movesOf p log)

theorem accounted_connect (n : Nat) : Accounted n [] (connect n) where
  wired := wired_connect n
  isOpen p := by
    by_cases h : p < n <;> simp [Mesh.isOpen, connect, HasEnded, h]
  isPresent p := by
    by_cases h : p < n <;> simp [Mesh.isPresent, connect, h]
  queue p q := (queue_connect n p q).symm
  count p := by
    by_cases h : p < n <;> simp [Mesh.count, connect, h] <;> rfl

namespace Accounted

theorem moved (h : Accounted n log mesh) (hme : me < n) (hmove : mesh.Answers me move) :
    Accounted n (log ++ [.moved me move]) (mesh.after me move) where
  wired := (h.wired.after hme hmove).1
  isOpen p := by
    rw [isOpen_after_iff, hasEnded_moved, h.isOpen, not_or, and_assoc]
  isPresent p := by
    rw [isPresent_after, h.isPresent]
    simp
  queue p q := by
    rw [sentTo_moved, receivedFrom_moved, h.queue, List.append_assoc, List.append_assoc,
      (h.wired.after hme hmove).2]
  count p := by
    rw [count_after (h.wired.parties_eq.symm ▸ hme), movesOf_moved]
    split
    · rw [h.count, Move.tally_ofMoves]
    · rw [List.append_nil, h.count]

theorem left (h : Accounted n log mesh) :
    Accounted n (log ++ [.left me]) (mesh.disconnect me) where
  wired := h.wired.modifyStation fun _ => rfl
  isOpen p := by
    rw [isOpen_disconnect_iff, hasEnded_left, h.isOpen, not_or, and_assoc]
  isPresent p := by
    rw [isPresent_disconnect_iff, h.isPresent, List.mem_append, not_or, and_assoc]
    simp [eq_comm]
  queue p q := by
    rw [movesOf_left, movesOf_left, queue_disconnect, h.queue]
  count p := by
    rw [movesOf_left, count_disconnect, h.count]

theorem call (h : Accounted n log mesh) {call : MeshCall}
    (hcall : mesh.call me call = some (event, mesh')) : Accounted n (log ++ [event]) mesh' := by
  obtain ⟨hpresent, ⟨move, rfl, hmove, rfl⟩ | ⟨rfl, rfl⟩⟩ := of_call hcall
  · exact h.moved ((h.isPresent me).mp hpresent).1 hmove
  · exact h.left

theorem play (h : Accounted n log mesh) (calls : List (PartyId × MeshCall)) :
    Accounted n (log ++ (mesh.play calls).1) (mesh.play calls).2 := by
  induction calls generalizing mesh log with
  | nil => rwa [Mesh.play, List.append_nil]
  | cons first rest ih =>
    obtain ⟨me, call⟩ := first
    rw [Mesh.play]
    cases hcall : mesh.call me call with
    | none => exact ih h
    | some result =>
      obtain ⟨event, after⟩ := result
      have hrest := ih (h.call hcall)
      rwa [List.append_assoc] at hrest

theorem hasEnded_iff (h : Accounted n log mesh) (hp : p < n) :
    HasEnded p log ↔ ¬mesh.isOpen p = true := by
  rw [h.isOpen, not_and, not_not]
  exact ⟨fun hended _ => hended, fun hended => hended hp⟩

theorem left_mem_iff (h : Accounted n log mesh) (hp : p < n) :
    .left p ∈ log ↔ ¬mesh.isPresent p = true := by
  rw [h.isPresent, not_and, not_not]
  exact ⟨fun hleft _ => hleft, fun hleft => hleft hp⟩

/-- A receive fails exactly when the peer sends no more and nothing of it is on its way. -/
theorem receive_failed_iff (h : Accounted n log mesh) :
    (∃ reason mesh', mesh.receive q p = some (.error (.receiveFailed reason), mesh')) ↔
      p < n ∧ p ≠ q ∧ HasEnded p log ∧ mesh.queue p q = [] := by
  rw [Mesh.receive, h.wired.parties_eq]
  by_cases hknown : p < n ∧ p ≠ q
  · rw [if_pos hknown, h.hasEnded_iff hknown.1]
    cases hqueue : mesh.queue p q with
    | cons packet rest => simp
    | nil => by_cases hopen : mesh.isOpen p = true <;> simp [hopen, hknown, NetworkError.streamEnded]
  · rw [if_neg hknown]
    constructor
    · rintro ⟨_, _, ⟨⟩⟩
    · rintro ⟨hp, hne, -⟩
      exact absurd ⟨hp, hne⟩ hknown

/-- A send fails in the channel exactly when its party can send and the network of the peer is gone. -/
theorem send_failed_iff (h : Accounted n log mesh) :
    (∃ reason, (mesh.send p q packet).1 = .error (.sendFailed reason)) ↔
      p < n ∧ q < n ∧ p ≠ q ∧ ¬HasEnded p log ∧ .left q ∈ log := by
  rw [send_fst, h.wired.parties_eq]
  by_cases hknown : q < n ∧ q ≠ p
  · rw [if_pos hknown, h.left_mem_iff hknown.1]
    by_cases hopen : mesh.isOpen p = true
    · obtain ⟨hp, hended⟩ := (h.isOpen p).mp hopen
      rw [if_pos hopen]
      by_cases hpresent : mesh.isPresent q = true <;>
        simp [hpresent, hp, hended, hknown.1, hknown.2.symm, NetworkError.channelClosed]
    · rw [if_neg hopen]
      constructor
      · rintro ⟨_, ⟨⟩⟩
      · rintro ⟨hp, -, -, hended, -⟩
        exact absurd ((h.isOpen p).mpr ⟨hp, hended⟩) hopen
  · rw [if_neg hknown]
    constructor
    · rintro ⟨_, ⟨⟩⟩
    · rintro ⟨-, hq, hne, -⟩
      exact absurd ⟨hq, hne.symm⟩ hknown

end Accounted

/-- Whatever the parties do with their networks, what one has received from another are the first of the
packets that were sent to it with success, and the others are in the queue between them. A receive fails
exactly when the peer has closed its streams or given its network up and the queue is empty. What counts
as sent by a party are its sends with success and those that failed since the peer had given its network
up, and what counts as received are its receives with success. -/
theorem traffic_accounted (n : Nat) (calls : List (PartyId × MeshCall)) :
    let run := (connect n).play calls
    let moves : PartyId → List Move := fun p => movesOf p run.1
    (∀ p q, receivedFrom p (talkOf (moves q)) <+: sentTo q (talkOf (moves p)) ∧
      sentTo q (talkOf (moves p)) = receivedFrom p (talkOf (moves q)) ++ run.2.queue p q) ∧
    (∀ p q, (∃ reason mesh, run.2.receive q p = some (.error (.receiveFailed reason), mesh)) ↔
      p < n ∧ p ≠ q ∧ HasEnded p run.1 ∧ run.2.queue p q = []) ∧
    (∀ p q packet, (∃ reason, (run.2.send p q packet).1 = .error (.sendFailed reason)) ↔
      p < n ∧ q < n ∧ p ≠ q ∧ ¬HasEnded p run.1 ∧ .left q ∈ run.1) ∧
    ∀ p, run.2.count p = .ofMoves (moves p) := by
  intro run moves
  have h : Accounted n run.1 run.2 := (accounted_connect n).play calls
  refine ⟨fun p q => ⟨?_, h.queue p q⟩, fun p q => h.receive_failed_iff,
    fun p q packet => h.send_failed_iff, h.count⟩
  exact ⟨_, (h.queue p q).symm⟩

/-- The third party leaves before anything is sent to it, and the first closes its streams with two packets
on their way to the second, who receives both and then finds the stream ended. -/
example :
    let packet : Packet := ⟨.circuit 0, [[1, 2], [3]]⟩
    let run := (connect 3).play
      [(1, .receive 0), (0, .send 1 packet), (2, .leave), (0, .send 1 ⟨.circuit 1, []⟩), (0, .close),
        (0, .send 1 packet), (1, .send 2 packet), (1, .receive 0), (1, .receive 0), (1, .receive 0),
        (2, .send 1 packet)]
    run.1.length = 9 ∧ run.2.count 0 = ⟨2, 0, 3, 0⟩ ∧ run.2.count 1 = ⟨1, 2, 3, 3⟩ ∧
      run.2.count 2 = {} ∧ run.2.queue 0 1 = [] := by
  decide

end Mesh
end AuthenticatedMpc
