import AuthenticatedMpc.Proofs.Simulation.History

/-!
# Moves of different parties

A move of a party counts in its own station, and changes one queue: what it sends goes to the end of
a queue of the receiver, what it receives is taken from the front of one of its own. So a move that a
party can make stays possible whatever another party does, with the same reply, and two moves of
different parties can be made in either order.
-/

namespace AuthenticatedMpc

variable {σ α : Type}

namespace Move

def tally : Move → TrafficCount → TrafficCount
  | .sent _ packet (.ok ()), count => count.countSent packet
  | .sent _ packet (.error (.sendFailed _)), count => count.countSent packet
  | .received _ (.ok packet), count => count.countReceived packet
  | _, count => count

/-- What a move of one party does to the packets on their way to another, or to itself. -/
def pass (me party : PartyId) : Move → List (List Packet) → List (List Packet)
  | .sent peer packet (.ok ()), incoming =>
    if peer = party then incoming.modify me (· ++ [packet]) else incoming
  | .received peer (.ok _), incoming => if me = party then incoming.modify peer List.tail else incoming
  | _, incoming => incoming

def closes : Move → Bool
  | .closed => true
  | _ => false

end Move

namespace Station

def after (me : PartyId) (move : Move) (party : PartyId) (station : Station) : Station where
  incoming := move.pass me party station.incoming
  isOpen := station.isOpen && !(me = party && move.closes)
  isPresent := station.isPresent
  count := if me = party then move.tally station.count else station.count

end Station

namespace Mesh

variable {mesh mesh' : Mesh} {station : Station} {me you peer source party sender receiver : PartyId}
  {packet packet' : Packet} {move other : Move}

def after (mesh : Mesh) (me : PartyId) (move : Move) : Mesh :=
  ⟨mesh.stations.mapIdx (Station.after me move)⟩

/-- The move of the party is one that the mesh answers now. -/
def Answers (mesh : Mesh) (me : PartyId) : Move → Prop
  | .sent peer packet reply => (mesh.send me peer packet).1 = reply
  | .received peer reply => ∃ mesh', mesh.receive me peer = some (reply, mesh')
  | _ => True

/-! ## What is seen after a move -/

theorem getElem?_after (party : PartyId) :
    (mesh.after me move).stations[party]? =
      mesh.stations[party]?.map (Station.after me move party) :=
  List.getElem?_mapIdx

@[simp] theorem parties_after : (mesh.after me move).parties = mesh.parties :=
  List.length_mapIdx

@[simp] theorem isPresent_after : (mesh.after me move).isPresent party = mesh.isPresent party := by
  unfold isPresent
  rw [getElem?_after, Option.map_map]
  rfl

theorem isOpen_after :
    (mesh.after me move).isOpen party = (mesh.isOpen party && !(me = party && move.closes)) := by
  unfold isOpen
  rw [getElem?_after]
  cases mesh.stations[party]? <;> simp [Station.after]

theorem queue_after :
    (mesh.after me move).queue sender receiver =
      (mesh.stations[receiver]?.bind fun station =>
        (move.pass me receiver station.incoming)[sender]?).getD [] := by
  unfold queue
  rw [getElem?_after]
  cases mesh.stations[receiver]? <;> rfl

theorem eq_of_getElem? (h : ∀ party : PartyId, mesh.stations[party]? = mesh'.stations[party]?) :
    mesh = mesh' :=
  congrArg Mesh.mk (List.ext_getElem? h)

section After

attribute [local simp] Station.after Move.pass Move.tally Move.closes

theorem send_snd {reply : Except NetworkError Unit} (h : (mesh.send me peer packet).1 = reply) :
    (mesh.send me peer packet).2 = mesh.after me (.sent peer packet reply) := by
  subst h
  apply eq_of_getElem?
  intro party
  rw [getElem?_after]
  unfold send modifyQueue modifyStation
  split
  · split
    · dsimp only
      split
      · simp only [List.getElem?_modify]
        cases mesh.stations[party]? <;> by_cases hme : me = party <;> by_cases hpeer : peer = party <;>
          simp [hme, hpeer]
      · simp only [List.getElem?_modify]
        cases mesh.stations[party]? <;> by_cases hme : me = party <;>
          simp [hme, NetworkError.channelClosed]
    · cases mesh.stations[party]? <;> simp
  · cases mesh.stations[party]? <;> simp

theorem receive_snd {reply : Except NetworkError Packet}
    (h : mesh.receive me peer = some (reply, mesh')) :
    mesh' = mesh.after me (.received peer reply) := by
  apply eq_of_getElem?
  intro party
  rw [getElem?_after]
  unfold receive modifyQueue modifyStation at h
  split at h
  · split at h
    · cases h
      simp only [List.getElem?_modify]
      cases mesh.stations[party]? <;> by_cases hme : me = party <;>
        simp [hme]
    · split at h
      · cases h
      · cases h
        cases mesh.stations[party]? <;> simp
  · cases h
    cases mesh.stations[party]? <;> simp

theorem close_eq : mesh.close me = mesh.after me .closed := by
  apply eq_of_getElem?
  intro party
  rw [getElem?_after]
  unfold close modifyStation
  rw [List.getElem?_modify]
  cases mesh.stations[party]? <;> by_cases hme : me = party <;>
    simp [hme]

@[simp] theorem after_inner {event : Option Event} : mesh.after me (.inner event) = mesh := by
  apply eq_of_getElem?
  intro party
  rw [getElem?_after]
  cases mesh.stations[party]? <;> simp

end After

/-! ## Moves of two parties -/

theorem send_fst : (mesh.send me peer packet).1 =
    if peer < mesh.parties ∧ peer ≠ me then
      if mesh.isOpen me then
        if mesh.isPresent peer then .ok () else .error .channelClosed
      else .error .connectionClosed
    else .error (.unknownParty peer) := by
  unfold send
  split
  · split
    · dsimp only
      split <;> rfl
    · rfl
  · rfl

theorem isOpen_of_send (h : (mesh.send me peer packet).1 = .ok ()) : mesh.isOpen me = true := by
  rw [send_fst] at h
  split at h
  · split at h
    · assumption
    · cases h
  · cases h

theorem exists_queue_of_receive (h : mesh.receive me peer = some (.ok packet, mesh')) :
    ∃ rest, mesh.queue peer me = packet :: rest := by
  unfold receive at h
  split at h
  · split at h
    · next rest hqueue =>
      cases h
      exact ⟨rest, hqueue⟩
    · split at h <;> cases h
  · cases h

theorem queue_eq_nil_of_receive (h : mesh.receive me peer = none) :
    mesh.queue peer me = [] ∧ mesh.isOpen peer = true := by
  unfold receive at h
  split at h
  · split at h
    · cases h
    · next hqueue =>
      refine ⟨hqueue, ?_⟩
      by_contra hclosed
      rw [if_neg hclosed] at h
      cases h
  · cases h

theorem exists_queue_after (hne : me ≠ you) (h : mesh.Answers you other) :
    ∃ extra, (mesh.after you other).queue peer me = mesh.queue peer me ++ extra ∧
      (extra ≠ [] → mesh.isOpen peer = true) := by
  rw [queue_after]
  unfold queue
  cases mesh.stations[me]? with
  | none => exact ⟨[], rfl, by simp⟩
  | some station =>
    rw [Option.bind_some, Option.bind_some]
    rcases other with event | ⟨target, packet, cause | ⟨⟨⟩⟩⟩ | ⟨source, reply⟩ | _
    · exact ⟨[], (List.append_nil _).symm, by simp⟩
    · exact ⟨[], (List.append_nil _).symm, by simp⟩
    · by_cases hedge : target = me ∧ you = peer
      · obtain ⟨rfl, rfl⟩ := hedge
        have hopen := isOpen_of_send h
        cases hwaiting : station.incoming[you]? with
        | none => exact ⟨[], by simp [Move.pass, hwaiting], by simp⟩
        | some waiting => exact ⟨[packet], by simp [Move.pass, hwaiting], fun _ => hopen⟩
      · refine ⟨[], ?_, by simp⟩
        unfold Move.pass
        dsimp only
        split
        · next htarget =>
          have hyou : you ≠ peer := fun hyou => hedge ⟨htarget, hyou⟩
          simp [hyou]
        · rw [List.append_nil]
    · refine ⟨[], ?_, by simp⟩
      cases reply <;> simp [Move.pass, hne.symm]
    · exact ⟨[], (List.append_nil _).symm, by simp⟩

/-- A move that the mesh answers is answered the same after a move of another party. -/
theorem Answers.after (hne : me ≠ you) (h : mesh.Answers me move) (hother : mesh.Answers you other) :
    (mesh.after you other).Answers me move := by
  rcases move with event | ⟨peer, packet, reply⟩ | ⟨peer, reply⟩ | _
  · trivial
  · have hopen : (mesh.after you other).isOpen me = mesh.isOpen me := by
      rw [isOpen_after]
      simp [hne.symm]
    change (mesh.send me peer packet).1 = reply at h
    change ((mesh.after you other).send me peer packet).1 = reply
    rw [send_fst] at h ⊢
    rwa [parties_after, hopen, isPresent_after]
  · obtain ⟨mesh', hreceive⟩ := h
    obtain ⟨extra, hqueue, hextra⟩ := @exists_queue_after _ _ _ peer _ hne hother
    unfold receive at hreceive
    change ∃ mesh', (mesh.after you other).receive me peer = some (reply, mesh')
    unfold receive
    rw [parties_after, hqueue]
    split at hreceive
    · next hknown =>
      rw [if_pos hknown]
      split at hreceive
      · next packet rest hwaiting =>
        cases hreceive
        rw [hwaiting]
        exact ⟨_, rfl⟩
      · next hwaiting =>
        split at hreceive
        · cases hreceive
        · next hclosed =>
          cases hreceive
          obtain rfl : extra = [] := by
            by_contra hsome
            exact hclosed (hextra hsome)
          rw [hwaiting, List.append_nil, isOpen_after, Bool.eq_false_iff.mpr hclosed]
          exact ⟨_, rfl⟩
    · next hunknown =>
      cases hreceive
      rw [if_neg hunknown]
      exact ⟨_, rfl⟩
  · trivial

/-- Whether a packet is added at the end of a queue before or after another is taken from the front of
one does not matter, unless there is none to take. -/
theorem modify_tail_comm {incoming : List (List Packet)}
    (h : sender = peer → ∃ first rest, incoming[peer]? = some (first :: rest)) :
    (incoming.modify sender (· ++ [packet])).modify peer List.tail =
      (incoming.modify peer List.tail).modify sender (· ++ [packet]) := by
  apply List.ext_getElem?
  intro k
  simp only [List.getElem?_modify]
  by_cases hsender : sender = k
  · by_cases hpeer : peer = k
    · subst hsender hpeer
      obtain ⟨first, rest, hwaiting⟩ := h rfl
      simp [hwaiting]
    · simp [hsender, hpeer]
  · simp [hsender]

theorem pass_sent_received (hstation : mesh.stations[party]? = some station)
    (hother : mesh.Answers you (.received source (.ok packet'))) :
    (Move.received source (.ok packet')).pass you party
        ((Move.sent peer packet (.ok ())).pass me party station.incoming) =
      (Move.sent peer packet (.ok ())).pass me party
        ((Move.received source (.ok packet')).pass you party station.incoming) := by
  simp only [Move.pass]
  by_cases hpeer : peer = party
  · by_cases hyou : you = party
    · subst hpeer hyou
      simp only [if_true]
      apply modify_tail_comm
      intro hme
      subst hme
      obtain ⟨mesh', hreceive⟩ := hother
      obtain ⟨rest, hqueue⟩ := exists_queue_of_receive hreceive
      unfold queue at hqueue
      rw [hstation, Option.bind_some] at hqueue
      cases hwaiting : station.incoming[me]? with
      | none => rw [hwaiting] at hqueue; cases hqueue
      | some waiting => rw [hwaiting] at hqueue; exact ⟨_, _, congrArg some hqueue⟩
    · simp [hyou]
  · simp [hpeer]

/-- What two parties do to the packets on their way does not depend on which of them moves first. -/
theorem pass_comm (hne : me ≠ you) (hstation : mesh.stations[party]? = some station)
    (h : mesh.Answers me move) (hother : mesh.Answers you other) :
    other.pass you party (move.pass me party station.incoming) =
      move.pass me party (other.pass you party station.incoming) := by
  rcases move with _ | ⟨peer, packet, _ | ⟨⟨⟩⟩⟩ | ⟨peer, _ | packet⟩ | _
  case sent.ok =>
    rcases other with _ | ⟨target, packet', _ | ⟨⟨⟩⟩⟩ | ⟨source, _ | packet'⟩ | _
    case sent.ok =>
      -- They send to queues of their own.
      have hcomm := List.modify_modify_ne (· ++ [packet]) (· ++ [packet']) station.incoming hne
      simp only [Move.pass]
      split <;> split <;> first | rfl | exact hcomm
    case received.ok => exact pass_sent_received hstation hother
    all_goals rfl
  case received.ok =>
    rcases other with _ | ⟨target, packet', _ | ⟨⟨⟩⟩⟩ | ⟨source, _ | packet'⟩ | _
    case sent.ok => exact (pass_sent_received hstation h).symm
    case received.ok =>
      -- They do not receive at the same station.
      simp only [Move.pass]
      by_cases hme : me = party
      · have hyou : you ≠ party := fun hyou => hne (hme.trans hyou.symm)
        simp [hyou]
      · simp [hme]
    all_goals rfl
  all_goals rfl

theorem after_comm (hne : me ≠ you) (h : mesh.Answers me move) (hother : mesh.Answers you other) :
    (mesh.after me move).after you other = (mesh.after you other).after me move := by
  apply eq_of_getElem?
  intro party
  simp only [getElem?_after, Option.map_map]
  cases hstation : mesh.stations[party]? with
  | none => rfl
  | some station =>
    rw [Option.map_some, Option.map_some, Option.some_inj]
    unfold Station.after
    simp only [Function.comp_apply, Station.mk.injEq, true_and]
    refine ⟨pass_comm hne hstation h hother, Bool.and_right_comm .., ?_⟩
    by_cases hme : me = party
    · have hyou : you ≠ party := fun hyou => hne (hme.trans hyou.symm)
      simp [hme, hyou]
    · simp [hme]

end Mesh

/-! ## Two parties that can both move -/

theorem Program.next?_port_eq_some_iff {p : Program σ α} {s : σ} {mesh mesh' : Mesh} {me : PartyId}
    {move : Move} {actor : Actor σ α} :
    p.next? (Mesh.port me) s mesh = some (move, actor, mesh') ↔
      Step ⟨p, s⟩ move actor ∧ mesh.Answers me move ∧ mesh' = mesh.after me move := by
  constructor
  · intro h
    refine ⟨.of_next? h, ?_⟩
    cases p with
    | pure _ | fail _ | never => cases h
    | step event update next =>
      cases h
      exact ⟨trivial, Mesh.after_inner.symm⟩
    | send peer packet next =>
      cases h
      exact ⟨rfl, Mesh.send_snd rfl⟩
    | receive peer next =>
      simp only [next?] at h
      split at h
      · cases h
      · next reply mesh' hreceive =>
        cases h
        exact ⟨⟨_, hreceive⟩, Mesh.receive_snd hreceive⟩
    | close next =>
      cases h
      exact ⟨trivial, Mesh.close_eq⟩
  · rintro ⟨hstep, hanswers, rfl⟩
    cases hstep with
    | inner event update next => rw [next?, Mesh.after_inner]
    | send peer packet next _ reply =>
      have hreply : (mesh.send me peer packet).1 = reply := hanswers
      rw [← Mesh.send_snd hreply, ← hreply]
      rfl
    | receive peer next _ reply =>
      obtain ⟨mesh', hreceive⟩ := hanswers
      have hnet : (Mesh.port me).receive mesh peer = some (reply, mesh') := hreceive
      rw [next?, hnet, ← Mesh.receive_snd hreceive]
    | close next =>
      rw [← Mesh.close_eq]
      rfl

namespace System

/-- Two parties that can both move can do so in either order, with the same moves and to the same system. -/
theorem moveAt?_comm {system left right : System σ α Mesh} {me you : PartyId} {move other : Move}
    {s t : σ} (hne : me ≠ you) (hme : system.moveAt? Mesh.port me = some (move, s, left))
    (hyou : system.moveAt? Mesh.port you = some (other, t, right)) :
    ∃ final, left.moveAt? Mesh.port you = some (other, t, final) ∧
      right.moveAt? Mesh.port me = some (move, s, final) := by
  rw [moveAt?_eq_some_iff] at hme hyou
  obtain ⟨mine, next, mesh, hmine, rfl, hnext, rfl⟩ := hme
  obtain ⟨yours, next', mesh', hyours, rfl, hnext', rfl⟩ := hyou
  obtain ⟨hstep, hmove, rfl⟩ := Program.next?_port_eq_some_iff.mp hnext
  obtain ⟨hstep', hother, rfl⟩ := Program.next?_port_eq_some_iff.mp hnext'
  have hsecond := Program.next?_port_eq_some_iff.mpr ⟨hstep', hother.after hne.symm hmove, rfl⟩
  have hfirst := Program.next?_port_eq_some_iff.mpr ⟨hstep, hmove.after hne hother, rfl⟩
  refine ⟨⟨(system.actors.set me next).set you next', (system.medium.after me move).after you other⟩,
    moveAt?_eq_some_iff.mpr ⟨yours, next', _, ?_, rfl, hsecond, rfl⟩,
    moveAt?_eq_some_iff.mpr ⟨mine, next, _, ?_, rfl, hfirst, ?_⟩⟩
  · rw [List.getElem?_set_ne hne, hyours]
  · rw [List.getElem?_set_ne hne.symm, hmine]
  · rw [List.set_comm _ _ hne, Mesh.after_comm hne hmove hother]

end System
end AuthenticatedMpc
