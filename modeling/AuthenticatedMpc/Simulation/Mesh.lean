import AuthenticatedMpc.Party.Transport

/-!
# A mesh of queues

Every ordered pair of parties is connected by an unbounded queue of packets, first in, first out.
A party may close its streams: what it has sent can still be received. Its whole network may also
be gone: then sends to it fail.
-/

namespace AuthenticatedMpc

structure TrafficCount where
  sent : Nat := 0
  received : Nat := 0
  bytesSent : Nat := 0
  bytesReceived : Nat := 0
deriving DecidableEq, Repr

namespace TrafficCount

def countSent (count : TrafficCount) (packet : Packet) : TrafficCount :=
  { count with sent := count.sent + 1, bytesSent := count.bytesSent + packet.payloadLength }

def countReceived (count : TrafficCount) (packet : Packet) : TrafficCount :=
  { count with
    received := count.received + 1
    bytesReceived := count.bytesReceived + packet.payloadLength }

end TrafficCount

/-- One party's end of the mesh. -/
structure Station where
  /-- The packets on their way from each party, the oldest first. -/
  incoming : List (List Packet)
  /-- Whether the party can still send. -/
  isOpen : Bool := true
  /-- Whether the network of the party exists. -/
  isPresent : Bool := true
  count : TrafficCount := {}
deriving DecidableEq, Repr

structure Mesh where
  stations : List Station
deriving DecidableEq, Repr

namespace Mesh

def connect (parties : Nat) : Mesh :=
  ⟨List.replicate parties { incoming := List.replicate parties [] }⟩

def parties (mesh : Mesh) : Nat := mesh.stations.length

def modifyStation (mesh : Mesh) (party : PartyId) (update : Station → Station) : Mesh :=
  ⟨mesh.stations.modify party update⟩

def isOpen (mesh : Mesh) (party : PartyId) : Bool :=
  (mesh.stations[party]?.map Station.isOpen).getD false

def isPresent (mesh : Mesh) (party : PartyId) : Bool :=
  (mesh.stations[party]?.map Station.isPresent).getD false

/-- The packets on their way between two parties, the oldest first. -/
def queue (mesh : Mesh) (sender receiver : PartyId) : List Packet :=
  (mesh.stations[receiver]?.bind fun station => station.incoming[sender]?).getD []

def count (mesh : Mesh) (party : PartyId) : TrafficCount :=
  (mesh.stations[party]?.map Station.count).getD {}

def modifyQueue (mesh : Mesh) (sender receiver : PartyId) (update : List Packet → List Packet) :
    Mesh :=
  mesh.modifyStation receiver fun station =>
    { station with incoming := station.incoming.modify sender update }

theorem queue_modifyStation (mesh : Mesh) (party : PartyId) (update : Station → Station)
    (hincoming : ∀ station, (update station).incoming = station.incoming)
    (sender receiver : PartyId) :
    (mesh.modifyStation party update).queue sender receiver = mesh.queue sender receiver := by
  unfold queue modifyStation
  rw [List.getElem?_modify]
  split <;> cases mesh.stations[receiver]? <;> simp [hincoming]

theorem queue_modifyQueue (mesh : Mesh) {sender receiver : PartyId} {station : Station}
    (hreceiver : mesh.stations[receiver]? = some station)
    (hsender : sender < station.incoming.length) (update : List Packet → List Packet)
    (source target : PartyId) :
    (mesh.modifyQueue sender receiver update).queue source target =
      if source = sender ∧ target = receiver then update (mesh.queue source target)
      else mesh.queue source target := by
  unfold queue modifyQueue modifyStation
  by_cases htarget : target = receiver
  · subst htarget
    by_cases hsource : source = sender
    · subst hsource
      simp [hreceiver, hsender]
    · have hne : sender ≠ source := fun e => hsource e.symm
      simp [hreceiver, hsource, hne]
  · have hne : receiver ≠ target := fun e => htarget e.symm
    simp [htarget, hne]

/-- Sends a packet. It counts as sent even where the network of the receiver is gone. -/
def send (mesh : Mesh) (me peer : PartyId) (packet : Packet) : Except NetworkError Unit × Mesh :=
  if peer < mesh.parties ∧ peer ≠ me then
    if mesh.isOpen me then
      let counted := mesh.modifyStation me fun station =>
        { station with count := station.count.countSent packet }
      if mesh.isPresent peer then (.ok (), counted.modifyQueue me peer (· ++ [packet]))
      else (.error .channelClosed, counted)
    else (.error .connectionClosed, mesh)
  else (.error (.unknownParty peer), mesh)

/-- Receives the oldest packet of a peer. An empty queue has no answer yet while the peer can
send. -/
def receive (mesh : Mesh) (me peer : PartyId) : Option (Except NetworkError Packet × Mesh) :=
  if peer < mesh.parties ∧ peer ≠ me then
    match mesh.queue peer me with
    | packet :: _ =>
      let counted := mesh.modifyStation me fun station =>
        { station with count := station.count.countReceived packet }
      some (.ok packet, counted.modifyQueue peer me List.tail)
    | [] => if mesh.isOpen peer then none else some (.error .streamEnded, mesh)
  else some (.error (.unknownParty peer), mesh)

/-- Ends the streams of a party; its own queues stay. -/
def close (mesh : Mesh) (me : PartyId) : Mesh :=
  mesh.modifyStation me fun station => { station with isOpen := false }

def disconnect (mesh : Mesh) (me : PartyId) : Mesh :=
  mesh.modifyStation me fun station => { station with isOpen := false, isPresent := false }

@[simp] theorem queue_close (mesh : Mesh) (me sender receiver : PartyId) :
    (mesh.close me).queue sender receiver = mesh.queue sender receiver := by
  apply queue_modifyStation
  exact fun _ => rfl

@[simp] theorem queue_disconnect (mesh : Mesh) (me sender receiver : PartyId) :
    (mesh.disconnect me).queue sender receiver = mesh.queue sender receiver := by
  apply queue_modifyStation
  exact fun _ => rfl

def port (me : PartyId) : Transport Mesh where
  send mesh peer packet := mesh.send me peer packet
  receive mesh peer := mesh.receive me peer
  close mesh := mesh.close me

end Mesh
end AuthenticatedMpc
