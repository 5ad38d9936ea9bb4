import AuthenticatedMpc.Simulation.Mesh
import AuthenticatedMpc.Simulation.Script

/-!
# Interference on a mesh

Rules change what chosen sends put on the mesh: the packet may be dropped, doubled or altered, or
the send may fail. Every send is kept as the party made it.
-/

namespace AuthenticatedMpc

/-- What is done to a packet. -/
inductive Tampering where
  | drop
  | duplicate
  | setPhase (phase : Phase)
  | setMessage (message : Nat) (bytes : Payload)
  | flipByte (message place : Nat) (mask : UInt8)
  | insertMessage (message : Nat) (bytes : Payload)
  | removeMessage (message : Nat)
  | swapMessages (first second : Nat)
  | fail
deriving DecidableEq, Repr

namespace Tampering

/-- Exchanges two elements of a list, if both are there. -/
def swap {α : Type} (elements : List α) (i j : Nat) : List α :=
  match elements[i]?, elements[j]? with
  | some a, some b => (elements.set i b).set j a
  | _, _ => elements

/-- The packets that are sent instead of the given ones; nothing where the send fails. -/
def apply (packets : List Packet) : Tampering → Option (List Packet)
  | drop => some []
  | duplicate => some (packets.flatMap fun packet => [packet, packet])
  | setPhase phase => some (packets.map fun packet => { packet with phase })
  | setMessage message bytes => some (mapMessages fun messages => messages.set message bytes)
  | flipByte message place mask =>
    some (mapMessages fun messages => messages.modify message fun bytes =>
      bytes.modify place (· ^^^ mask))
  | insertMessage message bytes =>
    some (mapMessages fun messages => messages.insertIdx message bytes)
  | removeMessage message => some (mapMessages fun messages => messages.eraseIdx message)
  | swapMessages first second => some (mapMessages fun messages => swap messages first second)
  | fail => none
where
  mapMessages (update : List Payload → List Payload) : List Packet :=
    packets.map fun packet => { packet with messages := update packet.messages }

end Tampering

/-- A tampering with one send, counted for each sender and receiver. -/
structure Rule where
  sender : PartyId
  receiver : PartyId
  nth : Nat
  tampering : Tampering
deriving DecidableEq, Repr

structure SendCall where
  sender : PartyId
  receiver : PartyId
  packet : Packet
deriving DecidableEq, Repr

/-- A mesh with interference. -/
structure Network where
  mesh : Mesh
  rules : List Rule
  /-- All sends so far, newest first. -/
  calls : List SendCall := []

namespace Network

def callCount (network : Network) (sender receiver : PartyId) : Nat :=
  network.calls.countP fun call => call.sender == sender && call.receiver == receiver

def callsOf (network : Network) (sender : PartyId) : List SendCall :=
  (network.calls.filter (·.sender == sender)).reverse

/-- The tamperings with the next send between two parties, in the order of the rules. -/
def tamperings (network : Network) (sender receiver : PartyId) : List Tampering :=
  (network.rules.filter fun rule =>
    rule.sender == sender && rule.receiver == receiver &&
      rule.nth == network.callCount sender receiver).map Rule.tampering

def sendAll (mesh : Mesh) (me peer : PartyId) : List Packet → Except NetworkError Unit × Mesh
  | [] => (.ok (), mesh)
  | packet :: rest =>
    match mesh.send me peer packet with
    | (.ok (), mesh) => sendAll mesh me peer rest
    | (.error error, mesh) => (.error error, mesh)

def send (network : Network) (me peer : PartyId) (packet : Packet) :
    Except NetworkError Unit × Network :=
  let after := { network with calls := ⟨me, peer, packet⟩ :: network.calls }
  match (network.tamperings me peer).foldlM Tampering.apply [packet] with
  | none => (.error Script.injected, after)
  | some packets =>
    let (reply, mesh) := sendAll network.mesh me peer packets
    (reply, { after with mesh })

def receive (network : Network) (me peer : PartyId) :
    Option (Except NetworkError Packet × Network) :=
  (network.mesh.receive me peer).map fun (reply, mesh) => (reply, { network with mesh })

def port (me : PartyId) : Transport Network where
  send network peer packet := network.send me peer packet
  receive network peer := network.receive me peer
  close network := { network with mesh := network.mesh.close me }

end Network
end AuthenticatedMpc
