import AuthenticatedMpc.Party.Transport

/-!
# A scripted transport

What each peer delivers is laid down in advance; what the party sends is kept. A receive with
nothing left to deliver fails, and so does one chosen send.
-/

namespace AuthenticatedMpc

/-- A delivery: a packet, or the failure of the receive. -/
structure Delivery where
  sender : PartyId
  content : Except NetworkError Packet

structure Script where
  /-- What is left to deliver, in order. -/
  deliveries : List Delivery
  /-- The send that fails, by its number among all sends. -/
  failingSend : Option Nat := none
  /-- The number of sends so far. -/
  sends : Nat := 0
  /-- The packets sent, newest first. -/
  sent : List (PartyId × Packet) := []

namespace Script

def injected : NetworkError := .sendFailed "injected"

def send (script : Script) (peer : PartyId) (packet : Packet) : Except NetworkError Unit × Script :=
  let next := { script with sends := script.sends + 1 }
  if script.failingSend = some script.sends then (.error injected, next)
  else (.ok (), { next with sent := (peer, packet) :: script.sent })

def pick (peer : PartyId) : List Delivery → Option (Delivery × List Delivery)
  | [] => none
  | delivery :: rest =>
    if delivery.sender = peer then some (delivery, rest)
    else (pick peer rest).map fun (found, others) => (found, delivery :: others)

def receive (script : Script) (peer : PartyId) : Except NetworkError Packet × Script :=
  match pick peer script.deliveries with
  | none => (.error .streamEnded, script)
  | some (delivery, deliveries) => (delivery.content, { script with deliveries })

/-- The scripted transport, which never lets a receive wait. -/
def transport : Transport Script where
  send := send
  receive script peer := some (script.receive peer)
  close script := script

def unread (script : Script) : Nat := script.deliveries.length

end Script
end AuthenticatedMpc
