/-!
# Traffic between the parties

Parties are numbered from zero. What one party sends another in a round is one packet, which carries
the phase of the computation its sender is in and the payloads in the order they were queued.
-/

namespace AuthenticatedMpc

-- The empty sum is the numeral zero.
attribute [local instance (high)] Zero.ofOfNat0

abbrev PartyId := Nat

/-- The party that shifts its share when a public value is added to a shared one. -/
def firstParty : PartyId := 0

abbrev Payload := List UInt8

/-- The stage of the computation a packet belongs to: a batch of circuit gates or a MAC check,
both numbered from zero by 64-bit words. -/
inductive Phase where
  | circuit (batch : UInt64)
  | macCheck (check : UInt64)
deriving DecidableEq, Repr

namespace Phase

def describe : Phase → String
  | circuit batch => s!"circuit batch #{batch}"
  | macCheck check => s!"MAC check #{check}"

end Phase

/-- The unit of transport between two parties. -/
structure Packet where
  phase : Phase
  messages : List Payload
deriving DecidableEq, Repr

namespace Packet

def payloadLength (packet : Packet) : Nat :=
  (packet.messages.map List.length).sum

end Packet
end AuthenticatedMpc
