import AuthenticatedMpc.Json.Reader
import AuthenticatedMpc.Traffic

/-!
# Packets as JSON documents

A phase is an object with one key, its kind, that holds an object with its number; a packet is an
object of its phase and its messages, which are arrays of bytes. The inner objects may also be
given as arrays of their fields, and their unknown keys are ignored.
-/

namespace AuthenticatedMpc

-- Powers of numbers are those of the core library.
attribute [local instance (high)] instPowNat

namespace Json

def onlyField? (key : String) : Json → Option Json
  | object members => if hasTextKeys members then required? key members else none
  | array [value] => some value
  | _ => none

def byte? (json : Json) : Option UInt8 := (json.naturalBelow? (2 ^ (8 : Nat))).map Nat.toUInt8

def ofByte (byte : UInt8) : Json := natural byte.toNat

end Json

namespace Phase

def toJson : Phase → Json
  | circuit batch =>
    .object [(some "Circuit", .object [(some "batch", .natural batch.toNat)])]
  | macCheck check =>
    .object [(some "MacCheck", .object [(some "check", .natural check.toNat)])]

def ofJson? : Json → Option Phase
  | .object [(some kind, body)] =>
    if kind = "Circuit" then
      ((body.onlyField? "batch").bind Json.word?).map circuit
    else if kind = "MacCheck" then
      ((body.onlyField? "check").bind Json.word?).map macCheck
    else none
  | _ => none

def toText (phase : Phase) : String := phase.toJson.render

def ofText? (text : String) : Option Phase := (Json.read? text).bind ofJson?

end Phase

namespace Packet

def toJson (packet : Packet) : Json :=
  .object [(some "phase", packet.phase.toJson),
    (some "messages", .array (packet.messages.map fun message => .array (message.map .ofByte)))]

def message? (json : Json) : Option Payload := json.asArray?.bind (·.mapM Json.byte?)

def ofFields? (phase messages : Json) : Option Packet := do
  let phase ← Phase.ofJson? phase
  let items ← messages.asArray?
  let messages ← items.mapM message?
  pure ⟨phase, messages⟩

def ofJson? : Json → Option Packet
  | .object members =>
    if Json.hasTextKeys members then do
      let phase ← Json.required? "phase" members
      let messages ← Json.required? "messages" members
      ofFields? phase messages
    else none
  | .array [phase, messages] => ofFields? phase messages
  | _ => none

def toText (packet : Packet) : String := packet.toJson.render

def ofText? (text : String) : Option Packet := (Json.read? text).bind ofJson?

end Packet
end AuthenticatedMpc
