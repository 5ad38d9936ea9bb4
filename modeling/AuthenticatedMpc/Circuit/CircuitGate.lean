import AuthenticatedMpc.Circuit.Opening

/-!
# The gates of a circuit

An opening inside the computation publishes its value as soon as it is known. An output holds its
value back until it is released, which is for when the opening itself has been verified. All other
gates compute on what the party holds and on published values: they neither talk to peers nor open
anything.
-/

namespace AuthenticatedMpc

/-- A gate that only computes, from the boards that it sees and from what it was built with. Gates in
general may do more, which is left out here: read the parameters and the key share that the party
holds when it evaluates them, draw from its generator, work on the ledger, and publish a result once
it is released. -/
structure LocalGate where
  revealsOutput : Bool
  /-- What a round comes to, from the boards seen in the rounds so far, the current one first. -/
  act : List Board → Except Error Status
  seen : List Board := []

namespace LocalGate

def evaluate (gate : LocalGate) : Program (Desk Board) (LocalGate × Status) := do
  let desk ← Program.get
  let seen := desk.board :: gate.seen
  let status ← Program.ofExcept (gate.act seen)
  pure ({ gate with seen }, status)

end LocalGate

inductive CircuitGate where
  /-- Opens a value inside the computation. -/
  | opening (opening : Opening)
  /-- Opens a value as a result of the computation. -/
  | output (opening : Opening)
  /-- Computes without messages. -/
  | compute (gate : LocalGate)

namespace CircuitGate

def evaluate (me : Party) (round : Nat) : CircuitGate → Program (Desk Board) (CircuitGate × Status)
  | opening gate => do
    let (gate, status) ← gate.evaluate me round
    Program.modify fun desk => { desk with board := gate.publish desk.board }
    pure (opening gate, status)
  | output gate => do
    let (gate, status) ← gate.evaluate me round
    pure (output gate, status)
  | compute gate => do
    let (gate, status) ← gate.evaluate
    pure (compute gate, status)

def revealsOutput : CircuitGate → Bool
  | opening _ => false
  | output _ => true
  | compute gate => gate.revealsOutput

def release (gate : CircuitGate) (board : Board) : Board :=
  match gate with
  | output held => held.publish board
  | _ => board

instance : Gate CircuitGate Board where
  revealsOutput := revealsOutput
  release := release
  evaluate := evaluate

end CircuitGate
end AuthenticatedMpc
