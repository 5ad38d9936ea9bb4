import AuthenticatedMpc.Circuit.CircuitGate
import AuthenticatedMpc.Evaluation

/-!
# Gates that probe an evaluation

Beside the gates of a circuit and those of a MAC check, a probed circuit may hold gates that
exchange messages for several rounds and gates that look whether a value has been published. What
they find is noted on the board.
-/

namespace AuthenticatedMpc

/-- A board with the notes of probing gates. -/
structure ProbeBoard where
  board : Board
  /-- The bytes that exchanging gates have received. -/
  heard : List (Handle × Payload)
  /-- What watching gates have seen. -/
  seen : List (Handle × Bool)
deriving DecidableEq, Repr

namespace ProbeBoard

def empty : ProbeBoard := ⟨.empty, [], []⟩

instance : Inhabited ProbeBoard := ⟨empty⟩

def heardBy (probes : ProbeBoard) (handle : Handle) : Payload :=
  (probes.heard.lookup handle).getD []

def hear (probes : ProbeBoard) (handle : Handle) (bytes : Payload) : ProbeBoard :=
  { probes with heard := (handle, probes.heardBy handle ++ bytes) :: probes.heard }

def note (probes : ProbeBoard) (handle : Handle) (sight : Bool) : ProbeBoard :=
  { probes with seen := (handle, sight) :: probes.seen }

end ProbeBoard

/-- A gate that exchanges a message of two bytes with all peers in every round but the last. -/
structure ExchangeGate where
  handle : Handle
  rounds : Nat
  tag : UInt8
  revealsOutput : Bool
deriving DecidableEq, Repr

inductive ProbeGate where
  | circuit (gate : CircuitGate)
  | check (gate : CheckGate)
  | exchange (gate : ExchangeGate)
  /-- Looks whether a value has been published. -/
  | watch (handle target : Handle)

namespace ProbeGate

/-- A gate that needs further rounds up to the given one, in which it fails. -/
def failingIn (failing : Nat) : ProbeGate :=
  .circuit (.compute
    { revealsOutput := false
      act := fun seen =>
        if seen.length = failing + 1 then .error (.setup (.other "gate failed"))
        else .ok .moreRounds })

def boardPart : Lens (Desk ProbeBoard) (Desk Board) where
  get desk := ⟨desk.rounds, desk.ledger, desk.board.board⟩
  set desk inner := ⟨inner.rounds, inner.ledger, { desk.board with board := inner.board }⟩
  get_set _ _ := rfl
  set_get _ := rfl
  set_set _ _ _ := rfl

/-- Receives a message of each peer and notes its bytes. -/
def listen (me : Party) (handle : Handle) : List PartyId → Program (Desk ProbeBoard) Unit
  | [] => pure ()
  | peer :: rest => do
    let payload ← Desk.receive me peer
    Program.modify fun desk => { desk with board := desk.board.hear handle payload }
    listen me handle rest

def evaluateExchange (me : Party) (round : Nat) (gate : ExchangeGate) :
    Program (Desk ProbeBoard) Status := do
  if round ≠ 0 then listen me gate.handle me.peers
  if round + 1 = gate.rounds then pure .done
  else
    Desk.broadcast me [gate.tag, round.toUInt8]
    pure .moreRounds

def evaluate (me : Party) (round : Nat) :
    ProbeGate → Program (Desk ProbeBoard) (ProbeGate × Status)
  | circuit gate => do
    let (gate, status) ← (gate.evaluate me round).zoom boardPart
    pure (circuit gate, status)
  | check gate => do
    let (gate, status) ← gate.evaluate me round
    pure (check gate, status)
  | exchange gate => do
    let status ← evaluateExchange me round gate
    pure (exchange gate, status)
  | watch handle target => do
    Program.modify fun desk =>
      { desk with board := desk.board.note handle (desk.board.board.value? target).isSome }
    pure (watch handle target, .done)

def revealsOutput : ProbeGate → Bool
  | circuit gate => gate.revealsOutput
  | exchange gate => gate.revealsOutput
  | _ => false

def release (gate : ProbeGate) (probes : ProbeBoard) : ProbeBoard :=
  match gate with
  | circuit gate => { probes with board := gate.release probes.board }
  | _ => probes

instance : Gate ProbeGate ProbeBoard where
  revealsOutput := revealsOutput
  release := release
  evaluate := evaluate

/-! ## Reading the board -/

inductive Reading where
  | value (value : Option Element)
  | bytes (bytes : Payload)
  | sight (sight : Option Bool)
  | nothing
deriving DecidableEq, Repr

def reading (gate : ProbeGate) (probes : ProbeBoard) : Reading :=
  match gate with
  | circuit (.opening held) | circuit (.output held) => .value (probes.board.value? held.handle)
  | exchange gate => .bytes (probes.heardBy gate.handle)
  | watch handle _ => .sight (probes.seen.lookup handle)
  | check _ | circuit (.compute _) => .nothing

end ProbeGate
end AuthenticatedMpc
