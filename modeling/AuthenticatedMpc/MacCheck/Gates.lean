import AuthenticatedMpc.Circuit.Gate
import AuthenticatedMpc.Commitment
import AuthenticatedMpc.MacCheck.Compress

/-!
# The gates of a MAC check

A value is made known to all in two gates: first every party broadcasts a commitment to its
contribution, then every party reveals its contribution, which is checked against the commitment and
added up. Records are compressed by gates that need no messages.
-/

namespace AuthenticatedMpc

/-- Broadcasts a commitment and collects those of all parties. -/
structure CommitGate where
  commitment : Commitment
  /-- The commitments of all parties in order, once they are there. -/
  commitments : List Commitment := []
deriving DecidableEq, Repr

namespace CommitGate

variable {W : Type}

def collect (me : Party) (own : Commitment) : List PartyId → Program (Desk W) (List Commitment)
  | [] => pure []
  | party :: rest =>
    if party = me.id then do
      let others ← collect me own rest
      pure (own :: others)
    else do
      let payload ← Desk.receive me party
      let commitment ← Program.ofExcept ((Commitment.ofBytes payload).mapError .encoding)
      let others ← collect me own rest
      pure (commitment :: others)

def evaluate (me : Party) (round : Nat) (gate : CommitGate) :
    Program (Desk W) (CommitGate × Status) :=
  if round = 0 then do
    Desk.broadcast me gate.commitment.digest
    pure (gate, .moreRounds)
  else do
    let commitments ← collect me gate.commitment (List.range me.parties)
    pure ({ gate with commitments }, .done)

end CommitGate

/-- Reveals the committed contribution and adds up the contributions of all parties. -/
structure DecommitGate where
  value : Element
  nonce : Nonce
  /-- The commitments of all parties, in order. -/
  commitments : List Commitment
  /-- The sum of all contributions, once they are verified. -/
  sum : Option Element := none
deriving DecidableEq, Repr

namespace DecommitGate

variable {W : Type}

/-- The value and the nonce of a reveal: its length is checked first, then that the value is
reduced. -/
def parse (p : Modulus) (payload : Payload) : Except EncodingError (Element × Nonce) :=
  match Nonce.ofBytes? (payload.drop (Limbs.byteLength 2)) with
  | none => .error (.invalidLength Commitment.revealLength payload.length)
  | some nonce =>
    match p.decode (payload.take (Limbs.byteLength 2)) with
    | .error error => .error error
    | .ok value => .ok (value, nonce)

def openPeer (p : Modulus) (commitments : List Commitment) (peer : PartyId) (payload : Payload) :
    Except Error Element :=
  match parse p payload with
  | .error error => .error (.encoding error)
  | .ok (value, nonce) =>
    match commitments[peer]? with
    | none => .error (.invalidCommitment peer)
    | some commitment =>
      if commitment.verify value nonce then .ok value else .error (.invalidCommitment peer)

def evaluate (me : Party) (round : Nat) (gate : DecommitGate) :
    Program (Desk W) (DecommitGate × Status) :=
  if round = 0 then do
    Desk.broadcast me (Commitment.reveal gate.value gate.nonce)
    pure (gate, .moreRounds)
  else do
    let sum ← Desk.gather me (openPeer me.modulus gate.commitments) me.peers gate.value
    pure ({ gate with sum := some sum }, .done)

end DecommitGate

/-- Compresses a part of the records. -/
structure AccumulateGate where
  records : List Record
  combiner : Element
  output : Option Compressed := none
deriving DecidableEq, Repr

namespace AccumulateGate

def evaluate (me : Party) (gate : AccumulateGate) : AccumulateGate :=
  { gate with output := some (compress me.modulus gate.combiner me.keyShare gate.records) }

end AccumulateGate

inductive CheckGate where
  | commit (gate : CommitGate)
  | decommit (gate : DecommitGate)
  | accumulate (gate : AccumulateGate)
deriving DecidableEq, Repr

namespace CheckGate

variable {W : Type}

def commitments : CheckGate → Except GateMisuse (List Commitment)
  | commit gate => if gate.commitments.isEmpty then .error .commitExpected else .ok gate.commitments
  | _ => .error .commitExpected

def decommittedSum : CheckGate → Except GateMisuse Element
  | decommit gate =>
    match gate.sum with
    | some sum => .ok sum
    | none => .error .decommitNotEvaluated
  | _ => .error .decommitExpected

def compressed? : CheckGate → Option Compressed
  | accumulate gate => gate.output
  | _ => none

def single : List CheckGate → Except GateMisuse CheckGate
  | [gate] => .ok gate
  | _ => .error .singleGateExpected

def evaluate (me : Party) (round : Nat) : CheckGate → Program (Desk W) (CheckGate × Status)
  | commit gate => do
    let (gate, status) ← gate.evaluate me round
    pure (commit gate, status)
  | decommit gate => do
    let (gate, status) ← gate.evaluate me round
    pure (decommit gate, status)
  | accumulate gate => pure (accumulate (gate.evaluate me), .done)

instance : Gate CheckGate Unit where
  revealsOutput _ := false
  release _ board := board
  evaluate := evaluate

end CheckGate
end AuthenticatedMpc
