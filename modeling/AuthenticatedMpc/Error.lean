import AuthenticatedMpc.Traffic

/-!
# What can go wrong

Every failure is a cause of the domain; its wording is given once, by the `message` functions.
None of them is recovered from: any error aborts the computation of the party that meets it.
-/

namespace AuthenticatedMpc

inductive EncodingError where
  | invalidLength (expected actual : Nat)
  | outOfRange
deriving DecidableEq, Repr

namespace EncodingError

def message : EncodingError → String
  | invalidLength expected actual => s!"expected {expected} bytes, got {actual}"
  | outOfRange => "value is not reduced modulo the field modulus"

end EncodingError

inductive NetworkError where
  | sendFailed (reason : String)
  | receiveFailed (reason : String)
  | unknownParty (party : PartyId)
  | connectionClosed
deriving DecidableEq, Repr

namespace NetworkError

def message : NetworkError → String
  | sendFailed reason => s!"error sending message: {reason}"
  | receiveFailed reason => s!"error receiving message: {reason}"
  | unknownParty party => s!"unknown party: {party}"
  | connectionClosed => "connection closed"

/-- The channel to a party whose network is gone. -/
def channelClosed : NetworkError := sendFailed "channel closed"

/-- The stream of a party that sends no more. -/
def streamEnded : NetworkError := receiveFailed "stream finished early"

end NetworkError

/-- Evidence that a peer is at another point of the computation. -/
inductive Desync where
  | wrongPhase (party : PartyId) (actual expected : Phase)
  | tooFewMessages (party : PartyId) (phase : Phase)
  | tooManyMessages (party : PartyId) (surplus : Nat) (phase : Phase)
  | other (reason : String)
deriving DecidableEq, Repr

namespace Desync

def message : Desync → String
  | wrongPhase party actual expected =>
    s!"party {party} sent a message for {actual.describe}, expected {expected.describe}"
  | tooFewMessages party phase =>
    s!"party {party} sent fewer messages than expected in {phase.describe}"
  | tooManyMessages party surplus phase =>
    s!"party {party} sent {surplus} more messages than expected in {phase.describe}"
  | other reason => reason

end Desync

inductive NumeralError where
  | empty
  | invalidDigit
deriving DecidableEq, Repr

namespace NumeralError

def message : NumeralError → String
  | empty => "cannot parse integer from empty string"
  | invalidDigit => "invalid digit found in string"

end NumeralError

inductive ModulusError where
  | numeral (error : NumeralError)
  | tooWide (value : Nat)
  | tooSmall (value : Nat)
deriving DecidableEq, Repr

namespace ModulusError

def message : ModulusError → String
  | numeral error => error.message
  | tooWide value => s!"modulus {value} exceeds 128 bits"
  | tooSmall value => s!"modulus must be at least 2, got {value}"

end ModulusError

inductive ConfigField where
  | maxBatchSize
  | macCheckThreshold
  | macCheckBatchSize
  | accumulateChunkSize
deriving DecidableEq, Repr

namespace ConfigField

def key : ConfigField → String
  | maxBatchSize => "max_batch_size"
  | macCheckThreshold => "mac_check_threshold"
  | macCheckBatchSize => "mac_check_batch_size"
  | accumulateChunkSize => "accumulate_chunk_size"

def all : List ConfigField :=
  [maxBatchSize, macCheckThreshold, macCheckBatchSize, accumulateChunkSize]

end ConfigField

inductive ConfigError where
  | malformed
  | zeroSize (field : ConfigField)
  | batchExceedsThreshold (batch threshold : UInt64)
deriving DecidableEq, Repr

namespace ConfigError

def message : ConfigError → String
  | malformed => "not a configuration document"
  | zeroSize field => s!"{field.key} must be positive"
  | batchExceedsThreshold batch threshold =>
    s!"{ConfigField.maxBatchSize.key} ({batch}) exceeds " ++
      s!"{ConfigField.macCheckThreshold.key} ({threshold})"

end ConfigError

inductive PartyError where
  | tooFewParties (parties : Nat)
  | outOfRange (party : PartyId) (parties : Nat)
  | keyNotReduced
  | seatMismatch (seat : PartyId) (seats : Nat) (party : PartyId) (parties : Nat)
deriving DecidableEq, Repr

namespace PartyError

def message : PartyError → String
  | tooFewParties parties => s!"need at least 2 parties, got {parties}"
  | outOfRange party parties => s!"party id {party} out of range for {parties} parties"
  | keyNotReduced => "MAC key share is not reduced"
  | seatMismatch seat seats party parties =>
    s!"network is party {seat} of {seats}, resource pool is party {party} of {parties}"

end PartyError

/-- A step of a MAC check that was asked for out of turn. -/
inductive CheckMisuse where
  | sliceNotAbsorbed
  | noSliceOutstanding
  | nothingCommitted
  | commitmentsNotExchanged
  | accumulationExpected
deriving DecidableEq, Repr

namespace CheckMisuse

def message : CheckMisuse → String
  | sliceNotAbsorbed => "previous slice was not absorbed"
  | noSliceOutstanding => "no slice is outstanding"
  | nothingCommitted => "nothing was committed"
  | commitmentsNotExchanged => "commitments not exchanged"
  | accumulationExpected => "expected an accumulation gate"

end CheckMisuse

/-- A gate of a MAC check that cannot give the result asked of it. -/
inductive GateMisuse where
  | singleGateExpected
  | commitExpected
  | decommitExpected
  | decommitNotEvaluated
deriving DecidableEq, Repr

namespace GateMisuse

def message : GateMisuse → String
  | singleGateExpected => "expected exactly one MAC check gate"
  | commitExpected => "expected an evaluated commit gate"
  | decommitExpected => "expected a decommit gate"
  | decommitNotEvaluated => "decommit gate was not evaluated"

end GateMisuse

inductive SetupError where
  | config (error : ConfigError)
  | modulus (error : ModulusError)
  | party (error : PartyError)
  | cannotSend (peer : PartyId)
  | cannotReceive (peer : PartyId)
  | check (number : UInt64) (misuse : CheckMisuse)
  | gate (misuse : GateMisuse)
  | other (reason : String)
deriving DecidableEq, Repr

namespace SetupError

def message : SetupError → String
  | config error => error.message
  | modulus error => error.message
  | party error => error.message
  | cannotSend peer => s!"cannot send to party {peer}"
  | cannotReceive peer => s!"cannot receive from party {peer}"
  | check number misuse => s!"MAC check #{number}: {misuse.message}"
  | gate misuse => misuse.message
  | other reason => reason

end SetupError

inductive Error where
  | macCheckFailed (check : UInt64)
  | invalidCommitment (party : PartyId)
  | desynchronized (cause : Desync)
  | network (cause : NetworkError)
  | encoding (cause : EncodingError)
  | setup (cause : SetupError)
deriving DecidableEq, Repr

namespace Error

def message : Error → String
  | macCheckFailed check => s!"MAC check #{check} failed"
  | invalidCommitment party =>
    s!"party {party} sent a decommitment that does not match its commitment"
  | desynchronized cause => s!"parties desynchronized: {cause.message}"
  | network cause => s!"network error: {cause.message}"
  | encoding cause => s!"encoding error: {cause.message}"
  | setup cause => s!"setup error: {cause.message}"

/-- Whether an opened value failed authentication, unlike a fault of transport or schedule. -/
def isVerificationFailure : Error → Bool
  | macCheckFailed _ | invalidCommitment _ => true
  | _ => false

end Error
end AuthenticatedMpc
