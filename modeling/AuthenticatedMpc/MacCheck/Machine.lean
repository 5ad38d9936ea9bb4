import AuthenticatedMpc.Config
import AuthenticatedMpc.MacCheck.Gates

/-!
# The stages of a MAC check

A check hands out slices of gates and advances when a slice comes back evaluated:

1. the parties agree on a combiner by committing to one random element each and revealing it;
2. the records are compressed part by part into the local check value;
3. the parties commit to their check values and reveal them, and the check passes when these add up
   to zero.

A slice that was handed out must come back before the next one; a slice that does not fit leaves the
check where it is.
-/

namespace AuthenticatedMpc

inductive Stage where
  | idle
  | awaitingCombiner
  | compressing
  | awaitingCommit
  | awaitingOpen
  | verified
  | failed
deriving DecidableEq, Repr

/-- A MAC check over the records taken from a ledger. -/
structure MacCheck where
  number : UInt64
  modulus : Modulus
  stage : Stage
  records : List Record
  /-- The first record that no accumulation gate has. -/
  nextRecord : Nat
  /-- The most records of an accumulation gate. -/
  chunkSize : Nat
  /-- The most gates of a slice. -/
  sliceSize : Nat
  /-- The contribution to the exchange in progress. -/
  contribution : Option (Element × Nonce)
  /-- The commitments of the exchange in progress, once they are there. -/
  commitments : Option (List Commitment)
  combiner : Element
  /-- The local check value so far. -/
  checkValue : Element
  /-- Whether a slice was handed out and has not come back. -/
  outstanding : Bool

namespace MacCheck

/-- A check over no records is verified from the start. -/
def start (number : UInt64) (records : List Record) (modulus : Modulus) (config : Config) :
    MacCheck where
  number := number
  modulus := modulus
  stage := if records.isEmpty then .verified else .idle
  records := records
  nextRecord := 0
  chunkSize := max config.accumulateChunkSize.toNat 1
  sliceSize := max config.macCheckBatchSize.toNat 1
  contribution := none
  commitments := none
  combiner := .zero
  checkValue := .zero
  outstanding := false

instance : Inhabited MacCheck := ⟨start 0 [] default default⟩

variable (check : MacCheck)

def hasNext : Bool := check.stage ≠ .verified && check.stage ≠ .failed

def misuse (cause : CheckMisuse) : Error := .setup (.check check.number cause)

/-! ## Handing out slices -/

def commitGate (value : Element) : Draw (CheckGate × MacCheck) := do
  let nonce ← Nonce.draw
  pure (.commit ⟨.commit value nonce, []⟩, { check with contribution := some (value, nonce) })

def decommitGate : Except Error CheckGate :=
  match check.contribution with
  | none => .error (check.misuse .nothingCommitted)
  | some (value, nonce) =>
    match check.commitments with
    | none => .error (check.misuse .commitmentsNotExchanged)
    | some commitments => .ok (.decommit { value, nonce, commitments })

def chunkFrom (place : Nat) : List Record := (check.records.drop place).take check.chunkSize

/-- Accumulation gates for the records from `place` on, at most `count` of them, and the place after
them. -/
def accumulateFrom : Nat → Nat → List CheckGate × Nat
  | 0, place => ([], place)
  | count + 1, place =>
    if place < check.records.length then
      let next := min (place + check.chunkSize) check.records.length
      let (gates, last) := accumulateFrom count next
      (.accumulate { records := check.chunkFrom place, combiner := check.combiner } :: gates, last)
    else ([], place)

/-- The next slice of accumulation gates. There are no more of them than records. -/
def accumulateSlice : List CheckGate × MacCheck :=
  let (gates, next) :=
    check.accumulateFrom (min check.sliceSize check.records.length) check.nextRecord
  (gates, { check with nextRecord := next })

/-- Marks a slice as handed out, unless it is empty. -/
def handOut (gates : List CheckGate) : Except Error (List CheckGate) × MacCheck :=
  (.ok gates, { check with outstanding := !gates.isEmpty })

def slice : Draw (Except Error (List CheckGate) × MacCheck) :=
  match check.stage with
  | .awaitingCombiner =>
    match check.commitments with
    | none => do
      let value ← check.modulus.draw
      let (gate, check) ← check.commitGate value
      pure (check.handOut [gate])
    | some _ =>
      pure (match check.decommitGate with
        | .ok gate => check.handOut [gate]
        | .error error => (.error error, check))
  | .awaitingOpen =>
    pure (match check.decommitGate with
      | .ok gate => check.handOut [gate]
      | .error error => (.error error, check))
  | .compressing =>
    let (gates, check) := check.accumulateSlice
    pure (check.handOut gates)
  | .awaitingCommit => do
    let (gate, check) ← check.commitGate check.checkValue
    pure (check.handOut [gate])
  | .idle | .verified | .failed => pure (check.handOut [])

/-- The next slice, of at most the configured number of gates. -/
def nextSlice : Draw (Except Error (List CheckGate) × MacCheck) :=
  if check.outstanding then pure (.error (check.misuse .sliceNotAbsorbed), check)
  else if check.stage = .idle then slice { check with stage := .awaitingCombiner }
  else check.slice

/-! ## Taking slices back -/

def soleResult {α : Type} (read : CheckGate → Except GateMisuse α) (gates : List CheckGate) :
    Except Error α :=
  ((CheckGate.single gates).bind read).mapError fun misuse => .setup (.gate misuse)

def foldChunk (gate : CheckGate) : Except Error MacCheck :=
  match gate.compressed? with
  | none => .error (check.misuse .accumulationExpected)
  | some part =>
    let moved := check.modulus.mul check.checkValue part.power
    .ok { check with checkValue := check.modulus.add moved part.value }

/-- Folds gate after gate, up to the first that has no result. -/
def foldChunks : List CheckGate → MacCheck → Except Error Unit × MacCheck
  | [], check => (.ok (), check)
  | gate :: gates, check =>
    match check.foldChunk gate with
    | .error error => (.error error, check)
    | .ok check => foldChunks gates check

/-- The commitments of a slice are those of the exchange in progress. -/
def takeCommitments (gates : List CheckGate) (stage : Stage) : Except Error Unit × MacCheck :=
  match soleResult CheckGate.commitments gates with
  | .error error => (.error error, check)
  | .ok commitments => (.ok (), { check with commitments := some commitments, stage })

def endExchange (stage : Stage) : MacCheck :=
  { check with contribution := none, commitments := none, stage }

def advance (gates : List CheckGate) : Except Error Unit × MacCheck :=
  match check.stage with
  | .awaitingCombiner =>
    match check.commitments with
    | none => check.takeCommitments gates .awaitingCombiner
    | some _ =>
      match soleResult CheckGate.decommittedSum gates with
      | .error error => (.error error, check)
      | .ok combiner => (.ok (), { check.endExchange .compressing with combiner })
  | .compressing =>
    match foldChunks gates check with
    | (.error error, check) => (.error error, check)
    | (.ok (), check) =>
      if check.records.length ≤ check.nextRecord then
        (.ok (), { check with records := [], stage := .awaitingCommit })
      else (.ok (), check)
  | .awaitingCommit => check.takeCommitments gates .awaitingOpen
  | .awaitingOpen =>
    match soleResult CheckGate.decommittedSum gates with
    | .error error => (.error error, check)
    | .ok sum =>
      if sum.isZero then (.ok (), check.endExchange .verified)
      else (.error (.macCheckFailed check.number), check.endExchange .failed)
  | .idle | .verified | .failed => (.ok (), check)

def absorb (gates : List CheckGate) : Except Error Unit × MacCheck :=
  if check.outstanding then advance { check with outstanding := false } gates
  else (.error (check.misuse .noSliceOutstanding), check)

end MacCheck
end AuthenticatedMpc
