import AuthenticatedMpc.MacCheck.Execution

/-!
# The schedule of MAC checks

A controller is told of every batch before and after it is evaluated, and of the end of an
evaluation. The standard one verifies the ledger before a batch with an output gate, after such a
batch, after any batch once more than the threshold of gates have been evaluated since the last
check, and at the end. Verifying an empty ledger takes no messages.
-/

namespace AuthenticatedMpc

/-- What a controller with state `S` works on. -/
structure Custody (S : Type) where
  control : S
  ledger : Ledger
  verifier : Verifier

/-- The hooks around the batches of an evaluation. An error of a hook ends the evaluation. -/
structure Controller (S : Type) where
  /-- Called before a batch, with what each of its gates says about revealing output. -/
  beforeBatch : Party → List Bool → Program (Custody S) Unit
  /-- Called after a batch, with its number of gates. -/
  afterBatch : Party → Nat → Program (Custody S) Unit
  /-- Called after the last batch. -/
  afterEvaluation : Party → Program (Custody S) Unit
  /-- The number of checks of a nonempty ledger so far. -/
  checksPerformed : S → UInt64

namespace Custody

def verifierPart {S : Type} : Lens (Custody S) Verifier where
  get custody := custody.verifier
  set custody verifier := { custody with verifier }
  get_set _ _ := rfl
  set_get _ := rfl
  set_set _ _ _ := rfl

end Custody

/-- The state of the standard controller. -/
structure Schedule where
  gatesSinceCheck : UInt64
  /-- Whether a check is due at the next opportunity. -/
  checkPending : Bool
  /-- The number of checks so far, which is the number of the next one. -/
  checksPerformed : UInt64
deriving DecidableEq, Repr

namespace Schedule

def start : Schedule := ⟨0, false, 0⟩

instance : Inhabited Schedule := ⟨start⟩

/-- Whether a check must run: one was asked for, or more than the threshold of gates were
evaluated. -/
def checkRequired (gatesSinceCheck threshold : UInt64) (pending : Bool) : Bool :=
  pending || decide (threshold < gatesSinceCheck)

def setPending (pending : Bool) (custody : Custody Schedule) : Custody Schedule :=
  { custody with control := { custody.control with checkPending := pending } }

/-- Counts the gates of a batch, in 64-bit words. -/
def countGates (count : Nat) (custody : Custody Schedule) : Custody Schedule :=
  { custody with
    control :=
      { custody.control with gatesSinceCheck := custody.control.gatesSinceCheck + count.toUInt64 } }

def reset (custody : Custody Schedule) : Custody Schedule :=
  { custody with
    control := { custody.control with gatesSinceCheck := 0, checkPending := false } }

/-- Moves all records from the ledger into a check with the next number. -/
def beginCheck (me : Party) (config : Config) (custody : Custody Schedule) : Custody Schedule :=
  let number := custody.control.checksPerformed
  let (records, ledger) := custody.ledger.drain
  { control := { custody.control with checksPerformed := number + 1 }
    ledger := ledger
    verifier :=
      { custody.verifier with check := MacCheck.start number records me.modulus config } }

def verifyLedger (config : Config) (me : Party) : Program (Custody Schedule) Unit := do
  Program.modify reset
  let custody ← Program.get
  if custody.ledger.isEmpty then pure ()
  else
    let number := custody.control.checksPerformed
    Program.record (.checking number custody.ledger.records) (beginCheck me config)
    (Verifier.execute me).zoom Custody.verifierPart
    Program.mark (.verified number)

def beforeBatch (config : Config) (me : Party) (reveals : List Bool) :
    Program (Custody Schedule) Unit := do
  let revealsOutput := reveals.any id
  let custody ← Program.get
  if revealsOutput || custody.control.checkPending then verifyLedger config me
  Program.modify (setPending revealsOutput)

def afterBatch (config : Config) (me : Party) (count : Nat) : Program (Custody Schedule) Unit := do
  Program.modify (countGates count)
  let custody ← Program.get
  if checkRequired custody.control.gatesSinceCheck config.macCheckThreshold
      custody.control.checkPending then
    verifyLedger config me

def controller (config : Config) : Controller Schedule where
  beforeBatch := beforeBatch config
  afterBatch := afterBatch config
  afterEvaluation := verifyLedger config
  checksPerformed schedule := schedule.checksPerformed

end Schedule

/-! ## Leaving out hooks -/

/-- Which hooks of a controller are in force. -/
structure Hooks where
  beforeBatch : Bool
  afterBatch : Bool
  afterEvaluation : Bool
deriving DecidableEq, Repr

namespace Hooks

def all : Hooks := ⟨true, true, true⟩

end Hooks

namespace Controller

/-- A controller that does nothing in the hooks that are not in force. -/
def restrict {S : Type} (controller : Controller S) (hooks : Hooks) : Controller S where
  beforeBatch me reveals :=
    if hooks.beforeBatch then controller.beforeBatch me reveals else pure ()
  afterBatch me count := if hooks.afterBatch then controller.afterBatch me count else pure ()
  afterEvaluation me := if hooks.afterEvaluation then controller.afterEvaluation me else pure ()
  checksPerformed := controller.checksPerformed

end Controller
end AuthenticatedMpc
