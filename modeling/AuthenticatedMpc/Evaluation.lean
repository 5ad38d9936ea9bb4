import AuthenticatedMpc.Schedule

/-!
# Evaluating a stream of gates

Gates are taken from the stream in bounded batches, each between the hooks of the controller.
Output gates are released only once the ledger holds nothing unverified. Any error is final: it is
kept, and every later evaluation returns it without doing anything.
-/

namespace AuthenticatedMpc

/-- What one evaluation has done. -/
structure Summary where
  gates : Nat
  batches : UInt64
  /-- The number of MAC checks so far, in all evaluations. -/
  macChecks : UInt64
deriving DecidableEq, Repr

namespace Summary

def start : Summary := ⟨0, 0, 0⟩

instance : Inhabited Summary := ⟨start⟩

end Summary

/-- A party that evaluates gates of `G`, publishing on boards of `W`, under a controller with state
`S`. -/
structure Evaluator (S G W : Type) where
  control : S
  ledger : Ledger
  verifier : Verifier
  /-- The batch in evaluation. -/
  slots : List (Slot G)
  rounds : RoundBuffer
  board : W
  /-- The evaluated output gates that are not released. -/
  staged : List G
  /-- The number of gates that the current evaluation has taken. -/
  taken : Nat
  summary : Summary
  /-- The number of batches so far, which is the number of the next one. -/
  batches : UInt64
  /-- The error that ended the computation. -/
  aborted : Option Error

/-- What stays fixed in all evaluations of a party. -/
structure Setting (S : Type) where
  me : Party
  config : Config
  controller : Controller S

namespace Setting

/-- Refuses an unusable configuration, then a party that is not the one its network connects. -/
def make {S : Type} (seat : PartyId) (seats : Nat) (me : Party) (config : Config)
    (controller : Controller S) : Except SetupError (Setting S) :=
  match config.validate with
  | .error error => .error (.config error)
  | .ok () =>
    if seat = me.id ∧ seats = me.parties then .ok ⟨me, config, controller⟩
    else .error (.party (.seatMismatch seat seats me.id me.parties))

end Setting

/-- Consecutive batches of the given size, the last one perhaps shorter; of size zero there are
none. The bound on their number is met by the number of elements. -/
def batchesWithin {α : Type} (size : Nat) : Nat → List α → List (List α)
  | 0, _ => []
  | count + 1, elements =>
    match elements.take size with
    | [] => []
    | batch => batch :: batchesWithin size count (elements.drop size)

def batches {α : Type} (size : Nat) (elements : List α) : List (List α) :=
  batchesWithin size elements.length elements

theorem flatten_batchesWithin {α : Type} {size : Nat} (hsize : 0 < size) (count : Nat)
    (elements : List α) (h : elements.length ≤ count) :
    (batchesWithin size count elements).flatten = elements := by
  induction count generalizing elements with
  | zero => simp_all [batchesWithin]
  | succ count ih =>
    unfold batchesWithin
    split
    next hnil =>
      rcases List.take_eq_nil_iff.mp hnil with hzero | hempty
      · omega
      · simp [hempty]
    next =>
      rw [List.flatten_cons, ih _ (by rw [List.length_drop]; omega), List.take_append_drop]

theorem isPrefix_flatten_batchesWithin {α : Type} (size count : Nat) (elements : List α) :
    (batchesWithin size count elements).flatten <+: elements := by
  induction count generalizing elements with
  | zero => exact List.nil_prefix
  | succ count ih =>
    unfold batchesWithin
    split
    next => exact List.nil_prefix
    next =>
      have hrest := (List.prefix_append_right_inj (elements.take size)).mpr (ih (elements.drop size))
      rwa [List.take_append_drop] at hrest

theorem batchesWithin_subset {α : Type} {size count : Nat} {elements batch : List α}
    (h : batch ∈ batchesWithin size count elements) : batch ⊆ elements := by
  have hflatten : batch ⊆ (batchesWithin size count elements).flatten :=
    (List.sublist_flatten_of_mem h).subset
  exact List.Subset.trans hflatten (isPrefix_flatten_batchesWithin size count elements).subset

/-- Nothing is lost, repeated or moved. -/
theorem flatten_batches {α : Type} {size : Nat} (hsize : 0 < size) (elements : List α) :
    (batches size elements).flatten = elements :=
  flatten_batchesWithin hsize _ _ (Nat.le_refl _)

namespace Evaluator

variable {S G W : Type}

def start (control : S) (generator : Source) (board : W) : Evaluator S G W where
  control := control
  ledger := .empty
  verifier := .idle generator
  slots := []
  rounds := .start (.circuit 0) 0
  board := board
  staged := []
  taken := 0
  summary := .start
  batches := 0
  aborted := none

def custodyPart : Lens (Evaluator S G W) (Custody S) where
  get evaluator := ⟨evaluator.control, evaluator.ledger, evaluator.verifier⟩
  set evaluator custody :=
    { evaluator with
      control := custody.control
      ledger := custody.ledger
      verifier := custody.verifier }
  get_set _ _ := rfl
  set_get _ := rfl
  set_set _ _ _ := rfl

def benchPart : Lens (Evaluator S G W) (Bench G W) where
  get evaluator := ⟨evaluator.slots, ⟨evaluator.rounds, evaluator.ledger, evaluator.board⟩⟩
  set evaluator bench :=
    { evaluator with
      slots := bench.slots
      rounds := bench.desk.rounds
      ledger := bench.desk.ledger
      board := bench.desk.board }
  get_set _ _ := rfl
  set_get _ := rfl
  set_set _ _ _ := rfl

variable [Gate G W]

/-- Releases the staged gates if every recorded opening has been verified. -/
def releaseVerified (evaluator : Evaluator S G W) : Evaluator S G W :=
  if evaluator.ledger.isEmpty then
    { evaluator with
      board := evaluator.staged.foldl (fun board gate => Gate.release gate board) evaluator.board
      staged := [] }
  else evaluator

/-- Counts an evaluated batch and stages its output gates. -/
def finishBatch (evaluator : Evaluator S G W) : Evaluator S G W :=
  let gates := evaluator.slots.map Slot.gate
  { evaluator with
    batches := evaluator.batches + 1
    summary :=
      { evaluator.summary with
        batches := evaluator.summary.batches + 1
        gates := evaluator.summary.gates + gates.length }
    staged := evaluator.staged ++ gates.filter Gate.revealsOutput }

variable (setting : Setting S)

def load (batch : List G) (evaluator : Evaluator S G W) : Evaluator S G W :=
  benchPart.set evaluator ((benchPart.get evaluator).load batch (.circuit evaluator.batches)
    setting.me.parties)

def runBatch (batch : List G) : Program (Evaluator S G W) Unit := do
  Program.record (.taken batch.length) fun evaluator =>
    { evaluator with taken := evaluator.taken + batch.length }
  (setting.controller.beforeBatch setting.me (batch.map Gate.revealsOutput)).zoom custodyPart
  Program.modify (load setting batch)
  let _ ← (Bench.process setting.me).zoom benchPart
  (setting.controller.afterBatch setting.me batch.length).zoom custodyPart
  Program.modify fun evaluator => evaluator.finishBatch.releaseVerified

def runBatches : List (List G) → Program (Evaluator S G W) Unit
  | [] => pure ()
  | batch :: rest => do
    runBatch setting batch
    runBatches rest

def begin (evaluator : Evaluator S G W) : Evaluator S G W :=
  { evaluator with slots := [], staged := [], taken := 0, summary := .start }

def runStream (gates : List G) : Program (Evaluator S G W) Summary := do
  Program.modify begin
  runBatches setting (AuthenticatedMpc.batches setting.config.maxBatchSize.toNat gates)
  (setting.controller.afterEvaluation setting.me).zoom custodyPart
  Program.modify fun evaluator =>
    { evaluator.releaseVerified with
      summary :=
        { evaluator.summary with
          macChecks := setting.controller.checksPerformed evaluator.control } }
  let evaluator ← Program.get
  pure evaluator.summary

/-- Evaluates a stream of gates to its end. After an error every evaluation returns that error. -/
def evaluate (gates : List G) : Program (Evaluator S G W) Summary := do
  let evaluator ← Program.get
  match evaluator.aborted with
  | some error => Program.fail error
  | none =>
    let outcome ← (runStream setting gates).attempt
    match outcome with
    | .ok summary => pure summary
    | .error error =>
      Program.modify fun evaluator => { evaluator with aborted := some error }
      Program.fail error

end Evaluator
end AuthenticatedMpc
