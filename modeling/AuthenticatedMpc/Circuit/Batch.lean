import AuthenticatedMpc.Circuit.Gate

/-!
# Batches of gates

The gates of a batch run in lockstep, one round at a time. Within a round the gates that are not
done are evaluated in order; then the messages of the round are shipped and the round is closed.
-/

namespace AuthenticatedMpc

-- Powers of numbers are those of the core library.
attribute [local instance (high)] instPowNat

/-- A gate of a batch, and whether it is done. -/
structure Slot (G : Type) where
  gate : G
  done : Bool

/-- The desk and the batch that is evaluated on it. -/
structure Bench (G W : Type) where
  slots : List (Slot G)
  desk : Desk W

namespace Bench

variable {G W : Type}

def deskPart : Lens (Bench G W) (Desk W) where
  get bench := bench.desk
  set bench desk := { bench with desk }
  get_set _ _ := rfl
  set_get _ := rfl
  set_set _ _ _ := rfl

def roundsPart : Lens (Bench G W) RoundBuffer where
  get bench := bench.desk.rounds
  set bench rounds := { bench with desk := { bench.desk with rounds } }
  get_set _ _ := rfl
  set_get _ := rfl
  set_set _ _ _ := rfl

def gates (bench : Bench G W) : List G := bench.slots.map Slot.gate

def isDone (bench : Bench G W) : Bool := bench.slots.all Slot.done

/-- A new batch in a new phase, with none of its gates done. -/
def load (gates : List G) (phase : Phase) (parties : Nat) (bench : Bench G W) : Bench G W where
  slots := gates.map fun gate => ⟨gate, false⟩
  desk := { bench.desk with rounds := .start phase parties }

def put (place : Nat) (gate : G) (status : Status) (bench : Bench G W) : Bench G W :=
  { bench with slots := bench.slots.set place ⟨gate, decide (status = .done)⟩ }

variable [Gate G W]

def evaluateAt (me : Party) (round place : Nat) : Program (Bench G W) Unit := do
  let bench ← Program.get
  match bench.slots[place]? with
  | some ⟨gate, false⟩ =>
    Program.mark (.evaluating bench.desk.rounds.phase place round)
    let (gate, status) ← (Gate.evaluate me round gate).zoom deskPart
    Program.modify (put place gate status)
  | _ => pure ()

def evaluatePlaces (me : Party) (round : Nat) : List Nat → Program (Bench G W) Unit
  | [] => pure ()
  | place :: rest => do
    evaluateAt me round place
    evaluatePlaces me round rest

def runRound (me : Party) (round : Nat) : Program (Bench G W) Unit := do
  let bench ← Program.get
  evaluatePlaces me round (List.range bench.slots.length)
  RoundBuffer.flush.zoom roundsPart
  RoundBuffer.endRound.zoom roundsPart

/-- Rounds from `round` on, at most `limit` of them, until every gate is done. -/
def runRounds (me : Party) : Nat → Nat → Program (Bench G W) Nat
  | 0, _ => .never
  | limit + 1, round => do
    let bench ← Program.get
    if bench.isDone then pure round
    else
      runRound me round
      runRounds me limit (round + 1)

/-- Rounds are numbered by 64-bit words. -/
def roundLimit : Nat := 2 ^ (64 : Nat)

/-- Evaluates the batch until every gate is done; the value is the number of rounds. -/
def process (me : Party) : Program (Bench G W) Nat := runRounds me roundLimit 0

end Bench
end AuthenticatedMpc
