import AuthenticatedMpc.Circuit.Batch
import AuthenticatedMpc.MacCheck.Machine

/-!
# Running a MAC check

A check is driven slice by slice: each slice is evaluated as a batch in the phase of the check, so a
peer that is elsewhere in the computation is noticed, and goes back to the check.
-/

namespace AuthenticatedMpc

/-- A check, the generator it draws from, and the bench on which its slices are evaluated. -/
structure Verifier where
  check : MacCheck
  generator : Source
  bench : Bench CheckGate Unit

namespace Verifier

def idle (generator : Source) : Verifier where
  check := default
  generator := generator
  bench := ⟨[], ⟨.start (.macCheck 0) 0, .empty, ()⟩⟩

def benchPart : Lens Verifier (Bench CheckGate Unit) where
  get verifier := verifier.bench
  set verifier bench := { verifier with bench }
  get_set _ _ := rfl
  set_get _ := rfl
  set_set _ _ _ := rfl

def nextSlice : Program Verifier (List CheckGate) := do
  let verifier ← Program.get
  match verifier.check.nextSlice verifier.generator with
  | none => .never
  | some ((result, check), generator) =>
    Program.set { verifier with check, generator }
    Program.ofExcept result

def load (me : Party) (gates : List CheckGate) : Program Verifier Unit :=
  Program.modify fun verifier =>
    { verifier with
      bench := verifier.bench.load gates (.macCheck verifier.check.number) me.parties }

def evaluate (me : Party) : Program Verifier Nat := (Bench.process me).zoom benchPart

def absorb (gates : List CheckGate) : Program Verifier Unit := do
  let verifier ← Program.get
  let (result, check) := verifier.check.absorb gates
  Program.set { verifier with check }
  Program.ofExcept result

def runSlice (me : Party) : Program Verifier Unit := do
  let gates ← nextSlice
  load me gates
  let _ ← evaluate me
  let verifier ← Program.get
  absorb verifier.bench.gates

/-- Runs at most `limit` slices, until the check has no more. -/
def runSlices (me : Party) : Nat → Program Verifier Unit
  | 0 => .never
  | limit + 1 => do
    let verifier ← Program.get
    if verifier.check.hasNext then
      runSlice me
      runSlices me limit
    else pure ()

/-- A bound on the slices of a check: two for each exchange, and one for each record at most. -/
def sliceLimit (check : MacCheck) : Nat := check.records.length + 5

/-- Drives the check to its end. -/
def execute (me : Party) : Program Verifier Unit := do
  let verifier ← Program.get
  runSlices me (sliceLimit verifier.check)

end Verifier
end AuthenticatedMpc
