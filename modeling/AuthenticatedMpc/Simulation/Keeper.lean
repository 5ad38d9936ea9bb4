import AuthenticatedMpc.Schedule
import AuthenticatedMpc.Simulation.Interference
import AuthenticatedMpc.Simulation.System

/-!
# Parties that keep a schedule together

A keeper has a ledger and a controller and makes single calls of the controller, with openings
recorded in between, until a call fails or none is left; then it ends its streams.
-/

namespace AuthenticatedMpc

/-- A call of a controller, or an opening recorded between the calls. -/
inductive ScheduleCall where
  | append (record : Record)
  | beforeBatch (reveals : List Bool)
  | afterBatch (count : Nat)
  | afterEvaluation
deriving DecidableEq, Repr

/-- A party that makes calls of its controller. -/
structure Keeper (S : Type) where
  custody : Custody S
  outcome : Option (Except Error Unit) := none

namespace ScheduleCall

def program {S : Type} (me : Party) (controller : Controller S) :
    ScheduleCall → Program (Custody S) Unit
  | append record =>
    Program.record (.opened record) fun custody =>
      { custody with ledger := custody.ledger.append record.value record.mac }
  | beforeBatch reveals => controller.beforeBatch me reveals
  | afterBatch count => controller.afterBatch me count
  | afterEvaluation => controller.afterEvaluation me

end ScheduleCall

namespace Keeper

variable {S : Type}

def custodyPart : Lens (Keeper S) (Custody S) where
  get keeper := keeper.custody
  set keeper custody := { keeper with custody }
  get_set _ _ := rfl
  set_get _ := rfl
  set_set _ _ _ := rfl

def make (me : Party) (controller : Controller S) (call : ScheduleCall) :
    Program (Keeper S) (Except Error Unit) := do
  let outcome ← ((call.program me controller).zoom custodyPart).attempt
  Program.modify fun keeper => { keeper with outcome := some outcome }
  Program.mark .returned
  pure outcome

/-- The calls up to the first that fails, then the end of the streams. -/
def run (me : Party) (controller : Controller S) : List ScheduleCall → Program (Keeper S) Unit
  | [] => .close (pure ())
  | call :: rest => do
    match ← make me controller call with
    | .ok () => run me controller rest
    | .error _ => .close (pure ())

def watch (party : PartyId) (move : Move) (keeper : Keeper S) (_ : Network) :
    List (PartyId × Keeper S) :=
  match move with
  | .inner (some .returned) => [(party, keeper)]
  | _ => []

end Keeper

def scheduleSession {S : Type} (rules : List Rule) (keepers : List (Actor (Keeper S) Unit)) :
    System (Keeper S) Unit Network × List (PartyId × Keeper S) :=
  let network : Network := { mesh := .connect keepers.length, rules }
  let (system, seen) := System.run Network.port Keeper.watch ⟨keepers, network⟩ []
  (system, seen.reverse)

end AuthenticatedMpc
