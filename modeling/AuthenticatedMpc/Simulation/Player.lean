import AuthenticatedMpc.Evaluation
import AuthenticatedMpc.Simulation.Interference
import AuthenticatedMpc.Simulation.System

/-!
# Parties that evaluate together

A player evaluates lists of gates, one call after the other, also after a call that failed. In a
session all players run at once over a network, and a player that is done, in whatever way, ends
its streams. What is seen of a call is the state of its player when it returns.
-/

namespace AuthenticatedMpc

-- The empty sum is the numeral zero.
attribute [local instance (high)] Zero.ofOfNat0

/-- A party that evaluates list after list. -/
structure Player (S G W : Type) where
  evaluator : Evaluator S G W
  /-- The number of calls that have returned. -/
  call : Nat := 0
  /-- The outcome of the last call. -/
  outcome : Option (Except Error Summary) := none

/-- What is seen of the players of a session. -/
inductive Sighting (S G W : Type) where
  /-- A call has taken gates from its list. -/
  | taken (party : PartyId) (call count : Nat)
  /-- A gate has started, with this many gates taken and values unverified. -/
  | started (party : PartyId) (call gate taken unverified : Nat)
  /-- A call has returned. -/
  | returned (party : PartyId) (player : Player S G W) (count : TrafficCount)

namespace Player

variable {S G W : Type}

def evaluatorPart : Lens (Player S G W) (Evaluator S G W) where
  get player := player.evaluator
  set player evaluator := { player with evaluator }
  get_set _ _ := rfl
  set_get _ := rfl
  set_set _ _ _ := rfl

/-- A player that ends its streams and does nothing else. -/
def leave : Program (Player S G W) Unit := .close (pure ())

variable [Gate G W] (setting : Setting S)

def playCall (gates : List G) : Program (Player S G W) Unit := do
  let outcome ← ((Evaluator.evaluate setting gates).zoom evaluatorPart).attempt
  Program.modify fun player => { player with outcome := some outcome }
  Program.mark .returned
  Program.modify fun player => { player with call := player.call + 1 }

def playCalls : List (List G) → Program (Player S G W) Unit
  | [] => pure ()
  | gates :: rest => do
    playCall setting gates
    playCalls rest

def play (calls : List (List G)) : Program (Player S G W) Unit := do
  playCalls setting calls
  leave

def watch (party : PartyId) (move : Move) (player : Player S G W) (network : Network) :
    List (Sighting S G W) :=
  let evaluator := player.evaluator
  match move with
  | .inner (some (.taken count)) => [.taken party player.call count]
  | .inner (some (.evaluating (.circuit _) place 0)) =>
    [.started party player.call (evaluator.taken - evaluator.slots.length + place) evaluator.taken
      evaluator.ledger.length]
  | .inner (some .returned) => [.returned party player (network.mesh.count party)]
  | _ => []

end Player

namespace Sighting

variable {S G W : Type}

/-- The starts of gates in a call of a party: the place of the gate, the gates taken and the values
unverified. -/
def starts (seen : List (Sighting S G W)) (party call : Nat) : List (Nat × Nat × Nat) :=
  seen.filterMap fun
    | started p c gate soFar unverified =>
      if p = party ∧ c = call then some (gate, soFar, unverified) else none
    | _ => none

def takenBy (seen : List (Sighting S G W)) (party call : Nat) : Nat :=
  (seen.map fun
    | taken p c count => if p = party ∧ c = call then count else 0
    | _ => 0).sum

def returns (seen : List (Sighting S G W)) (party : PartyId) :
    List (Player S G W × TrafficCount) :=
  seen.filterMap fun
    | returned p player count => if p = party then some (player, count) else none
    | _ => none

end Sighting

/-- A session over a network of as many parties as there are players. -/
def evaluationSession {S G W : Type} [Gate G W] (rules : List Rule)
    (players : List (Actor (Player S G W) Unit)) :
    System (Player S G W) Unit Network × List (Sighting S G W) :=
  let network : Network := { mesh := .connect players.length, rules }
  let (system, seen) := System.run Network.port Player.watch ⟨players, network⟩ []
  (system, seen.reverse)

end AuthenticatedMpc
