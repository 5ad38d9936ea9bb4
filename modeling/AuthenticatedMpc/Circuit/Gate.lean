import AuthenticatedMpc.Party.Rounds

/-!
# Gates

A gate is evaluated once per round, from round zero until it is done. In a round it works on the
desk of the party: the messages of the round, the ledger of openings, and the board, on which
results are published.
-/

namespace AuthenticatedMpc

/-- What a gate reaches while it is evaluated. -/
structure Desk (W : Type) where
  rounds : RoundBuffer
  ledger : Ledger
  board : W

inductive Status where
  | done
  | moreRounds
deriving DecidableEq, Repr

/-- The gates of `G`, which publish on boards of `W`. They do not draw from the generator of the party,
which is not on its desk. -/
class Gate (G : Type) (W : outParam Type) where
  /-- Whether a result of the gate is made public to a party. -/
  revealsOutput : G → Bool
  /-- Publishes what the gate has held back. -/
  release : G → W → W
  /-- One round of the gate, and the gate after it. -/
  evaluate : Party → Nat → G → Program (Desk W) (G × Status)

namespace Desk

variable {W : Type}

def roundsPart : Lens (Desk W) RoundBuffer where
  get desk := desk.rounds
  set desk rounds := { desk with rounds }
  get_set _ _ := rfl
  set_get _ := rfl
  set_set _ _ _ := rfl

def broadcast (me : Party) (payload : Payload) : Program (Desk W) Unit :=
  (RoundBuffer.broadcast me.id payload).zoom roundsPart

def receive (me : Party) (peer : PartyId) : Program (Desk W) Payload :=
  (RoundBuffer.receive me.id peer).zoom roundsPart

/-- Adds up one contribution of each peer to a value of the own. -/
def gather (me : Party) (read : PartyId → Payload → Except Error Element) :
    List PartyId → Element → Program (Desk W) Element
  | [], total => pure total
  | peer :: rest, total => do
    let payload ← receive me peer
    let value ← Program.ofExcept (read peer payload)
    gather me read rest (me.modulus.add total value)

end Desk
end AuthenticatedMpc
