import AuthenticatedMpc.Field.Sampling

/-!
# Authenticated shares

A shared value is split additively among the parties, and so is its MAC, the product of the value
with a global key that is itself shared. Sums, differences and multiples by public values are
taken share by share.
-/

namespace AuthenticatedMpc

/-- One party's additive shares of a value and of its MAC. -/
structure Share where
  value : Element
  mac : Element
deriving DecidableEq, Repr

namespace Share

instance : Inhabited Share := ⟨⟨.zero, .zero⟩⟩

variable (p : Modulus)

def add (a b : Share) : Share := ⟨p.add a.value b.value, p.add a.mac b.mac⟩

def sub (a b : Share) : Share := ⟨p.sub a.value b.value, p.sub a.mac b.mac⟩

/-- Adds a public value: the first party shifts its share, every party shifts its MAC by its key
share times the value. -/
def addPublic (a : Share) (constant keyShare : Element) (party : PartyId) : Share :=
  ⟨if party = firstParty then p.add a.value constant else a.value,
    p.add a.mac (p.mul keyShare constant)⟩

def mulPublic (a : Share) (constant : Element) : Share :=
  ⟨p.mul a.value constant, p.mul a.mac constant⟩

/-- The value and the MAC that all parties' shares stand for. -/
def openAll (shares : List Share) : Share :=
  ⟨p.sum (shares.map Share.value), p.sum (shares.map Share.mac)⟩

end Share

/-! ## Dealing -/

namespace Dealing

variable (p : Modulus)

def drawMany : Nat → Draw (List Element)
  | 0 => pure []
  | count + 1 => do
    let value ← p.draw
    let rest ← drawMany count
    pure (value :: rest)

/-- The shares of a value when all parties but the first have the given ones: the first has the
rest. -/
def complete (value : Element) (others : List Element) : List Element :=
  p.sub value (p.sum others) :: others

/-- Splits a value into random shares. There is always at least one. -/
def additiveShares (value : Element) (parties : Nat) : Draw (List Element) := do
  let others ← drawMany p (parties - 1)
  pure (complete p value others)

def macKey (parties : Nat) : Draw (Element × List Element) := do
  let key ← p.draw
  let shares ← additiveShares p key parties
  pure (key, shares)

/-- Authenticated shares of a value under a key: first the shares of the value are drawn, then those
of its MAC. -/
def shareValue (value key : Element) (parties : Nat) : Draw (List Share) := do
  let values ← additiveShares p value parties
  let macs ← additiveShares p (p.mul key value) parties
  pure (List.zipWith Share.mk values macs)

end Dealing
end AuthenticatedMpc
