import AuthenticatedMpc.Field.Modulus

/-!
# The local party

A party knows its place among the parties, the public modulus and its share of the MAC key.
-/

namespace AuthenticatedMpc

/-- The public parameters and the key share of one party. -/
structure Party where
  id : PartyId
  parties : Nat
  modulus : Modulus
  keyShare : Element
  two_le_parties : 2 ≤ parties
  id_lt : id < parties
  keyShare_lt : keyShare < modulus.value

namespace Party

/-- Refuses too few parties, then a place out of range, then a key share that is not reduced. -/
def ofParameters (id : PartyId) (parties : Nat) (modulus : Modulus) (keyShare : Element) :
    Except PartyError Party :=
  if hparties : 2 ≤ parties then
    if hid : id < parties then
      if hkey : keyShare < modulus.value then
        .ok ⟨id, parties, modulus, keyShare, hparties, hid, hkey⟩
      else .error .keyNotReduced
    else .error (.outOfRange id parties)
  else .error (.tooFewParties parties)

def peersOf (id : PartyId) (parties : Nat) : List PartyId :=
  (List.range parties).filter (· != id)

variable (me : Party)

def peers : List PartyId := peersOf me.id me.parties

end Party
end AuthenticatedMpc
