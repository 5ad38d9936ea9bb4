import AuthenticatedMpc.Field.Modulus

/-!
# The ledger of opened values

Every publicly opened value is recorded with the local party's share of its MAC, in the order of
opening, until a MAC check takes the records out.
-/

namespace AuthenticatedMpc

/-- A reconstructed value and the local share of its MAC. -/
structure Record where
  value : Element
  mac : Element
deriving DecidableEq, Repr

/-- The opened values that no check has taken yet, the oldest first. -/
structure Ledger where
  records : List Record
deriving DecidableEq, Repr

namespace Ledger

def empty : Ledger := ⟨[]⟩

instance : Inhabited Ledger := ⟨empty⟩

def append (ledger : Ledger) (value mac : Element) : Ledger := ⟨ledger.records ++ [⟨value, mac⟩]⟩

@[simp] theorem records_append (ledger : Ledger) (value mac : Element) :
    (ledger.append value mac).records = ledger.records ++ [⟨value, mac⟩] := rfl

def isEmpty (ledger : Ledger) : Bool := ledger.records.isEmpty

theorem isEmpty_iff (ledger : Ledger) : ledger.isEmpty = true ↔ ledger.records = [] := by
  rw [isEmpty, List.isEmpty_iff]

def length (ledger : Ledger) : Nat := ledger.records.length

def drain (ledger : Ledger) : List Record × Ledger := (ledger.records, empty)

end Ledger
end AuthenticatedMpc
