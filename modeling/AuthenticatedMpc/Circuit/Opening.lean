import AuthenticatedMpc.Circuit.Gate
import AuthenticatedMpc.Share

/-!
# Opening shared values

An opening broadcasts the local share in round zero and adds up all shares in round one; the sum is
recorded in the ledger with the local share of its MAC, which is never sent. What is opened can be
published on a board, under the handle of the opening.
-/

namespace AuthenticatedMpc

/-- The place on the board where a value is published. -/
abbrev Handle := Nat

/-- The published values; a value that stands on the board stays. -/
structure Board where
  entries : List (Handle × Element)
deriving DecidableEq, Repr

namespace Board

def empty : Board := ⟨[]⟩

instance : Inhabited Board := ⟨empty⟩

def value? (board : Board) (handle : Handle) : Option Element := board.entries.lookup handle

/-- Publishes a value; later ones for the same handle are ignored. -/
def publish (board : Board) (handle : Handle) (value : Element) : Board :=
  match board.value? handle with
  | some _ => board
  | none => ⟨board.entries ++ [(handle, value)]⟩

/-- Publishing leaves all other handles alone, and its own if it has a value. -/
theorem value?_publish (board : Board) (handle other : Handle) (value : Element) :
    (board.publish handle value).value? other =
      (board.value? other).or (if other = handle then some value else none) := by
  unfold publish
  split
  · next old h =>
    by_cases ho : other = handle
    · rw [ho, h, Option.some_or]
    · rw [if_neg ho, Option.or_none]
  · next h =>
    unfold value? at h ⊢
    rw [List.lookup_append]
    by_cases ho : other = handle
    · simp [ho, h]
    · have hne : (other == handle) = false := by simp [ho]
      rw [if_neg ho, Option.or_none, List.lookup_cons, hne]
      exact Option.or_none

end Board

/-- The opening of a share; `opened` is the sum of all shares once it is known. -/
structure Opening where
  share : Share
  handle : Handle
  opened : Option Element := none
deriving DecidableEq, Repr

namespace Opening

def publish (opening : Opening) (board : Board) : Board :=
  match opening.opened with
  | some value => board.publish opening.handle value
  | none => board

def evaluate (me : Party) (round : Nat) (opening : Opening) :
    Program (Desk Board) (Opening × Status) :=
  if round = 0 then do
    Desk.broadcast me (Modulus.encode opening.share.value)
    pure (opening, .moreRounds)
  else do
    let value ← Desk.gather me
      (fun _ payload => (me.modulus.decode payload).mapError .encoding) me.peers opening.share.value
    Program.record (.opened ⟨value, opening.share.mac⟩) fun desk =>
      { desk with ledger := desk.ledger.append value opening.share.mac }
    pure ({ opening with opened := some value }, .done)

end Opening

end AuthenticatedMpc
