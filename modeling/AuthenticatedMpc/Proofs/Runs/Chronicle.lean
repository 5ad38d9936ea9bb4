import AuthenticatedMpc.Party.Transport

/-!
# What a party has opened and checked

The moves of a party tell which values it has opened, in which batch each of them, and after which
of them it has begun a check, over how many records.
-/

namespace AuthenticatedMpc

/-- What a party has done with a value, or with its records. -/
inductive Entry where
  /-- A value was opened in a batch. -/
  | opened (batch : UInt64) (value : Element)
  /-- A check over a number of records has begun. -/
  | checked (records : Nat)
deriving DecidableEq, Repr

/-- What a party has done so far, and the batch of the last gate that it has started. -/
structure Chronicle where
  batch : UInt64 := 0
  entries : List Entry := []
deriving DecidableEq, Repr

namespace Chronicle

def note (chronicle : Chronicle) : Move → Chronicle
  | .inner (some (.evaluating (.circuit batch) _ _)) => { chronicle with batch }
  | .inner (some (.opened record)) =>
    { chronicle with entries := chronicle.entries ++ [.opened chronicle.batch record.value] }
  | .inner (some (.checking _ records)) =>
    { chronicle with entries := chronicle.entries ++ [.checked records.length] }
  | _ => chronicle

def ofMoves (moves : List Move) : Chronicle := moves.foldl note {}

@[simp] theorem ofMoves_append (past : List Move) (move : Move) :
    ofMoves (past ++ [move]) = (ofMoves past).note move := by
  rw [ofMoves, ofMoves, List.foldl_append, List.foldl_cons, List.foldl_nil]

variable {chronicle : Chronicle} {moves : List Move}

theorem entries_note_evaluating (phase : Phase) (place round : Nat) (chronicle : Chronicle) :
    (chronicle.note (.inner (some (.evaluating phase place round)))).entries = chronicle.entries := by
  cases phase <;> rfl

theorem entries_foldl_note
    (h : ∀ move ∈ moves, ∀ event, move = .inner (some event) →
      ∃ phase place round, event = .evaluating phase place round) :
    (moves.foldl note chronicle).entries = chronicle.entries := by
  induction moves generalizing chronicle with
  | nil => rfl
  | cons move moves ih =>
    obtain ⟨hmove, hmoves⟩ := List.forall_mem_cons.mp h
    rw [List.foldl_cons, ih hmoves]
    cases move with
    | inner event =>
      cases event with
      | none => rfl
      | some event =>
        obtain ⟨phase, place, round, rfl⟩ := hmove event rfl
        exact entries_note_evaluating phase place round chronicle
    | sent | received | closed => rfl

end Chronicle
end AuthenticatedMpc
