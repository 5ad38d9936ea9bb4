import AuthenticatedMpc.Party.Transport

/-!
# Several parties at once

A system is a list of actors over one shared medium. Its parties move one at a time, in any order;
`System.run` always moves the first one that can, until none can.
-/

namespace AuthenticatedMpc

/-- Processes, one per party, and the medium between them. -/
structure System (σ α T : Type) where
  actors : List (Actor σ α)
  medium : T

/-- One actor has been replaced by a continuation of it. -/
inductive Advances {σ α : Type} : List (Actor σ α) → List (Actor σ α) → Prop where
  | head {p q : Actor σ α} (rest : List (Actor σ α)) (h : Program.Child q.program p.program) :
      Advances (q :: rest) (p :: rest)
  | tail (p : Actor σ α) {rest rest' : List (Actor σ α)} (h : Advances rest' rest) :
      Advances (p :: rest') (p :: rest)

namespace Advances

variable {σ α : Type}

theorem acc_cons {program : Program σ α} (hprogram : Acc Program.Child program)
    {rest : List (Actor σ α)} (hrest : Acc Advances rest) (state : σ) :
    Acc Advances (⟨program, state⟩ :: rest) := by
  induction hprogram generalizing rest state with
  | intro program _ ihprogram =>
    induction hrest generalizing state with
    | intro rest hacc ihrest =>
      refine ⟨_, fun l h => ?_⟩
      cases h with
      | head _ h => exact ihprogram _ h ⟨_, hacc⟩ _
      | tail _ h => exact ihrest _ h _

theorem wf : WellFounded (@Advances σ α) := by
  constructor
  intro l
  induction l with
  | nil => exact ⟨_, fun _ h => by cases h⟩
  | cons p rest ih => exact acc_cons (Program.child_wf.apply p.program) ih p.state

theorem of_set {l : List (Actor σ α)} {i : Nat} {p q : Actor σ α} (hget : l[i]? = some p)
    (hchild : Program.Child q.program p.program) : Advances (l.set i q) l := by
  induction l generalizing i with
  | nil => simp at hget
  | cons r rest ih =>
    cases i with
    | zero =>
      simp only [List.getElem?_cons_zero, Option.some.injEq] at hget
      subst hget
      exact .head _ hchild
    | succ i => exact .tail _ (ih (by simpa using hget))

end Advances

namespace System

variable {σ α T : Type}

/-- One move of a party: what it does, in which state, and the system after it. -/
def moveAt? (port : PartyId → Transport T) (system : System σ α T) (party : PartyId) :
    Option (Move × σ × System σ α T) :=
  match system.actors[party]? with
  | none => none
  | some actor =>
    match actor.program.next? (port party) actor.state system.medium with
    | none => none
    | some (move, next, medium) =>
      some (move, actor.state, ⟨system.actors.set party next, medium⟩)

theorem advances_of_moveAt? {port : PartyId → Transport T} {system system' : System σ α T}
    {party : PartyId} {move : Move} {state : σ}
    (h : system.moveAt? port party = some (move, state, system')) :
    Advances system'.actors system.actors := by
  unfold moveAt? at h
  split at h
  · simp at h
  · next actor hget =>
    split at h
    · simp at h
    · next hnext =>
      simp only [Option.some.injEq, Prod.mk.injEq] at h
      obtain ⟨-, -, rfl⟩ := h
      exact .of_set hget (Program.child_of_next? hnext)

def firstMove? (port : PartyId → Transport T) (system : System σ α T) :
    List PartyId → Option (PartyId × Move × σ × System σ α T)
  | [] => none
  | party :: rest =>
    match system.moveAt? port party with
    | some (move, state, next) => some (party, move, state, next)
    | none => firstMove? port system rest

theorem moveAt?_of_firstMove? {port : PartyId → Transport T} {system : System σ α T}
    {candidates : List PartyId} {party : PartyId} {move : Move} {state : σ}
    {next : System σ α T}
    (h : system.firstMove? port candidates = some (party, move, state, next)) :
    system.moveAt? port party = some (move, state, next) := by
  induction candidates with
  | nil => simp [firstMove?] at h
  | cons candidate rest ih =>
    unfold firstMove? at h
    split at h
    · next hmove =>
      simp only [Option.some.injEq, Prod.mk.injEq] at h
      obtain ⟨rfl, rfl, rfl, rfl⟩ := h
      exact hmove
    · exact ih h

/-- Moves the parties until none can move. Each move is shown to `watch` with the state of its party
and the medium before it; what `watch` makes of them is kept, newest first. -/
def run {ω : Type} (port : PartyId → Transport T) (watch : PartyId → Move → σ → T → List ω)
    (system : System σ α T) (seen : List ω) : System σ α T × List ω :=
  match _h : system.firstMove? port (List.range system.actors.length) with
  | none => (system, seen)
  | some (party, move, state, next) =>
    run port watch next (watch party move state system.medium ++ seen)
-- The first party that can move does, and its program becomes one of its continuations.
termination_by Advances.wf.wrap system.actors
decreasing_by exact advances_of_moveAt? (moveAt?_of_firstMove? ‹_›)

end System
end AuthenticatedMpc
