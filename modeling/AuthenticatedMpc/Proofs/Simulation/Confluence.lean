import AuthenticatedMpc.Proofs.Simulation.Commuting
import AuthenticatedMpc.Proofs.Evaluation.Calls

/-!
# The order of the moves does not matter

Players run their calls over a mesh, whatever their gates, configurations, shares and generators are,
and whether or not they agree. No player can tell in which order the others move: every receive names
its peer and waits until there is a packet or the stream has ended. So two interleavings that go on
until no player can move come to the same system, and each player makes the same moves in both.
-/

namespace AuthenticatedMpc

variable {σ α : Type}

namespace System

/-- An order in which the parties of a system move over the mesh, with the moves of each party and the
states in which it makes them. -/
inductive Interleaving : System σ α Mesh → (PartyId → List (Move × σ)) → System σ α Mesh → Prop
  | refl (system : System σ α Mesh) : Interleaving system (fun _ => []) system
  | head {start next final : System σ α Mesh} {party : PartyId} {move : Move} {state : σ}
      {logs : PartyId → List (Move × σ)}
      (hmove : start.moveAt? Mesh.port party = some (move, state, next))
      (rest : Interleaving next logs final) :
      Interleaving start (Function.update logs party ((move, state) :: logs party)) final

def Stuck (system : System σ α Mesh) : Prop := ∀ party, system.moveAt? Mesh.port party = none

/-- In a system in which no party can move, each has ended, goes on forever without doing anything, or
waits for a peer that can send but has sent nothing more. -/
theorem Stuck.rests {system : System σ α Mesh} (h : system.Stuck) {party : PartyId} {actor : Actor σ α}
    (hactor : system.actors[party]? = some actor) :
    actor.program.hasEnded = true ∨ actor.program = .never ∨
      ∃ peer next, actor.program = .receive peer next ∧
        system.medium.queue peer party = [] ∧ system.medium.isOpen peer = true := by
  have hnext : actor.program.next? (Mesh.port party) actor.state system.medium = none := by
    by_contra hsome
    obtain ⟨⟨move, next, mesh⟩, hsome⟩ := Option.ne_none_iff_exists'.mp hsome
    have hmove := moveAt?_eq_some_iff.mpr ⟨actor, next, mesh, hactor, rfl, hsome, rfl⟩
    rw [h party] at hmove
    cases hmove
  obtain ⟨program, state⟩ := actor
  cases program with
  | pure _ | fail _ => exact .inl rfl
  | never => exact .inr (.inl rfl)
  | step | send | close => cases hnext
  | receive peer next =>
    refine .inr (.inr ⟨peer, next, rfl, @Mesh.queue_eq_nil_of_receive _ party _ ?_⟩)
    by_contra hsome
    obtain ⟨⟨reply, mesh⟩, hsome⟩ := Option.ne_none_iff_exists'.mp hsome
    have hreceive : (Mesh.port party).receive system.medium peer = some (reply, mesh) := hsome
    rw [Program.next?, hreceive] at hnext
    cases hnext

theorem exists_interleaving (system : System σ α Mesh) :
    ∃ logs final, Interleaving system logs final ∧ final.Stuck := by
  obtain ⟨actors, hactors⟩ : ∃ actors, system.actors = actors := ⟨_, rfl⟩
  induction actors using Advances.wf.induction generalizing system with
  | _ actors ih =>
    by_cases hstuck : system.Stuck
    · exact ⟨_, system, .refl system, hstuck⟩
    · unfold Stuck at hstuck
      push Not at hstuck
      obtain ⟨party, hmoves⟩ := hstuck
      obtain ⟨⟨move, state, next⟩, hmove⟩ := Option.ne_none_iff_exists'.mp hmoves
      obtain ⟨logs, final, hrest, hfinal⟩ := ih _ (hactors ▸ advances_of_moveAt? hmove) next rfl
      exact ⟨_, final, .head hmove hrest, hfinal⟩

theorem Interleaving.length_eq {start final : System σ α Mesh} {logs : PartyId → List (Move × σ)}
    (h : Interleaving start logs final) : final.actors.length = start.actors.length := by
  induction h with
  | refl => rfl
  | head hmove _ ih =>
    obtain ⟨_, _, _, -, -, -, rfl⟩ := moveAt?_eq_some_iff.mp hmove
    exact ih.trans List.length_set

/-- Interleavings in which the parties go on until none of them can move come to the same system, with
the same moves of each party in the same states. -/
theorem Interleaving.eq_of_stuck {start final final' : System σ α Mesh}
    {logs logs' : PartyId → List (Move × σ)} (h : Interleaving start logs final) (hfinal : final.Stuck)
    (h' : Interleaving start logs' final') (hfinal' : final'.Stuck) : final = final' ∧ logs = logs' := by
  obtain ⟨actors, hactors⟩ : ∃ actors, start.actors = actors := ⟨_, rfl⟩
  induction actors using Advances.wf.induction
    generalizing start final final' logs logs' with
  | _ actors ih =>
    subst hactors
    cases h with
    | refl =>
      cases h' with
      | refl => exact ⟨rfl, rfl⟩
      | head hmove => rw [hfinal _] at hmove; cases hmove
    | @head _ left _ me move s mine hme hleft =>
      cases h' with
      | refl => rw [hfinal' _] at hme; cases hme
      | @head _ right _ you other t yours hyou hright =>
        rcases eq_or_ne me you with rfl | hne
        · rw [hme] at hyou
          cases hyou
          obtain ⟨rfl, rfl⟩ := ih _ (advances_of_moveAt? hme) hleft hfinal hright hfinal' rfl
          exact ⟨rfl, rfl⟩
        · -- Both go on to where each has made the move of the other, and from there in one way.
          obtain ⟨joined, hjoin, hjoin'⟩ := moveAt?_comm hne hme hyou
          obtain ⟨rest, last, hrest, hlast⟩ := exists_interleaving joined
          obtain ⟨rfl, rfl⟩ :=
            ih _ (advances_of_moveAt? hme) hleft hfinal (.head hjoin hrest) hlast rfl
          obtain ⟨rfl, rfl⟩ :=
            ih _ (advances_of_moveAt? hyou) hright hfinal' (.head hjoin' hrest) hlast rfl
          refine ⟨rfl, ?_⟩
          rw [Function.update_of_ne hne, Function.update_of_ne hne.symm, Function.update_comm hne]

end System

/-! ## Players -/

variable {S G W : Type} [Gate G W] {n : Nat} {setting : Fin n → Setting S} {calls : Fin n → List (List G)}
  {player : Fin n → Player S G W}

/-- Before anybody moves in a session in which each party has its own setting, calls and state, and in
which all networks stay open. -/
def openSession (setting : Fin n → Setting S) (calls : Fin n → List (List G))
    (player : Fin n → Player S G W) : System (Player S G W) Unit Mesh where
  actors := List.ofFn fun i => ⟨Player.playCalls (setting i) (calls i), player i⟩
  medium := .connect n

/-- However the players of a session differ, and in whatever order they move until none of them can, they
come to the same system: the calls of a player have had the same outcomes, its ledger and its values are
the same, and it has either ended or waits in the same receive, for a peer that has sent nothing more.
Each has made the same moves in the same states, so it has also sent the same packets in the same
order. -/
theorem sessions_confluent {system system' : System (Player S G W) Unit Mesh}
    {logs logs' : PartyId → List (Move × Player S G W)}
    (h : System.Interleaving (openSession setting calls player) logs system) (hstuck : system.Stuck)
    (h' : System.Interleaving (openSession setting calls player) logs' system')
    (hstuck' : system'.Stuck) :
    system = system' ∧ logs = logs' ∧ ∀ i : Fin n, ∃ actor,
      system.actors[(i : PartyId)]? = some actor ∧
        (actor.program.hasEnded = true ∨ actor.program = .never ∨
          ∃ peer next, actor.program = .receive peer next ∧
            system.medium.queue peer i = [] ∧ system.medium.isOpen peer = true) := by
  obtain ⟨rfl, rfl⟩ := h.eq_of_stuck hstuck h' hstuck'
  refine ⟨rfl, rfl, fun i => ?_⟩
  have hlength : system.actors.length = n := h.length_eq.trans List.length_ofFn
  have hactor := List.getElem?_eq_getElem (i.isLt.trans_eq hlength.symm)
  exact ⟨_, hactor, hstuck.rests hactor⟩

/-- Two players with the shares 1 and 2 of a key modulo 7 publish the value 5. One would then check
after every gate and the other after every second, and each has a call that the other has not. The
first move may be the one's or the other's. -/
theorem sessions_confluent_seven :
    let table : Table :=
      ⟨2, ⟨.ofNat 7, by decide⟩, fun i => .ofNat (i + 1), by decide, by decide⟩
    let deal : Deal := ⟨0, .ofNat 5, fun i => ⟨.ofNat (i + 2), .ofNat i⟩⟩
    let gate : Fin 2 → CircuitGate := fun i => DealtGate.gate i (.opening deal)
    let session := openSession
      (fun i => table.setting ⟨i.val.toUInt64 + 1, i.val.toUInt64 + 1, 2, 1⟩ i)
      ![[[gate 0, gate 0], [gate 0]], [[gate 1], [gate 1, gate 1]]]
      fun _ => { evaluator := Evaluator.start Schedule.start default Board.empty }
    ∃ (one two : Move) (state state' : Player Schedule CircuitGate Board)
      (first second system system' : System (Player Schedule CircuitGate Board) Unit Mesh)
      (logs logs' : PartyId → List (Move × Player Schedule CircuitGate Board)),
      session.moveAt? Mesh.port 0 = some (one, state, first) ∧
      session.moveAt? Mesh.port 1 = some (two, state', second) ∧
      System.Interleaving first logs system ∧ system.Stuck ∧
      System.Interleaving second logs' system' ∧ system'.Stuck ∧ system = system' ∧
      Function.update logs 0 ((one, state) :: logs 0) =
        Function.update logs' 1 ((two, state') :: logs' 1) := by
  intro table deal gate session
  obtain ⟨⟨one, state, first⟩, hone⟩ : ∃ move, session.moveAt? Mesh.port 0 = some move := ⟨_, rfl⟩
  obtain ⟨⟨two, state', second⟩, htwo⟩ : ∃ move, session.moveAt? Mesh.port 1 = some move := ⟨_, rfl⟩
  obtain ⟨logs, system, hfirst, hstuck⟩ := System.exists_interleaving first
  obtain ⟨logs', system', hsecond, hstuck'⟩ := System.exists_interleaving second
  obtain ⟨hsystem, hlogs, -⟩ :=
    sessions_confluent (.head hone hfirst) hstuck (.head htwo hsecond) hstuck'
  exact ⟨one, two, state, state', first, second, system, system', logs, logs', hone, htwo, hfirst,
    hstuck, hsecond, hstuck', hsystem, hlogs⟩

end AuthenticatedMpc
