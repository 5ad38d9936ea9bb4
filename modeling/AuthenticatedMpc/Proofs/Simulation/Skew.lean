import AuthenticatedMpc.Proofs.Evaluation.Dealt
import AuthenticatedMpc.Proofs.Simulation.Agreement

/-!
# Parties that only differ in their schedules

The parties evaluate the same dealt gates, but take them in batches of different sizes and check after
different numbers of them. Such parties can lose step. They notice it as such: none of them ever takes
another for a cheater, and none of them publishes anything but what was dealt.
-/

namespace AuthenticatedMpc

variable {table : Table} {config : Fin table.parties → Config} {gates : List DealtGate}
  {source : Fin table.parties → Source}
  {system : System (Evaluator Schedule CircuitGate Board) Summary Mesh} {moves : PartyId → List Move}

def Playbook.ofGates (source : Fin table.parties → Source)
    (hvalid : ∀ deal ∈ DealtGate.deals gates, deal.Valid table) : Playbook table where
  deals := DealtGate.deals gates
  valid := hvalid
  source q := if hq : q < table.parties then source ⟨q, hq⟩ else default

/-- Whatever the configurations are, in whatever order the parties move, and whosever network is taken
away: a party fails only if the transport fails or a peer is elsewhere, or if one of the computations
fails although it has seen dealt values only; and at any time only dealt values are published. -/
theorem evaluations_only_interrupted
    (hvalid : ∀ deal ∈ DealtGate.deals gates, deal.Valid table)
    (hhistory : System.History
      (evaluations table config (fun i => gates.map (DealtGate.gate i)) source) system moves)
    (i : Fin table.parties) :
    ∃ actor, system.actors[(i : PartyId)]? = some actor ∧
      (∀ error, actor.program = .fail error →
        error.IsInterruption ∨ ∃ gate ∈ gates, gate.Raises (DealtGate.deals gates) i error) ∧
      actor.state.board.Faithful (DealtGate.deals gates) := by
  let playbook := Playbook.ofGates source hvalid
  have hlength := @length_evaluations table config (fun i => gates.map (DealtGate.gate i)) source
  have hmeets := hhistory.meets (c := fun i => (playbook.terms i fun error =>
      ∃ gate ∈ gates, gate.Raises (DealtGate.deals gates) i error).contract Evaluator.board
        fun _ _ _ => True)
    (congrArg Mesh.connect hlength.symm) ?_ ?_
  · have hlt : (i : PartyId) < system.actors.length := by
      rw [(evaluations_kept hhistory).length, hlength]
      exact i.isLt
    have hnow := hmeets i _ (List.getElem?_eq_getElem hlt)
    refine ⟨_, List.getElem?_eq_getElem hlt, fun error herror => ?_, hnow.during.2⟩
    rw [herror] at hnow
    exact hnow.2
  · -- What a party receives is the first of what its peer says.
    rw [hlength]
    intro i hi now hreceived q hq hne
    obtain ⟨past, evaluator, hsaid, hprefix⟩ := hreceived q hq hne
    exact (hsaid.1 i hi hne.symm).of_front hprefix
  · intro i actor hactor
    obtain ⟨hi, rfl⟩ := List.getElem?_eq_some_iff.mp hactor
    rw [hlength] at hi
    have hsource : playbook.source i = source ⟨i, hi⟩ := dif_pos hi
    have hstart := @Playbook.meets_evaluate table playbook ⟨i, hi⟩
      (fun error => ∃ gate ∈ gates, gate.Raises (DealtGate.deals gates) i error) (config ⟨i, hi⟩) gates
      rfl fun gate hgate error herror => ⟨gate, hgate, herror⟩
    rw [hsource] at hstart
    simpa [evaluations] using hstart

/-- Two parties with the shares 1 and 2 of a key modulo 7, one of which opens two values at once, the
other one after the other with a check in between, move until neither can. -/
theorem evaluations_only_interrupted_seven :
    let table : Table :=
      ⟨2, ⟨.ofNat 7, by decide⟩, fun i => .ofNat (i + 1), by decide, by decide⟩
    let opened : Deal := ⟨0, .ofNat 5, fun i => ⟨.ofNat (i + 2), .ofNat i⟩⟩
    let result : Deal := ⟨1, .ofNat 4, fun i => ⟨.ofNat (4 * i), .ofNat (i + 2)⟩⟩
    let gates : List DealtGate := [.opening opened, .output result]
    let config : Fin 2 → Config := fun i =>
      ⟨i.val.toUInt64 + 1, i.val.toUInt64 + 1, 2, 1⟩
    (∀ i, (config i).validate = .ok ()) ∧
      ∃ system moves, System.History (evaluations table config
          (fun i => gates.map (DealtGate.gate i)) default) system moves ∧
        (∀ party, system.moveAt? Mesh.port party = none) ∧
        ∀ i : Fin 2, ∃ actor, system.actors[(i : PartyId)]? = some actor ∧
          (∀ error, actor.program = .fail error →
            error.IsInterruption ∨ ∃ gate ∈ gates, gate.Raises [opened, result] i error) ∧
          actor.state.board.Faithful [opened, result] := by
  intro table opened result gates config
  have hvalid : ∀ deal ∈ DealtGate.deals gates, deal.Valid table :=
    List.forall_mem_cons.mpr ⟨⟨by decide, by decide, by decide +kernel⟩,
      List.forall_mem_singleton.mpr ⟨by decide, by decide, by decide +kernel⟩⟩
  obtain ⟨system, moves, hhistory, -, hstuck⟩ := @System.History.exists_stuck _ _
    (evaluations table config (fun i => gates.map (DealtGate.gate i)) default) _ _ .refl .refl
  exact ⟨by decide, system, moves, hhistory, hstuck, evaluations_only_interrupted hvalid hhistory⟩

end AuthenticatedMpc
