import AuthenticatedMpc.Proofs.Evaluation.Calls
import AuthenticatedMpc.Proofs.Simulation.Progress

/-!
# Honest sessions

When all parties follow the protocol, a session ends well in every order of the moves of its
parties.
-/

namespace AuthenticatedMpc

section Session

variable {table : Table} {config : Config} {calls : List (List DealtGate)}

theorem Player.ends_play {setting : Setting Schedule} {calls : List (List CircuitGate)}
    {player final : Player Schedule CircuitGate Board} {talk : List Signal}
    (h : (playCalls setting calls).Ends player talk (.ok ()) final) :
    (play setting calls).Ends player (talk ++ [.closed]) (.ok ()) final :=
  h.bind (show leave.Ends final [.closed] (.ok ()) final from ⟨[], rfl, rfl, rfl, rfl⟩)

theorem Player.stays_play {setting : Setting Schedule} {calls : List (List CircuitGate)}
    {player final : Player Schedule CircuitGate Board} {talk : List Signal}
    {inv : Player Schedule CircuitGate Board → Prop}
    {R : Player Schedule CircuitGate Board → Player Schedule CircuitGate Board → Prop}
    (h : (playCalls setting calls).Ends player talk (.ok ()) final)
    (hstays : (playCalls setting calls).Stays inv R player talk) (hfinal : inv final) :
    (play setting calls).Stays inv R player (talk ++ [.closed]) :=
  h.stays_bind hstays (show leave.Stays inv R final [.closed] from ⟨hfinal, fun _ _ => hfinal⟩)

/-- Before anybody moves in a session of parties that all follow the protocol. -/
def honestSession (table : Table) (config : Config) (source : Fin table.parties → Source)
    (calls : List (List DealtGate)) : System (Player Schedule CircuitGate Board) Unit Mesh where
  actors := List.ofFn fun i =>
    ⟨Player.play (table.setting config i) (calls.map (List.map (DealtGate.gate i))),
      { evaluator := .start .start (source i) .empty }⟩
  medium := .connect table.parties

/-- In whatever order the parties of an honest session move, none of them ever sees an error, each
of their calls returns the same summary, some of them can move until all have ended, and then all
ledgers are empty and all boards hold the dealt values. -/
theorem honestSession_complete {source : Fin table.parties → Source}
    (hconfig : config.validate = .ok ())
    (hvalid : ∀ deal ∈ DealtGate.deals calls.flatten, deal.Valid table)
    (hnodup : ((DealtGate.deals calls.flatten).map Deal.handle).Nodup)
    (hcomputes : ∀ front gates back, calls = front ++ gates :: back →
      DealtGate.StreamComputes table (DealtGate.deals calls.flatten)
        (DealtGate.deals front.flatten) gates)
    (hdraws : ∀ i, Source.Draws table.modulus (source i).word) :
    ∃ summaries : List Summary, summaries.length = calls.length ∧
      ∀ system, System.Reachable Mesh.port (honestSession table config source calls) system →
        (∀ i : Fin table.parties, ∃ actor, system.actors[(i : PartyId)]? = some actor ∧
          (∀ error, actor.program ≠ .fail error) ∧ actor.state.Reports summaries) ∧
        (∀ (i : Fin table.parties) move player system',
          system.moveAt? Mesh.port i = some (move, player, system') →
            ∃ actor, system'.actors[(i : PartyId)]? = some actor ∧
              player.Counts summaries actor.state) ∧
        ((∀ i : Fin table.parties, system.moveAt? Mesh.port i = none) →
          ∀ i : Fin table.parties, ∃ player, system.actors[(i : PartyId)]? =
            some ⟨.pure (), player⟩ ∧
              player.Complete summaries (DealtGate.deals calls.flatten)) := by
  let player := fun i : Fin table.parties =>
    ({ evaluator := .start .start (source i) .empty } : Player Schedule CircuitGate Board)
  obtain ⟨summaries, exchanges, final, hlength, h⟩ :=
    exists_playCalls_start hconfig hvalid hnodup hcomputes hdraws
  refine ⟨summaries, hlength, fun system hreach => ?_⟩
  have hstart := @Progress.start _ _ table exchanges true (fun _ => .ok ()) final
    (fun _ => Player.Reports summaries) (Player.Counts summaries) _ player
    (fun i => Player.ends_play (h i).1)
    fun i => Player.stays_play (h i).1 (h i).2.1 (h i).2.2.2
  obtain ⟨rest, hprogress⟩ := hstart.reachable hreach
  refine ⟨fun i => ?_, fun i move player system' hmove => ?_,
    fun hstuck i => ⟨final i, hprogress.ended_of_stuck hstuck i, (h i).2.2.1⟩⟩
  · obtain ⟨actor, hactor, hends, hstays⟩ := hprogress.actor i
    refine ⟨actor, hactor, fun error hfail => ?_, hstays.inv⟩
    rw [hfail] at hends
    exact absurd hends.2.1 nofun
  · obtain ⟨actor, hactor, heq | hcounts⟩ := hprogress.changes hmove
    · exact ⟨actor, hactor, .inl (by rw [heq])⟩
    · exact ⟨actor, hactor, hcounts⟩

/-- Two parties with the shares 1 and 2 of a key modulo 7, in two calls: in the first one a local gate
asks for the opened value, the second one has an output. -/
theorem honestSession_complete_seven :
    let table : Table :=
      ⟨2, ⟨.ofNat 7, by decide⟩, fun i => .ofNat (i + 1), by decide, by decide⟩
    let opened : Deal := ⟨0, .ofNat 5, fun i => ⟨.ofNat (i + 2), .ofNat i⟩⟩
    let result : Deal := ⟨1, .ofNat 4, fun i => ⟨.ofNat (4 * i), .ofNat (i + 2)⟩⟩
    let asking : DealtGate := .compute true fun _ boards =>
      match boards with
      | [_] => .ok .moreRounds
      | board :: _ => if (board.value? 0).isSome then .ok .done else .error (.setup (.other "not opened"))
      | [] => .ok .done
    ∃ summaries : List Summary, summaries.length = 2 ∧
      ∀ system, System.Reachable Mesh.port
          (honestSession table .standard default [[.opening opened, asking], [.output result]])
          system →
        (∀ i : Fin 2, ∃ actor, system.actors[(i : PartyId)]? = some actor ∧
          (∀ error, actor.program ≠ .fail error) ∧ actor.state.Reports summaries) ∧
        (∀ (i : Fin 2) move player system',
          system.moveAt? Mesh.port i = some (move, player, system') →
            ∃ actor, system'.actors[(i : PartyId)]? = some actor ∧
              player.Counts summaries actor.state) ∧
        ((∀ i : Fin 2, system.moveAt? Mesh.port i = none) →
          ∀ i : Fin 2, ∃ player, system.actors[(i : PartyId)]? = some ⟨.pure (), player⟩ ∧
            player.Complete summaries [opened, result]) := by
  intro table opened result asking
  refine @honestSession_complete table .standard [[.opening opened, asking], [.output result]]
    default (by decide) ?_ (by decide) ?_ fun _ => ?_
  · rw [show DealtGate.deals _ = [opened, result] from rfl]
    exact List.forall_mem_cons.mpr ⟨⟨by decide, by decide, by decide +kernel⟩,
      List.forall_mem_singleton.mpr ⟨by decide, by decide, by decide +kernel⟩⟩
  · intro front gates back heq before gate after hgates i sights hsights
    simp [List.cons_eq_append_iff] at heq
    obtain ⟨rfl, rfl, rfl⟩ | ⟨rfl, rfl, rfl⟩ := heq <;>
      simp [List.cons_eq_append_iff] at hgates
    · obtain ⟨rfl, rfl, rfl⟩ | ⟨rfl, rfl, rfl⟩ := hgates
      · trivial
      · have hopened : (sights 1).value? 0 = some opened.value :=
          hsights.opening 1 Nat.one_pos opened (List.mem_singleton_self _)
        refine ⟨1, by decide, fun k hk => ?_, if_pos (hopened ▸ rfl)⟩
        obtain rfl := Nat.lt_one_iff.mp hk
        rfl
    · obtain ⟨rfl, rfl, rfl⟩ := hgates
      trivial
  · exact Source.draws_default

end Session
end AuthenticatedMpc
