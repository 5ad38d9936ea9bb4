import AuthenticatedMpc.Proofs.Evaluation.Accounts
import AuthenticatedMpc.Proofs.Evaluation.Calls
import AuthenticatedMpc.Proofs.Simulation.History

/-!
# Parties that may diverge agree if all return

The parties evaluate what they like, in batches of any size and under any schedule of checks. If all
of them return, then each has sent to every other what that one has received. So all have made the
same exchanges, and have opened and checked the same.
-/

namespace AuthenticatedMpc

variable {table : Table} {config : Fin table.parties → Config}
  {gates : Fin table.parties → List CircuitGate} {source : Fin table.parties → Source}
  {system : System (Evaluator Schedule CircuitGate Board) Summary Mesh} {moves : PartyId → List Move}

/-- Before anybody moves in an evaluation in which each party has its own gates, configuration and
generator. -/
def evaluations (table : Table) (config : Fin table.parties → Config)
    (gates : Fin table.parties → List CircuitGate) (source : Fin table.parties → Source) :
    System (Evaluator Schedule CircuitGate Board) Summary Mesh where
  actors := List.ofFn fun i =>
    ⟨Evaluator.evaluate (.standard (table.party i) (config i)) (gates i),
      .start .start (source i) .empty⟩
  medium := .connect table.parties

theorem length_evaluations : (evaluations table config gates source).actors.length = table.parties :=
  List.length_ofFn

theorem evaluations_kept
    (h : System.History (evaluations table config gates source) system moves) :
    System.Kept (evaluations table config gates source) system moves :=
  h.kept (congrArg Mesh.connect length_evaluations.symm)

/-- Exchanges in which each party has sent what the others have received are the same for all. -/
theorem Table.same_of_exchanged {exchanges : Fin table.parties → List (PartyId → Packet)}
    (hexchanged : ∀ i : Fin table.parties, Exchanged (table.party i) (exchanges i) (moves i))
    (hheard : ∀ i j : Fin table.parties, i ≠ j →
      receivedFrom i (talkOf (moves j)) <+: sentTo j (talkOf (moves i)))
    (i j : Fin table.parties) : table.SamePackets (exchanges i) (exchanges j) := by
  have hpackets : ∀ i j : Fin table.parties, i ≠ j →
      (exchanges j).map (· i) <+: (exchanges i).map (· i) := by
    intro i j hne
    have hall := hheard i j hne
    rwa [(hexchanged j).receivedFrom i (Table.val_mem_peers.mpr hne),
      (hexchanged i).sentTo j (Table.val_mem_peers.mpr hne.symm)] at hall
  have hlength : ∀ i j : Fin table.parties, i ≠ j → (exchanges j).length ≤ (exchanges i).length := by
    intro i j hne
    have hle := (hpackets i j hne).length_le
    rwa [List.length_map, List.length_map] at hle
  have hown : ∀ i q : Fin table.parties, (exchanges i).map (· q) = (exchanges q).map (· q) := by
    intro i q
    rcases eq_or_ne q i with rfl | hne
    · rfl
    · refine (hpackets q i hne).eq_of_length ?_
      rw [List.length_map, List.length_map]
      exact le_antisymm (hlength q i hne) (hlength i q hne.symm)
  exact fun q hq => (hown i ⟨q, hq⟩).trans (hown j ⟨q, hq⟩).symm

theorem exists_history_returned {config : Config} {gates : List DealtGate}
    (hconfig : config.validate = .ok ())
    (hvalid : ∀ deal ∈ DealtGate.deals gates, deal.Valid table)
    (hnodup : ((DealtGate.deals gates).map Deal.handle).Nodup)
    (hcomputes : DealtGate.StreamComputes table (DealtGate.deals gates) [] gates)
    (hdraws : ∀ i, Source.Draws table.modulus (source i).word) :
    ∃ system moves, System.History (evaluations table (fun _ => config)
        (fun i => gates.map (DealtGate.gate i)) source) system moves ∧
      ∀ i : Fin table.parties, ∃ summary final,
        system.actors[(i : PartyId)]? = some ⟨.pure summary, final⟩ := by
  let shared : Shared := ⟨.start, [], .empty, [], .start, 0⟩
  have hsettled :
      shared.NothingPending (DealtGate.deals gates) [] := ⟨Board.faithful_empty, nofun, rfl⟩
  obtain ⟨_, -, exchanges, summary, final, hends⟩ :=
    @exists_together_evaluate table config (fun i => (source i).word) _ [] gates shared
      (fun i => .start .start (source i) .empty) hconfig hvalid hnodup hdraws hsettled
      (List.Subset.refl _) hcomputes fun i => ⟨⟨rfl, rfl, rfl⟩, rfl, fun _ => rfl, rfl, rfl, rfl⟩
  have hstart := @Progress.start _ _ table exchanges false (fun i => .ok (summary i)) final
    (fun _ _ => True) (fun _ _ => True) _ _
    (fun i => (List.append_nil (conversation (table.party i) exchanges)).symm ▸ (hends i).1)
    fun i => Program.stays_of_forall (fun _ => trivial) fun _ _ => trivial
  obtain ⟨system, moves, hhistory, hreach, hstuck⟩ := System.History.refl.exists_stuck .refl
  obtain ⟨_, hprogress⟩ := hstart.reachable hreach
  exact ⟨system, moves, hhistory, fun i =>
    ⟨_, _, hprogress.ended_of_stuck (fun i => hstuck i) i⟩⟩

/-- Whatever the parties evaluate, in whatever order they move, and whosever network is taken away: if
all return, then all have opened the same values in batches of the same numbers, and have run checks
at the same places among them, over the same numbers of records. -/
theorem evaluations_agree
    (hhistory : System.History (evaluations table config gates source) system moves)
    (hreturned : ∀ i : Fin table.parties, ∃ summary final,
      system.actors[(i : PartyId)]? = some ⟨.pure summary, final⟩) (i j : Fin table.parties) :
    (Chronicle.ofMoves (moves i)).entries = (Chronicle.ofMoves (moves j)).entries := by
  have hkept := evaluations_kept hhistory
  have hentriesOf : ∀ i : Fin table.parties, ∃ exchanges pending,
      Exchanged (table.party i) exchanges (moves i) ∧
        EntriesOfExchanges (table.party i) exchanges (Chronicle.ofMoves (moves i)).entries pending := by
    intro i
    obtain ⟨summary, final, hfinal⟩ := hreturned i
    have hstart : (evaluations table config gates source).actors[(i : PartyId)]? =
        some ⟨Evaluator.evaluate (.standard (table.party i) (config i)) (gates i),
          .start .start (source i) .empty⟩ := by
      simp [evaluations]
    exact Evaluator.exists_entriesOfExchanges (hkept.path hstart hfinal)
  choose exchanges pending hexchanged hentriesOf using hentriesOf
  have hsame := Table.same_of_exchanged hexchanged fun i j hne => hkept.prefix_of_ne
    (i.isLt.trans_eq length_evaluations.symm) (j.isLt.trans_eq length_evaluations.symm)
    (Fin.val_ne_of_ne hne)
  exact ((hentriesOf i).agree (hentriesOf j) (hsame i j)).1

/-- Two parties with the shares 1 and 2 of a key modulo 7 can both return after they have opened the
value 5 and checked it. -/
theorem evaluations_agree_seven :
    let table : Table :=
      ⟨2, ⟨.ofNat 7, by decide⟩, fun i => .ofNat (i + 1), by decide, by decide⟩
    let deal : Deal := ⟨0, .ofNat 5, fun i => ⟨.ofNat (i + 2), .ofNat i⟩⟩
    ∃ system moves, System.History (evaluations table (fun _ => .standard)
        (fun i => [DealtGate.opening deal].map (DealtGate.gate i)) default) system moves ∧
      (∀ i : Fin 2, ∃ summary final,
        system.actors[(i : PartyId)]? = some ⟨.pure summary, final⟩) ∧
      ∀ i j : Fin 2,
        (Chronicle.ofMoves (moves i)).entries = (Chronicle.ofMoves (moves j)).entries := by
  intro table deal
  have hvalid : deal.Valid table := ⟨by decide, by decide, by decide +kernel⟩
  have hcomputes : DealtGate.StreamComputes table [deal] [] [.opening deal] := by
    intro before gate after hgates i sights _
    simp [List.cons_eq_append_iff] at hgates
    obtain ⟨rfl, rfl, rfl⟩ := hgates
    trivial
  obtain ⟨system, moves, hhistory, hreturned⟩ :=
    @exists_history_returned table default .standard [.opening deal] (by decide)
      (List.forall_mem_singleton.mpr hvalid) (List.nodup_singleton _) hcomputes
        fun _ => Source.draws_default
  exact ⟨system, moves, hhistory, hreturned, evaluations_agree hhistory hreturned⟩

end AuthenticatedMpc
