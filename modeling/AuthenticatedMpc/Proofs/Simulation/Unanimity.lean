import AuthenticatedMpc.Proofs.MacCheck.Joint
import AuthenticatedMpc.Proofs.Simulation.Progress

/-!
# All parties come to the same verdict

When all parties run a check over the mesh, all of them end, in every order of their moves, and all
with the same verdict. What they have recorded, and in how many parts each of them compresses it,
only decides what the verdict is.
-/

namespace AuthenticatedMpc

section Session

variable {table : Table} {number : UInt64} {records : PartyId → List Record}
  {config : Fin table.parties → Config} {source : Fin table.parties → Source}

/-- Before anybody moves in a check that all parties run, each with its records, its sizes of chunks
and slices, and its generator. -/
def checkSession (table : Table) (number : UInt64) (records : PartyId → List Record)
    (config : Fin table.parties → Config) (source : Fin table.parties → Source) :
    System Verifier Unit Mesh where
  actors := List.ofFn fun i =>
    ⟨Verifier.execute (table.party i),
      { Verifier.idle (source i) with
        check := MacCheck.start number (records i) table.modulus (config i) }⟩
  medium := .connect table.parties

/-- In whatever order the parties move in a check, some of them can move until all have ended, and
whoever ends does so with the common combiner and the common verdict. -/
theorem checkSession_unanimous (hne : ∀ i : Fin table.parties, records i ≠ [])
    (hrecords : ∀ i < table.parties, ∀ record ∈ records i, record.Reduced table.modulus)
    (hdraws : ∀ i, ∃ own rest, table.modulus.draw (source i) = some (own, rest)) :
    ∃ combiner, ∀ system,
      System.Reachable Mesh.port (checkSession table number records config source) system →
        (∀ (i : Fin table.parties) actor, system.actors[(i : PartyId)]? = some actor →
          actor.program.hasEnded = true → actor.state.check.combiner = combiner ∧
            actor.program = .ofExcept (table.verdict number records combiner)) ∧
        ((∀ i : Fin table.parties, system.moveAt? Mesh.port i = none) →
          ∀ i : Fin table.parties, ∃ actor, system.actors[(i : PartyId)]? = some actor ∧
            actor.program.hasEnded = true) := by
  obtain ⟨combiner, exchanges, final, -, h⟩ := @exists_ends_execute table number records config
    (fun i => { Verifier.idle (source i) with
      check := MacCheck.start number (records i) table.modulus (config i) })
    hne hrecords (fun _ => rfl) hdraws
  have hstart := @Progress.start _ _ table exchanges false
    (fun _ => table.verdict number records combiner) final (fun _ _ => True) (fun _ _ => True)
    (fun i => Verifier.execute (table.party i)) _
    (fun i => (List.append_nil (conversation (table.party i) exchanges)).symm ▸ (h i).1)
    fun i => Program.stays_of_forall (fun _ => trivial) fun _ _ => trivial
  refine ⟨combiner, fun system hreach => ?_⟩
  obtain ⟨rest, hprogress⟩ := hstart.reachable hreach
  refine ⟨fun i actor hactor hended => ?_, fun hstuck i => ⟨_, hprogress.ended_of_stuck hstuck i, ?_⟩⟩
  · obtain ⟨_, hactor', hends, -⟩ := hprogress.actor i
    cases hactor.symm.trans hactor'
    obtain ⟨hprogram, hstate⟩ := hends.eq_of_hasEnded hended
    exact ⟨hstate ▸ (h i).2.1, hprogram⟩
  · cases table.verdict number records combiner <;> rfl

/-- Two parties with the key shares 1 and 2 modulo 7, one with three records and slices of one gate,
the other with a single record. -/
theorem checkSession_unanimous_seven :
    let table : Table :=
      ⟨2, ⟨.ofNat 7, by decide⟩, fun i => .ofNat (i + 1), by decide, by decide⟩
    let records : PartyId → List Record := fun i =>
      if i = 0 then [⟨.ofNat 3, .ofNat 6⟩, ⟨.zero, .ofNat 5⟩, ⟨.ofNat 4, .one⟩]
      else [⟨.ofNat 2, .ofNat 2⟩]
    let config : Fin table.parties → Config := fun i =>
      { Config.standard with macCheckBatchSize := 1, accumulateChunkSize := i.val.toUInt64 }
    let source : Fin table.parties → Source := fun _ => .ofWords #[2, 0]
    (∀ i : Fin table.parties, records i ≠ []) ∧
      (∀ i < table.parties, ∀ record ∈ records i, record.Reduced table.modulus) ∧
      ∃ combiner, ∀ system,
        System.Reachable Mesh.port (checkSession table 5 records config source) system →
          (∀ (i : Fin table.parties) actor, system.actors[(i : PartyId)]? = some actor →
            actor.program.hasEnded = true → actor.state.check.combiner = combiner ∧
              actor.program = .ofExcept (table.verdict 5 records combiner)) ∧
          ((∀ i : Fin table.parties, system.moveAt? Mesh.port i = none) →
            ∀ i : Fin table.parties, ∃ actor, system.actors[(i : PartyId)]? = some actor ∧
              actor.program.hasEnded = true) := by
  intro table records config source
  have hne : ∀ i : Fin table.parties, records i ≠ [] := by decide
  have hrecords : ∀ i < table.parties, ∀ record ∈ records i, record.Reduced table.modulus := by
    intro i hi
    obtain rfl | rfl : i = 0 ∨ i = 1 := by
      have hlt : i < 2 := hi
      omega
    · exact List.forall_mem_cons.mpr ⟨⟨by decide, by decide⟩, List.forall_mem_cons.mpr
        ⟨⟨by decide, by decide⟩, List.forall_mem_singleton.mpr ⟨by decide, by decide⟩⟩⟩
    · exact List.forall_mem_singleton.mpr ⟨by decide, by decide⟩
  exact ⟨hne, hrecords, checkSession_unanimous hne hrecords fun _ =>
    ⟨_, _, Modulus.draw_of_lt (show table.modulus.masked 2 0 < table.modulus.value by decide)⟩⟩

end Session
end AuthenticatedMpc
