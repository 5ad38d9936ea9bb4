import AuthenticatedMpc.Proofs.MacCheck.Honest
import AuthenticatedMpc.Schedule

/-!
# Hooks that all parties run

The parties decide from what they have in common whether to check, so they check at the same
moments; and an honest check leaves all ledgers empty.
-/

namespace AuthenticatedMpc

variable {table : Table} {control : Schedule} {pending : List Deal}
  {word : Fin table.parties → Nat → UInt64} {custody : Fin table.parties → Custody Schedule}

/-- The custody of a party with the given controller state and the records of the given deals. -/
structure Custody.Holds (control : Schedule) (pending : List Deal) (word : Nat → UInt64)
    (i : PartyId) (custody : Custody Schedule) : Prop where
  control_eq : custody.control = control
  records_eq : custody.ledger.records = pending.map (Deal.record · i)
  word_eq : custody.verifier.generator.word = word

theorem Custody.Holds.reset {word : Nat → UInt64} {i : PartyId} {custody : Custody Schedule}
    (h : custody.Holds control pending word i) :
    (Schedule.reset custody).Holds { control with gatesSinceCheck := 0, checkPending := false }
      pending word i :=
  ⟨by rw [Schedule.reset, h.control_eq], h.records_eq, h.word_eq⟩

theorem Custody.Holds.setPending {word : Nat → UInt64} {i : PartyId} {custody : Custody Schedule}
    (h : custody.Holds control pending word i) (isPending : Bool) :
    (Schedule.setPending isPending custody).Holds { control with checkPending := isPending }
      pending word i :=
  ⟨by rw [Schedule.setPending, h.control_eq], h.records_eq, h.word_eq⟩

theorem Custody.Holds.countGates {word : Nat → UInt64} {i : PartyId} {custody : Custody Schedule}
    (h : custody.Holds control pending word i) (count : Nat) :
    (Schedule.countGates count custody).Holds
      { control with gatesSinceCheck := control.gatesSinceCheck + count.toUInt64 } pending word i :=
  ⟨by rw [Schedule.countGates, h.control_eq], h.records_eq, h.word_eq⟩

/-- All parties check the same deals, and then their ledgers are empty. -/
theorem together_check (config : Config) (hne : pending ≠ [])
    (hvalid : ∀ deal ∈ pending, deal.Valid table) (hdraws : ∀ i, Source.Draws table.modulus (word i))
    (h : ∀ i, (custody i).Holds control pending (word i) i) :
    Together table (fun i => (Verifier.execute (table.party i)).zoom Custody.verifierPart)
      (fun i => Schedule.beginCheck (table.party i) config (custody i))
      fun i _ after =>
        after.Holds { control with checksPerformed := control.checksPerformed + 1 } [] (word i) i := by
  have hexecute := @Together.execute table pending control.checksPerformed config
    (fun i => (Schedule.beginCheck (table.party i) config (custody i)).verifier) hne hvalid
    (fun i => by rw [← (h i).records_eq, ← (h i).control_eq]; rfl)
    fun i => show Source.Draws _ (custody i).verifier.generator.word by
      rw [(h i).word_eq]
      exact hdraws i
  exact .zoom (hexecute.mono fun i _ final hword => ⟨by rw [← (h i).control_eq]; rfl, rfl,
    hword.trans (h i).word_eq⟩)

theorem exists_together_verifyLedger (config : Config) (hvalid : ∀ deal ∈ pending, deal.Valid table)
    (hdraws : ∀ i, Source.Draws table.modulus (word i))
    (h : ∀ i, (custody i).Holds control pending (word i) i) :
    ∃ control', Together table (fun i => Schedule.verifyLedger config (table.party i)) custody
      fun i _ after => after.Holds control' [] (word i) i := by
  by_cases hpending : pending = []
  · subst hpending
    refine ⟨_, .of_silent fun i => ⟨(), Schedule.reset (custody i), ?_, (h i).reset⟩⟩
    have hempty : (Schedule.reset (custody i)).ledger.isEmpty = true :=
      (Ledger.isEmpty_iff _).mpr (h i).records_eq
    rw [Schedule.verifyLedger, Program.ends_modify_bind, Program.ends_get_bind, if_pos hempty]
    exact ⟨rfl, rfl, rfl⟩
  · have hcheck := together_check config hpending hvalid hdraws fun i => (h i).reset
    refine ⟨_, (hcheck.bind (k := fun _ _ => Program.mark (.verified control.checksPerformed))
      fun _ after hafter => .of_silent fun i => ⟨(), after i, ⟨rfl, rfl, rfl⟩, hafter i⟩).of_ends
        fun i talk _ final hends => ?_⟩
    have hempty : ¬(Schedule.reset (custody i)).ledger.isEmpty = true := by
      rw [Ledger.isEmpty_iff, (h i).reset.records_eq, List.map_eq_nil_iff]
      exact hpending
    rw [Schedule.verifyLedger, Program.ends_modify_bind, Program.ends_get_bind, if_neg hempty,
      Program.ends_record_bind, (h i).reset.control_eq]
    exact hends

theorem exists_together_beforeBatch (config : Config) (hvalid : ∀ deal ∈ pending, deal.Valid table)
    (hdraws : ∀ i, Source.Draws table.modulus (word i))
    (h : ∀ i, (custody i).Holds control pending (word i) i) (reveals : List Bool) :
    ∃ control' pending', (pending' = pending ∨ pending' = []) ∧
      Together table (fun i => Schedule.beforeBatch config (table.party i) reveals) custody
        fun i _ after => after.Holds control' pending' (word i) i := by
  by_cases hcheck : (reveals.any id || control.checkPending) = true
  · obtain ⟨control', hverify⟩ := exists_together_verifyLedger config hvalid hdraws h
    refine ⟨_, [], .inr rfl, (hverify.bind
      (k := fun _ _ => Program.modify (Schedule.setPending (reveals.any id)))
      fun _ after hafter => .of_silent fun i =>
        ⟨(), _, ⟨rfl, rfl, rfl⟩, (hafter i).setPending (reveals.any id)⟩).of_ends
          fun i talk _ final hends => ?_⟩
    rw [← (h i).control_eq] at hcheck
    rw [Schedule.beforeBatch, Program.ends_get_bind]
    exact (if_pos hcheck).symm ▸ hends
  · refine ⟨_, pending, .inl rfl, .of_silent fun i => ⟨(), _, ?_, (h i).setPending (reveals.any id)⟩⟩
    rw [← (h i).control_eq] at hcheck
    rw [Schedule.beforeBatch, Program.ends_get_bind]
    exact (if_neg hcheck).symm ▸ ⟨rfl, rfl, rfl⟩

theorem exists_together_afterBatch (config : Config) (hvalid : ∀ deal ∈ pending, deal.Valid table)
    (hdraws : ∀ i, Source.Draws table.modulus (word i))
    (h : ∀ i, (custody i).Holds control pending (word i) i) (count : Nat) :
    ∃ control' pending', (pending' = pending ∨ pending' = []) ∧
      Together table (fun i => Schedule.afterBatch config (table.party i) count) custody
        fun i _ after => after.Holds control' pending' (word i) i := by
  have hcount := fun i => (h i).countGates count
  let counted : Schedule :=
    { control with gatesSinceCheck := control.gatesSinceCheck + count.toUInt64 }
  by_cases hcheck : Schedule.checkRequired counted.gatesSinceCheck config.macCheckThreshold
      counted.checkPending = true
  · obtain ⟨control', hverify⟩ :=
      exists_together_verifyLedger config hvalid hdraws hcount
    refine ⟨control', [], .inr rfl, hverify.of_ends fun i talk _ final hends => ?_⟩
    rw [Schedule.afterBatch, Program.ends_modify_bind, Program.ends_get_bind, if_pos]
    · exact hends
    · rw [(hcount i).control_eq]
      exact hcheck
  · refine ⟨counted, pending, .inl rfl, .of_silent fun i => ⟨(), _, ?_, hcount i⟩⟩
    rw [Schedule.afterBatch, Program.ends_modify_bind, Program.ends_get_bind, if_neg]
    · exact ⟨rfl, rfl, rfl⟩
    · rw [(hcount i).control_eq]
      exact hcheck

end AuthenticatedMpc
