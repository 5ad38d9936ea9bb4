import AuthenticatedMpc.Proofs.Evaluation.Honesty
import AuthenticatedMpc.Proofs.MacCheck.Vigilance
import AuthenticatedMpc.Proofs.Runs.Tally

/-!
# Auditing the checks of a party

The records of all checks so far and those of the ledger are what the party has opened, each of them
once and in its order. The hooks of the standard controller keep this account, moment by moment, and
they begin a check only when all checks before it have passed.
-/

namespace AuthenticatedMpc

variable {me : Party} {config : Config} {past now : List Move} {records : List Record}

/-- The check of the given place has returned without an error. -/
def Passed (me : Party) (config : Config) (moves : List Move) (k : Nat) : Prop :=
  ∃ front number records during back,
    moves = front ++ .inner (some (.checking number records)) :: during ++
      .inner (some (.verified number)) :: back ∧
    (checksIn front).length = k ∧
    ∃ start final : Verifier, start.check = MacCheck.start number records me.modulus config ∧
      Path ⟨Verifier.execute me, start⟩ during ⟨.pure (), final⟩

theorem Passed.mono {k : Nat} (h : Passed me config past k) (hpast : past <+: now) :
    Passed me config now k := by
  obtain ⟨front, number, records, during, back, rfl, hcheck⟩ := h
  obtain ⟨rest, rfl⟩ := hpast
  exact ⟨front, number, records, during, back ++ rest, by simp, hcheck⟩

theorem Passed.covered {k : Nat} {check : UInt64 × List Record} {record : Record}
    (h : Passed me config now k) (hcheck : (checksIn now)[k]? = some check)
    (hrecord : record ∈ check.2) : Covered me now record := by
  obtain ⟨front, number, records, during, back, rfl, rfl, start, final, hstart, hpath⟩ := h
  have hthis : (checksIn (front ++ Move.inner (some (.checking number records)) :: during ++
      .inner (some (.verified number)) :: back))[(checksIn front).length]? =
        some (number, records) := by
    rw [checksIn_append, checksIn_append, List.append_assoc,
      List.getElem?_append_right (Nat.le_refl _), Nat.sub_self]
    rfl
  rw [hthis] at hcheck
  cases hcheck
  exact ⟨front, number, records, during, back, rfl, hrecord, start, final, config, hstart, hpath⟩

theorem covered_of_forall_passed (hpassed : ∀ k < (checksIn now).length, Passed me config now k)
    {record : Record} (hrecord : record ∈ (checksIn now).flatMap Prod.snd) : Covered me now record := by
  obtain ⟨check, hcheck, hrecord⟩ := List.mem_flatMap.mp hrecord
  obtain ⟨k, hk⟩ := List.mem_iff_getElem?.mp hcheck
  obtain ⟨hlt, -⟩ := List.getElem?_eq_some_iff.mp hk
  exact (hpassed k hlt).covered hk hrecord

/-- At every moment the records of all checks, in the order of their numbers, and those of the ledger
are what was opened; all checks but perhaps the last one have passed. -/
structure Balanced (me : Party) (config : Config) (now : List Move) (records : List Record) : Prop where
  balance : (checksIn now).flatMap Prod.snd ++ records = openedIn now
  numbers : (checksIn now).map Prod.fst = (List.range (checksIn now).length).map Nat.toUInt64
  passed : ∀ k, k + 1 < (checksIn now).length → Passed me config now k

theorem Balanced.still (h : Balanced me config past records) (hstill : Still past now) :
    Balanced me config now records where
  balance := by rw [hstill.checks_eq, hstill.opened_eq, h.balance]
  numbers := by rw [hstill.checks_eq, h.numbers]
  passed k hk := (h.passed k (by rwa [← hstill.checks_eq])).mono hstill.le

/-- Everything opened was in a check that has passed, if all checks have and the ledger is empty. -/
theorem Balanced.covered (h : Balanced me config now [])
    (hpassed : ∀ k < (checksIn now).length, Passed me config now k) {record : Record}
    (hrecord : record ∈ openedIn now) : Covered me now record := by
  rw [← h.balance, List.append_nil] at hrecord
  exact covered_of_forall_passed hpassed hrecord

/-- Between checks all of them have passed, and the next number is known. -/
structure Account (me : Party) (config : Config) (now : List Move) (custody : Custody Schedule) :
    Prop where
  balance : (checksIn now).flatMap Prod.snd ++ custody.ledger.records = openedIn now
  numbers : (checksIn now).map Prod.fst = (List.range (checksIn now).length).map Nat.toUInt64
  passed : ∀ k < (checksIn now).length, Passed me config now k
  performed : custody.control.checksPerformed = (checksIn now).length.toUInt64

namespace Account

variable {custody custody' : Custody Schedule}

theorem balanced (h : Account me config now custody) :
    Balanced me config now custody.ledger.records :=
  ⟨h.balance, h.numbers, fun k hk => h.passed k (Nat.lt_of_succ_lt hk)⟩

theorem still (h : Account me config past custody) (hstill : Still past now) :
    Account me config now custody where
  balance := by rw [hstill.checks_eq, hstill.opened_eq, h.balance]
  numbers := by rw [hstill.checks_eq, h.numbers]
  passed k hk := (h.passed k (by rwa [← hstill.checks_eq])).mono hstill.le
  performed := by rw [hstill.checks_eq, h.performed]

theorem silent (h : Account me config past custody) :
    Account me config (past ++ [Move.inner none]) custody :=
  h.still (Still.refl past).silent

theorem checking (h : Account me config past custody) :
    Balanced me config
      (past ++
        [Move.inner (some (.checking custody.control.checksPerformed custody.ledger.records))])
      [] where
  balance := by
    rw [checksIn_checking, openedIn_checking, List.flatMap_append, List.flatMap_singleton,
      List.append_nil, h.balance]
  numbers := by
    rw [checksIn_checking, List.map_append, h.numbers, List.length_append, List.length_singleton,
      List.range_succ, List.map_append, h.performed]
    rfl
  passed k hk := by
    rw [checksIn_checking, List.length_append, List.length_singleton] at hk
    exact (h.passed k (Nat.lt_of_succ_lt_succ hk)).mono (List.prefix_append ..)

end Account

/-! ## Hooks -/

/-- While a hook runs, nothing is opened. -/
structure BalancedSince (me : Party) (config : Config) (past now : List Move)
    (custody : Custody Schedule) :
    Prop where
  balanced : Balanced me config now custody.ledger.records
  opened_eq : openedIn now = openedIn past

def Terms.balancedSince (me : Party) (config : Config) (past : List Move) : Terms
    (Custody Schedule) where
  during := BalancedSince me config past
  fails _ := True
  assumes _ := True

theorem Account.hookInvariant (me : Party) (config : Config) (front : List Move) :
    Schedule.HookInvariant (.balancedSince me config front) me config fun now custody =>
      Account me config now custody ∧ openedIn now = openedIn front where
  during h := ⟨h.1.balanced, h.2⟩
  control _ _ h :=
    ⟨{ h.1.silent with performed := h.1.silent.performed },
      (Still.refl _).silent.opened_eq.trans h.2⟩
  check {past custody} := by
    rintro ⟨haccount, hopened⟩ -
    let number := custody.control.checksPerformed
    let begun := Schedule.beginCheck me config custody
    let checking := past ++ [Move.inner (some (.checking number custody.ledger.records))]
    have hbegun : openedIn checking = openedIn front := by rw [openedIn_checking, hopened]
    have hvigilant : (Verifier.execute me).Vigilant Event.IsEvaluating :=
      Verifier.vigilant_execute fun phase place round => ⟨phase, place, round, rfl⟩
    refine Schedule.meets_conclude ?_ ?_ (fun _ _ h => ⟨h.1.balanced, h.2⟩) fun _ => trivial
    · intro during program verifier hpath
      have hstill := hvigilant.still hpath checking
      exact ⟨haccount.checking.still hstill, hstill.opened_eq.trans hbegun⟩
    · intro during verifier hpath
      let verified := checking ++ during ++ [Move.inner (some (.verified number))]
      have hstill : Still checking verified := (hvigilant.still hpath checking).snoc rfl rfl
      have hend := haccount.checking.still hstill
      have hchecks : checksIn verified = checksIn past ++ [(number, custody.ledger.records)] := by
        rw [hstill.checks_eq, checksIn_checking]
      have hpassed : ∀ k < (checksIn verified).length, Passed me config verified k := by
        intro k hk
        rw [hchecks, List.length_append, List.length_singleton] at hk
        rcases Nat.lt_succ_iff_lt_or_eq.mp hk with hlt | rfl
        · have hpast : past <+: verified := ⟨_, by simp [verified, checking]; rfl⟩
          exact (haccount.passed k hlt).mono hpast
        · exact ⟨past, number, custody.ledger.records, during, [], by simp [verified, checking], rfl,
            begun.verifier, verifier, rfl, hpath⟩
      have hperformed : begun.control.checksPerformed = (checksIn verified).length.toUInt64 := by
        rw [hchecks, List.length_append, List.length_singleton]
        change custody.control.checksPerformed + 1 = _
        rw [haccount.performed]
        exact (UInt64.ofNat_add _ 1).symm
      exact ⟨⟨hend.balance, hend.numbers, hpassed, hperformed⟩, hstill.opened_eq.trans hbegun⟩

end AuthenticatedMpc
