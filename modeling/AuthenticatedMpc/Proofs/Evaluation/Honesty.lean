import AuthenticatedMpc.Proofs.Evaluation.Keeping

/-!
# Controllers that check what they take

A controller is honest if its hooks, when they return, have taken out of the ledger only what was in
a MAC check that has passed. The standard controller is, with any of its hooks left out.
-/

namespace AuthenticatedMpc

variable {S : Type}

/-! ## Checks that have passed -/

/-- The record was in a check that has returned without an error. -/
def Covered (me : Party) (moves : List Move) (record : Record) : Prop :=
  ∃ front number records during back,
    moves = front ++ .inner (some (.checking number records)) :: during ++
      .inner (some (.verified number)) :: back ∧
    record ∈ records ∧
    ∃ (start final : Verifier) (config : Config),
      start.check = MacCheck.start number records me.modulus config ∧
        Path ⟨Verifier.execute me, start⟩ during ⟨.pure (), final⟩

theorem Covered.mono {me : Party} {past now : List Move} {record : Record}
    (h : Covered me past record) (hpast : past <+: now) : Covered me now record := by
  obtain ⟨front, number, records, during, back, rfl, hcheck⟩ := h
  obtain ⟨rest, rfl⟩ := hpast
  exact ⟨front, number, records, during, back ++ rest, by simp, hcheck⟩

/-! ## Honest controllers -/

/-- The calls that an evaluation makes of its controller. -/
inductive Controller.IsHook (controller : Controller S) (me : Party) :
    Program (Custody S) Unit → Prop
  | beforeBatch (reveals : List Bool) : IsHook controller me (controller.beforeBatch me reveals)
  | afterBatch (count : Nat) : IsHook controller me (controller.afterBatch me count)
  | afterEvaluation : IsHook controller me (controller.afterEvaluation me)

/-- What the controller can come to as long as its hooks return; in between the ledger grows. -/
inductive Controller.Reaches (controller : Controller S) (me : Party) (start : Custody S) :
    List Move → Custody S → Prop
  | start : Reaches controller me start [] start
  | hook {past moves : List Move} {custody custody' : Custody S} {hook : Program (Custody S) Unit}
      (before : Reaches controller me start past custody) (h : controller.IsHook me hook)
      (path : Path ⟨hook, custody⟩ moves ⟨.pure (), custody'⟩) :
      Reaches controller me start (past ++ moves) custody'
  | between {past moves : List Move} {custody : Custody S} {ledger : Ledger}
      (before : Reaches controller me start past custody)
      (h : custody.ledger.records <+: ledger.records) :
      Reaches controller me start (past ++ moves) { custody with ledger }

/-- A hook that returns has taken out of the ledger only what was in a check that has passed. -/
def Controller.Honest (controller : Controller S) (me : Party) (start : Custody S) : Prop :=
  ∀ past moves custody custody' hook, controller.Reaches me start past custody →
    controller.IsHook me hook → Path ⟨hook, custody⟩ moves ⟨.pure (), custody'⟩ →
    ∀ record ∈ custody.ledger.records,
      record ∈ custody'.ledger.records ∨ Covered me (past ++ moves) record

/-! ## The standard controller -/

namespace Schedule

variable {config : Config} {me : Party} {past : List Move} {custody : Custody Schedule}

/-- A hook that has taken records out has checked them. -/
def checks {α : Type} (me : Party) (custody : Custody Schedule) : Contract (Custody Schedule) α where
  during _ _ := True
  returns _ now custody' := ∀ record ∈ custody.ledger.records,
    record ∈ custody'.ledger.records ∨ Covered me now record
  fails _ _ _ := True

theorem hookInvariant_checked (me : Party) (config : Config) (records : List Record) :
    HookInvariant .free me config fun now custody => ∀ record ∈ records,
      record ∈ custody.ledger.records ∨ Covered me now record where
  during _ := trivial
  control _ _ h record hrecord := (h record hrecord).imp_right (Covered.mono · (List.prefix_append ..))
  check {past custody} h _ := by
    refine meets_conclude (fun _ _ _ _ => trivial) ?_ (fun _ _ _ => trivial) fun _ => trivial
    intro moves verifier hpath record hrecord
    right
    obtain hledger | hcovered := h record hrecord
    · exact ⟨past, custody.control.checksPerformed, custody.ledger.records, moves, [], by simp, hledger,
        (beginCheck me config custody).verifier, verifier, config, rfl, hpath⟩
    · exact hcovered.mono ⟨_, by simp; rfl⟩

/-- The standard controller is honest, whichever of its hooks are in force. -/
theorem honest_restrict (config : Config) (hooks : Hooks) (me : Party) (start : Custody Schedule) :
    ((controller config).restrict hooks).Honest me start := by
  intro past moves custody custody' hook _ hhook hpath
  have hinvariant := hookInvariant_checked me config custody.ledger.records
  have hstart : ∀ record ∈ custody.ledger.records, record ∈ custody.ledger.records ∨
      Covered me past record := fun _ => .inl
  have hmeets : hook.Meets (checks me custody) past custody := by
    have hidle : (pure () : Program (Custody Schedule) Unit).Meets (checks me custody) past custody :=
      ⟨trivial, hstart⟩
    cases hhook <;> dsimp only [Controller.restrict] <;> split
    · exact (hinvariant.meets_beforeBatch hstart _).mono_terms fun _ _ _ => And.left
    · exact hidle
    · exact (hinvariant.meets_afterBatch hstart _).mono_terms fun _ _ _ => And.left
    · exact hidle
    · exact (hinvariant.meets_verifyLedger hstart).mono_terms fun _ _ _ => And.left
    · exact hidle
  exact (hmeets.path hpath fun _ _ => trivial).2

end Schedule

end AuthenticatedMpc
