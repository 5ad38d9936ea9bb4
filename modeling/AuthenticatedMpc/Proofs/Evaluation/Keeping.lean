import AuthenticatedMpc.Proofs.Runs.Contract
import AuthenticatedMpc.Schedule

/-!
# What the hooks of the schedule keep

A hook sets the counters of the controller, and it may check all records of the ledger. What both
keep holds at every moment of a hook; and a hook empties the ledger whenever it has to.
-/

namespace AuthenticatedMpc

/-- The terms for a whole state that shows the part they are about. -/
def Terms.seen {σ ω : Type} (terms : Terms ω) (view : σ → ω) : Terms σ where
  during now s := terms.during now (view s)
  fails := terms.fails
  assumes := terms.assumes

def Terms.free {ω : Type} : Terms ω := ⟨fun _ _ => True, fun _ => True, fun _ => True⟩

namespace Schedule

variable {terms : Terms (Custody Schedule)} {me : Party} {config : Config}
  {inv : List Move → Custody Schedule → Prop} {past : List Move} {custody : Custody Schedule}

/-- What is left of a check once it has begun. -/
def conclude (me : Party) (number : UInt64) : Program (Custody Schedule) Unit := do
  (Verifier.execute me).zoom Custody.verifierPart
  Program.mark (.verified number)

theorem meets_conclude {number : UInt64} {ready : List Move → Custody Schedule → Prop}
    (hduring : ∀ moves program verifier,
      Path ⟨Verifier.execute me, custody.verifier⟩ moves ⟨program, verifier⟩ →
        terms.during (past ++ moves) { custody with verifier })
    (hready : ∀ moves verifier,
      Path ⟨Verifier.execute me, custody.verifier⟩ moves ⟨.pure (), verifier⟩ →
        ready (past ++ moves ++ [Move.inner (some (.verified number))]) { custody with verifier })
    (hready_during : ∀ now custody, ready now custody → terms.during now custody)
    (hfails : ∀ error, terms.fails error) :
    (conclude me number).Meets (terms.contract id fun _ => ready) past custody := by
  have hexecute : ((Verifier.execute me).zoom Custody.verifierPart).Meets
      (terms.contract id fun _ now custody' => ∃ moves verifier, now = past ++ moves ∧
        custody' = { custody with verifier } ∧
          Path ⟨Verifier.execute me, custody.verifier⟩ moves ⟨.pure (), verifier⟩) past custody := by
    refine .zoom ((Program.Meets.of_paths (Verifier.execute me) past custody.verifier).mono ?_ ?_
      (fun _ _ _ _ _ => hfails _) fun _ _ => trivial)
    · rintro _ verifier ⟨moves, program, rfl, hpath⟩
      exact hduring moves program verifier hpath
    · rintro _ _ verifier - ⟨moves, rfl, hpath⟩
      exact ⟨moves, verifier, rfl, rfl, hpath⟩
  refine hexecute.bind_terms ?_
  rintro _ _ _ ⟨moves, verifier, rfl, rfl, hpath⟩
  have hend := hready moves verifier hpath
  exact ⟨hduring moves _ verifier hpath, hready_during _ _ hend, hend⟩

theorem meets_conclude_empty {number : UInt64} (hempty : custody.ledger.records = []) :
    (conclude me number).Meets
      (.ofState (fun _ => True) fun _ custody => custody.ledger.records = []) past custody := by
  have hexecute : ((Verifier.execute me).zoom Custody.verifierPart).Meets
      (.ofState (fun _ => True) fun _ custody => custody.ledger.records = []) past custody :=
    .of_zoom (fun _ => trivial) fun _ _ => hempty
  exact hexecute.bind_state fun _ _ _ hempty => ⟨trivial, trivial, hempty⟩

/-- An invariant that every part of a hook keeps. -/
structure HookInvariant (terms : Terms (Custody Schedule)) (me : Party) (config : Config)
    (inv : List Move → Custody Schedule → Prop) : Prop where
  during : ∀ {now custody}, inv now custody → terms.during now custody
  /-- The counters of the controller do not matter. -/
  control : ∀ {past custody} (gatesSinceCheck : UInt64) (checkPending : Bool), inv past custody →
    inv (past ++ [.inner none])
      { custody with control := { custody.control with gatesSinceCheck, checkPending } }
  check : ∀ {past custody}, inv past custody → custody.ledger.records ≠ [] →
    (conclude me custody.control.checksPerformed).Meets (terms.contract id fun _ => inv)
      (past ++ [.inner (some (.checking custody.control.checksPerformed custody.ledger.records))])
      (beginCheck me config custody)

namespace HookInvariant

theorem silent (h : HookInvariant terms me config inv) (hinv : inv past custody) :
    inv (past ++ [Move.inner none]) custody :=
  h.control custody.control.gatesSinceCheck custody.control.checkPending hinv

theorem meets_verifyLedger (h : HookInvariant terms me config inv) (hinv : inv past custody) :
    (verifyLedger config me).Meets
      (terms.contract id fun _ now custody' => inv now custody' ∧ custody'.ledger.records = []) past
      custody := by
  have hreset : inv (past ++ [Move.inner none]) (reset custody) := h.control 0 false hinv
  have hnow := h.silent hreset
  refine .modify_bind (h.during hinv) (.get_bind (h.during hreset) ?_)
  split
  · next hempty => exact ⟨h.during hnow, hnow, (Ledger.isEmpty_iff _).mp hempty⟩
  · next hne =>
    have hcheck := h.check hnow fun hempty => hne ((Ledger.isEmpty_iff _).mpr hempty)
    refine .record_bind (h.during hnow) ((hcheck.and (meets_conclude_empty rfl)).mono ?_ ?_ ?_ ?_)
    · exact fun _ _ => And.left
    · exact fun _ _ _ _ => id
    · exact fun _ _ _ _ => And.left
    · exact fun _ hassumes => ⟨hassumes, trivial⟩

/-- Before a batch with an output the ledger is emptied, and a check is due after it. -/
theorem meets_beforeBatch (h : HookInvariant terms me config inv) (hinv : inv past custody)
    (reveals : List Bool) :
    (beforeBatch config me reveals).Meets
      (terms.contract id fun _ now custody' => inv now custody' ∧
        (reveals.any id = true → custody'.ledger.records = []) ∧
          custody'.control.checkPending = reveals.any id) past custody := by
  have hpending : ∀ {now custody'}, inv now custody' →
      (reveals.any id = true → custody'.ledger.records = []) →
      (Program.modify (setPending (reveals.any id))).Meets
        (terms.contract id fun _ now custody' => inv now custody' ∧
          (reveals.any id = true → custody'.ledger.records = []) ∧
            custody'.control.checkPending = reveals.any id) now custody' := by
    intro now custody' hnow hempty
    have hset : inv (now ++ [Move.inner none]) (setPending (reveals.any id) custody') :=
      h.control custody'.control.gatesSinceCheck (reveals.any id) hnow
    exact ⟨h.during hnow, h.during hset, hset, hempty, rfl⟩
  refine .get_bind (h.during hinv) ?_
  split
  · refine (h.meets_verifyLedger (h.silent hinv)).bind_terms ?_
    rintro _ now custody' ⟨hnow, hempty⟩
    exact hpending hnow fun _ => hempty
  · next hskip =>
    refine hpending (h.silent hinv) fun hreveals => ?_
    exact absurd (by rw [hreveals, Bool.true_or]) hskip

/-- After a batch a check that is due empties the ledger. -/
theorem meets_afterBatch (h : HookInvariant terms me config inv) (hinv : inv past custody)
    (count : Nat) :
    (afterBatch config me count).Meets
      (terms.contract id fun _ now custody' => inv now custody' ∧
        (custody.control.checkPending = true → custody'.ledger.records = [])) past custody := by
  have hcount : inv (past ++ [Move.inner none]) (countGates count custody) :=
    h.control _ custody.control.checkPending hinv
  have hnow := h.silent hcount
  refine .modify_bind (h.during hinv) (.get_bind (h.during hcount) ?_)
  split
  · refine (h.meets_verifyLedger hnow).mono_terms ?_
    exact fun _ _ _ hreturned => ⟨hreturned.1, fun _ => hreturned.2⟩
  · next hskip =>
    refine ⟨h.during hnow, hnow, fun hpending => ?_⟩
    have hrequired : checkRequired (countGates count custody).control.gatesSinceCheck
        config.macCheckThreshold custody.control.checkPending = true := by
      rw [checkRequired, hpending, Bool.true_or]
    exact absurd hrequired hskip

end HookInvariant
end Schedule
end AuthenticatedMpc
