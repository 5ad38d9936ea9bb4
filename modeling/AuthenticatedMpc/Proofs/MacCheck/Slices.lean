import AuthenticatedMpc.MacCheck.Execution
import AuthenticatedMpc.Proofs.MacCheck.Exchanges
import AuthenticatedMpc.Proofs.MacCheck.Stages
import AuthenticatedMpc.Proofs.Rounds.Batch
import AuthenticatedMpc.Proofs.Rounds.Vigilance

/-!
# The slices of a MAC check

The evaluation of a slice never ends with the verdict that a check has failed. So a run that ends
well or with that verdict has evaluated all its slices, and each of them says what was exchanged.
-/

namespace AuthenticatedMpc

/-- The error of a check whose equation does not hold. -/
def Error.IsVerdict : Error → Prop
  | .macCheckFailed _ => True
  | _ => False

/-- A success or a verdict. -/
def Decided {α : Type} (outcome : Except Error α) : Prop :=
  ∀ error, outcome = .error error → error.IsVerdict

theorem decided_ok {α : Type} (value : α) : Decided (.ok value : Except Error α) := nofun

theorem coversTalk_not_isVerdict : CoversTalk fun error => ¬ error.IsVerdict :=
  ⟨fun _ => id, fun _ => id⟩

section Gates

variable {me : Party} {P : Event → Prop}

theorem CommitGate.vigilant_collect {own : Commitment} (parties : List PartyId) :
    (collect me own parties : Program (Desk Unit) (List Commitment)).Vigilant P
      fun error => ¬ error.IsVerdict := by
  induction parties with
  | nil => trivial
  | cons party rest ih =>
    unfold collect
    split
    · exact ih.bind fun _ => trivial
    · refine (Desk.vigilant_receive coversTalk_not_isVerdict party).bind fun payload => ?_
      refine (Program.Vigilant.ofExcept ?_).bind fun _ => ih.bind fun _ => trivial
      intro error herror
      cases hread : Commitment.ofBytes payload with
      | ok commitment =>
        rw [hread] at herror
        cases herror
      | error reason =>
        rw [hread] at herror
        cases herror
        exact id

theorem DecommitGate.openPeer_error {p : Modulus} {commitments : List Commitment} {peer : PartyId}
    {payload : Payload} {error : Error} (h : openPeer p commitments peer payload = .error error) :
    ¬ error.IsVerdict := by
  unfold openPeer at h
  split at h
  · cases h; exact id
  · split at h
    · cases h; exact id
    · split at h
      · cases h
      · cases h; exact id

/-- A gate of a check notices what it does not expect, and never fails with a verdict. -/
theorem CheckGate.vigilant_evaluate (round : Nat) (gate : CheckGate) :
    (Gate.evaluate me round gate : Program (Desk Unit) _).Vigilant P
      fun error => ¬ error.IsVerdict := by
  cases gate with
  | commit gate =>
    refine Program.Vigilant.bind ?_ fun _ => trivial
    unfold CommitGate.evaluate
    split
    · exact (Desk.vigilant_broadcast _).bind fun _ => trivial
    · exact (CommitGate.vigilant_collect _).bind fun _ => trivial
  | decommit gate =>
    refine Program.Vigilant.bind ?_ fun _ => trivial
    unfold DecommitGate.evaluate
    split
    · exact (Desk.vigilant_broadcast _).bind fun _ => trivial
    · exact (Desk.vigilant_gather coversTalk_not_isVerdict
        (fun _ _ _ => DecommitGate.openPeer_error) _ _).bind fun _ => trivial
  | accumulate gate => trivial

theorem CheckGate.vigilant_process (hP : ∀ phase place round, P (.evaluating phase place round)) :
    (Bench.process me : Program (Bench CheckGate Unit) Nat).Vigilant P
      fun error => ¬ error.IsVerdict :=
  Bench.vigilant_process coversTalk_not_isVerdict hP vigilant_evaluate

end Gates

namespace Verifier

variable {me : Party} {v v' : Verifier} {talk : List Signal} {gates : List CheckGate}
  {check : MacCheck} {source : Source}

def loaded (v : Verifier) (me : Party) (gates : List CheckGate) (check : MacCheck)
    (source : Source) : Verifier :=
  ⟨check, source, v.bench.load gates (.macCheck check.number) me.parties⟩

theorem ends_absorb {o : Except Error Unit} :
    (absorb gates).Ends v talk o v' ↔
      talk = [] ∧ o = (v.check.absorb gates).1 ∧
        v' = { v with check := (v.check.absorb gates).2 } := by
  rw [absorb, Program.ends_get_bind]
  cases v.check.absorb gates
  exact Program.ends_ofExcept

/-- A slice is evaluated as a batch and taken back, unless its evaluation fails. -/
theorem ends_runSlice {o : Except Error Unit}
    (hnext : v.check.nextSlice v.generator = some ((.ok gates, check), source)) :
    (runSlice me).Ends v talk o v' ↔
      (∃ bench rounds, (Bench.process me).Ends (v.loaded me gates check source).bench talk
          (.ok rounds) bench ∧
        o = (check.absorb bench.gates).1 ∧ v' = ⟨(check.absorb bench.gates).2, source, bench⟩) ∨
      ∃ error bench, o = .error error ∧
        (Bench.process me).Ends (v.loaded me gates check source).bench talk (.error error) bench ∧
        v' = ⟨check, source, bench⟩ := by
  have hslice : (nextSlice : Program Verifier _).Ends v [] (.ok gates)
      ⟨check, source, v.bench⟩ := by
    rw [nextSlice, Program.ends_get_bind, hnext]
    exact ⟨rfl, rfl, rfl⟩
  have hload : (load me gates).Ends ⟨check, source, v.bench⟩ [] (.ok ())
      (v.loaded me gates check source) := ⟨rfl, rfl, rfl⟩
  rw [runSlice, hslice.silent_bind_iff, hload.silent_bind_iff, Program.ends_bind]
  simp only [evaluate, Program.ends_zoom, Program.ends_get_bind, ends_absorb]
  constructor
  · rintro (⟨rounds, _, _, _, rfl, ⟨bench, rfl, hprocess⟩, rfl, ho, rfl⟩ |
      ⟨error, rfl, bench, rfl, hprocess⟩)
    · exact .inl ⟨bench, rounds, by rwa [List.append_nil], ho, rfl⟩
    · exact .inr ⟨error, bench, rfl, hprocess, rfl⟩
  · rintro (⟨bench, rounds, hprocess, ho, rfl⟩ | ⟨error, bench, rfl, hprocess, rfl⟩)
    · exact .inl ⟨rounds, _, talk, [], (List.append_nil _).symm, ⟨bench, rfl, hprocess⟩, rfl, ho,
        rfl⟩
    · exact .inr ⟨error, rfl, bench, rfl, hprocess⟩

/-- A slice that ends with a success or a verdict was evaluated and taken back. -/
theorem ends_runSlice_of_decided {o : Except Error Unit} (ho : Decided o)
    (hnext : v.check.nextSlice v.generator = some ((.ok gates, check), source)) :
    (runSlice me).Ends v talk o v' ↔
      ∃ bench rounds, (Bench.process me).Ends (v.loaded me gates check source).bench talk
          (.ok rounds) bench ∧
        o = (check.absorb bench.gates).1 ∧
        v' = ⟨(check.absorb bench.gates).2, source, bench⟩ := by
  rw [ends_runSlice hnext]
  refine or_iff_left ?_
  rintro ⟨error, bench, rfl, hprocess, -⟩
  have hvigilant : (Bench.process me : Program (Bench CheckGate Unit) Nat).Vigilant (fun _ => True)
      fun error => ¬ error.IsVerdict := CheckGate.vigilant_process fun _ _ _ => trivial
  exact hvigilant.of_ends hprocess (ho error rfl)

theorem not_ends_runSlice {o : Except Error Unit}
    (hnext : v.check.nextSlice v.generator = none) : ¬ (runSlice me).Ends v talk o v' := by
  rw [runSlice, nextSlice]
  intro h
  rw [Program.ends_bind] at h
  simp only [Program.ends_get_bind, hnext, Program.ends_never] at h
  simp at h

/-- The verifier after a slice, with the evaluated gates on the bench at the start of a round. -/
def afterSlice (v : Verifier) (me : Party) (check : MacCheck) (source : Source)
    (gates : List CheckGate) : Verifier :=
  ⟨check, source, ⟨gates.map (⟨·, true⟩),
    { v.bench.desk with rounds := .start (.macCheck check.number) me.parties }⟩⟩

theorem absorb_eq_afterSlice {o : Except Error Unit} {next : MacCheck}
    (habsorb : check.absorb gates = (o, next)) (hnumber : next.number = check.number) :
    (⟨(check.absorb gates).2, source, ⟨gates.map (⟨·, true⟩),
      { v.bench.desk with rounds := .start (.macCheck check.number) me.parties }⟩⟩ : Verifier) =
      v.afterSlice me next source gates := by
  rw [habsorb, afterSlice, hnumber]

theorem ends_runSlice_commit {o : Except Error Unit} (ho : Decided o) {commitment : Commitment}
    (hnext : v.check.nextSlice v.generator = some ((.ok [.commit ⟨commitment, []⟩], check), source))
    {after : List Commitment → MacCheck}
    (habsorb : ∀ all ≠ [], check.absorb [.commit ⟨commitment, all⟩] = (.ok (), after all))
    (hnumber : ∀ all, (after all).number = check.number) :
    (runSlice me).Ends v talk o v' ↔
      ∃ others : PartyId → Commitment,
        talk = exchange me ⟨.macCheck check.number, [commitment.digest]⟩
          (fun q => ⟨.macCheck check.number, [(others q).digest]⟩) ∧
        o = .ok () ∧
        v' = v.afterSlice me (after (me.placed commitment others)) source
          [.commit ⟨commitment, me.placed commitment others⟩] := by
  have hback : ∀ others, check.absorb [.commit ⟨commitment, me.placed commitment others⟩] =
      (.ok (), after (me.placed commitment others)) := fun others => habsorb _ Party.placed_ne_nil
  rw [ends_runSlice_of_decided ho hnext]
  constructor
  · rintro ⟨bench, rounds, hprocess, rfl, rfl⟩
    obtain ⟨-, others, rfl, rfl⟩ := CheckGate.ends_process_commit.mp hprocess
    exact ⟨others, rfl, congrArg Prod.fst (hback others),
      absorb_eq_afterSlice (hback others) (hnumber _)⟩
  · rintro ⟨others, rfl, rfl, rfl⟩
    exact ⟨_, 2, CheckGate.ends_process_commit.mpr ⟨rfl, others, rfl, rfl⟩,
      (congrArg Prod.fst (hback others)).symm,
      (absorb_eq_afterSlice (hback others) (hnumber _)).symm⟩

theorem ends_runSlice_decommit {o : Except Error Unit} (ho : Decided o) {own : Element}
    {nonce : Nonce} {commitments : List Commitment}
    (hnext : v.check.nextSlice v.generator =
      some ((.ok [.decommit ⟨own, nonce, commitments, none⟩], check), source))
    {verdict : Element → Except Error Unit} {after : Element → MacCheck}
    (habsorb : ∀ sum, check.absorb [.decommit ⟨own, nonce, commitments, some sum⟩] =
      (verdict sum, after sum))
    (hnumber : ∀ sum, (after sum).number = check.number) :
    (runSlice me).Ends v talk o v' ↔
      ∃ (value : PartyId → Element) (nonces : PartyId → Nonce),
        talk = exchange me ⟨.macCheck check.number, [Commitment.reveal own nonce]⟩
          (fun q => ⟨.macCheck check.number, [Commitment.reveal (value q) (nonces q)]⟩) ∧
        (∀ q ∈ me.peers, value q < me.modulus.value ∧
          commitments[q]? = some (.commit (value q) (nonces q))) ∧
        o = verdict ((me.peers.map value).foldl me.modulus.add own) ∧
        v' = v.afterSlice me (after ((me.peers.map value).foldl me.modulus.add own)) source
          [.decommit ⟨own, nonce, commitments,
            some ((me.peers.map value).foldl me.modulus.add own)⟩] := by
  rw [ends_runSlice_of_decided ho hnext]
  constructor
  · rintro ⟨bench, rounds, hprocess, rfl, rfl⟩
    obtain ⟨-, value, nonces, rfl, hopens, rfl⟩ := CheckGate.ends_process_decommit.mp hprocess
    exact ⟨value, nonces, rfl, hopens, congrArg Prod.fst (habsorb _),
      absorb_eq_afterSlice (habsorb _) (hnumber _)⟩
  · rintro ⟨value, nonces, rfl, hopens, rfl, rfl⟩
    exact ⟨_, 2, CheckGate.ends_process_decommit.mpr ⟨rfl, value, nonces, rfl, hopens, rfl⟩,
      (congrArg Prod.fst (habsorb _)).symm, (absorb_eq_afterSlice (habsorb _) (hnumber _)).symm⟩

/-! ## Compressing -/

theorem pass_accumulate (round : Nat) (desk : Desk Unit) (parts : List AccumulateGate) :
    Pass me round (parts.map fun part => ⟨CheckGate.accumulate part, false⟩) desk []
      (parts.map fun part => ⟨CheckGate.accumulate (part.evaluate me), true⟩) desk := by
  induction parts with
  | nil => exact .nil desk
  | cons part parts ih =>
    have hpart : (Gate.evaluate me round (CheckGate.accumulate part)).Ends desk []
        (.ok (.accumulate (part.evaluate me), .done)) desk := ⟨rfl, rfl, rfl⟩
    exact .evaluate hpart ih

theorem ends_process_accumulate {parts : List AccumulateGate} (hparts : parts ≠ [])
    (desk : Desk Unit) (phase : Phase) (n : Nat) :
    (Bench.process me).Ends
      ⟨parts.map fun part => ⟨CheckGate.accumulate part, false⟩,
        { desk with rounds := .start phase n }⟩ [] (.ok 1)
      ⟨parts.map fun part => ⟨CheckGate.accumulate (part.evaluate me), true⟩,
        { desk with rounds := .start phase n }⟩ := by
  have hship : RoundBuffer.ship.Ends (.start phase n) [] (.ok ()) (.start phase n) := by
    rw [RoundBuffer.start_eq_of]
    exact RoundBuffer.ends_ship_silent.mpr ⟨rfl, fun _ _ => rfl, RoundBuffer.start_eq_of.symm⟩
  have hround : (Bench.runRound me 0).Ends
      ⟨parts.map fun part => ⟨CheckGate.accumulate part, false⟩,
        { desk with rounds := .start phase n }⟩ ([] ++ []) (.ok ())
      ⟨parts.map fun part => ⟨CheckGate.accumulate (part.evaluate me), true⟩,
        { desk with rounds := .start phase n }⟩ :=
    (pass_accumulate 0 { desk with rounds := .start phase n } parts).ends_runRound hship
  rw [Bench.process, show Bench.roundLimit = (2 ^ 64 - 2) + 1 + 1 from rfl,
    Bench.ends_runRounds_succ]
  · refine ⟨_, [], [], rfl, hround, (Bench.ends_runRounds_done ?_).mpr ⟨rfl, rfl, rfl⟩⟩
    simp [Bench.isDone]
  · obtain ⟨part, rest, rfl⟩ := List.exists_cons_of_ne_nil hparts
    rfl

theorem ends_runSlice_accumulate {parts : List AccumulateGate} (hparts : parts ≠ [])
    (hnext : v.check.nextSlice v.generator =
      some ((.ok (parts.map .accumulate), check), source)) {after : MacCheck}
    (habsorb : check.absorb (parts.map fun part => .accumulate (part.evaluate me)) =
      (.ok (), after))
    (hnumber : after.number = check.number) :
    (runSlice me).Ends v [] (.ok ()) (v.afterSlice me after source
      (parts.map fun part => .accumulate (part.evaluate me))) := by
  have hprocess := @ends_process_accumulate me parts hparts v.bench.desk (.macCheck check.number)
    me.parties
  have hloaded : (v.loaded me (parts.map .accumulate) check source).bench =
      ⟨parts.map fun part => ⟨CheckGate.accumulate part, false⟩,
        { v.bench.desk with rounds := .start (.macCheck check.number) me.parties }⟩ := by
    simp [loaded, Bench.load]
  rw [← hloaded] at hprocess
  refine (ends_runSlice hnext).mpr (.inl ⟨_, 1, hprocess, ?_, ?_⟩)
  · simp [Bench.gates, Function.comp_def, habsorb]
  · rw [← absorb_eq_afterSlice habsorb hnumber]
    simp [Bench.gates, Function.comp_def]

end Verifier
end AuthenticatedMpc
