import AuthenticatedMpc.Proofs.Evaluation.Forecast

/-!
# What the peers learn of the keys

Two runs of a party that differ in its key share and in its MAC shares can be told apart by the check
values alone: under the veil they have the same acts, as far as the packets of the peers let them come.
-/

namespace AuthenticatedMpc

/-! ## Packets taken -/

def Act.isTake : Act → Bool
  | send _ _ => false
  | take _ => true

def takenIn (moves : List Move) : Nat := (actsOf moves).countP Act.isTake

theorem countP_isTake_veilAfter (past acts : List Act) :
    (veilAfter past acts).countP Act.isTake = acts.countP Act.isTake := by
  induction acts generalizing past with
  | nil => rfl
  | cons act acts ih =>
    have hact : (act.veil past).isTake = act.isTake := by
      match act with
      | .take _ | .send _ ⟨.circuit _, _⟩ | .send _ ⟨.macCheck _, _⟩ => rfl
    rw [veilAfter, List.countP_cons, List.countP_cons, ih, hact]

theorem countP_isTake_veil (moves : List Move) : (veil (actsOf moves)).countP Act.isTake = takenIn moves :=
  countP_isTake_veilAfter [] _

/-! ## Two runs -/

def Actor.Waits {σ α : Type} (actor : Actor σ α) : Prop := ∃ peer next, actor.program = .receive peer next

/-- Calls that have all returned, and none with an error. -/
def Actor.Succeeded (actor : Actor (Player Schedule CircuitGate Board) Unit) : Prop :=
  actor.program = .pure () ∧ ∀ error, actor.state.outcome ≠ some (.error error)

section TwoRuns

variable {me : Party} {config : Config} {source : Source} {calls calls' : List (List CircuitGate)}
  {moves moves' : List Move} {actor actor' : Actor (Player Schedule CircuitGate Board) Unit}

/-- While a party waits it has done all that the script has before one more packet is taken. -/
theorem Player.prefix_veil_acts_of_waits
    (hpath : Path ⟨playCalls (.standard me config) calls, { evaluator := .start .start source .empty }⟩
      moves actor) (hwaits : actor.Waits) {acts : List Act}
    (hacts : acts <+:
      Forecast.script me.peers me.modulus config source (calls.map (List.map CircuitGate.view)))
    (htaken : acts.countP Act.isTake ≤ takenIn moves) : acts <+: veil (actsOf moves) := by
  obtain ⟨_, player⟩ := actor
  obtain ⟨peer, next, rfl⟩ := hwaits
  -- Any packet will do.
  have hnext := hpath.trans (.head (.receive peer next player (.ok ⟨.circuit 0, []⟩)) (.refl _))
  have hscript := (veil_acts hnext).1
  have hsnoc : veil (actsOf (moves ++ [.received peer (.ok ⟨.circuit 0, []⟩)])) =
      veil (actsOf moves) ++ [.take peer] := by
    rw [actsOf_received, veil_append]
    rfl
  have hcount : (veil (actsOf moves) ++ [Act.take peer]).countP Act.isTake = takenIn moves + 1 := by
    rw [List.countP_append, countP_isTake_veil]
    rfl
  rw [hsnoc] at hscript
  obtain hless | hmore := List.prefix_or_prefix_of_prefix hacts hscript
  · obtain rfl | hwithin := List.prefix_concat_iff.mp hless
    · omega
    · exact hwithin
  · have hle : takenIn moves + 1 ≤ acts.countP Act.isTake := hcount ▸ hmore.sublist.countP_le
    omega

/-- Two runs of calls by a party, which agree in the configuration, the generator, the kinds of the gates
and the shares of the values that they open. The key shares and the MAC shares may differ, and so may all
that the transports reply. At any two moments the acts of one run under the veil begin with those of the
other. They are the same whenever both parties wait for a packet and have taken as many before it, and
they are the same when all calls have returned and none with an error. -/
theorem Player.keys_concealed {keyShare : Element} (hkey : keyShare < me.modulus.value)
    (hviews : calls.map (List.map CircuitGate.view) = calls'.map (List.map CircuitGate.view))
    (hpath : Path ⟨playCalls (.standard me config) calls, { evaluator := .start .start source .empty }⟩
      moves actor)
    (hpath' : Path
      ⟨playCalls (.standard { me with keyShare := keyShare, keyShare_lt := hkey } config) calls',
        { evaluator := .start .start source .empty }⟩ moves' actor') :
    (veil (actsOf moves) <+: veil (actsOf moves') ∨ veil (actsOf moves') <+: veil (actsOf moves)) ∧
      (actor.Waits → actor'.Waits → takenIn moves = takenIn moves' →
        veil (actsOf moves) = veil (actsOf moves')) ∧
      (actor.Succeeded → actor'.Succeeded → veil (actsOf moves) = veil (actsOf moves')) := by
  obtain ⟨hacts, hend⟩ := veil_acts hpath
  obtain ⟨hacts', hend'⟩ := veil_acts hpath'
  -- The script is computed from what the runs agree in, so it is one script for both.
  refine ⟨?_, ?_, ?_⟩
  · exact List.prefix_or_prefix_of_prefix hacts (hviews ▸ hacts')
  · intro hwaits hwaits' htaken
    have hfront := prefix_veil_acts_of_waits hpath' hwaits' (hviews ▸ hacts)
      (by rw [countP_isTake_veil, htaken])
    have hback := prefix_veil_acts_of_waits hpath hwaits (hviews ▸ hacts')
      (by rw [countP_isTake_veil, htaken])
    exact hfront.eq_of_length_le hback.length_le
  · rintro ⟨hprogram, hok⟩ ⟨hprogram', hok'⟩
    rw [hend hprogram hok, hend' hprogram' hok', hviews]
    rfl

/-- Two parties open the value 5 modulo 7 under the key 3, and under the key 5: what the first of them
does is the same but for the check values. -/
theorem Player.keys_concealed_seven :
    let table : Table :=
      ⟨2, ⟨.ofNat 7, by decide⟩, fun i => .ofNat (i + 1), by decide, by decide⟩
    let table' : Table :=
      ⟨2, ⟨.ofNat 7, by decide⟩, fun i => .ofNat (i + 2), by decide, by decide⟩
    let deal : Deal := ⟨0, .ofNat 5, fun i => ⟨.ofNat (i + 2), .ofNat i⟩⟩
    let deal' : Deal := ⟨0, .ofNat 5, fun i => ⟨.ofNat (i + 2), .ofNat 2⟩⟩
    let calls (deal : Deal) : List (List CircuitGate) := [[.output (deal.opening 0 false)]]
    ∃ moves moves' actor actor', Path ⟨playCalls (.standard (table.party 0) .standard) (calls deal),
        { evaluator := .start .start default .empty }⟩ moves actor ∧
      Path ⟨playCalls (.standard (table'.party 0) .standard) (calls deal'),
        { evaluator := .start .start default .empty }⟩ moves' actor' ∧
      actor.Succeeded ∧ actor'.Succeeded ∧ (table.party 0).keyShare ≠ (table'.party 0).keyShare ∧
      veil (actsOf moves) = veil (actsOf moves') := by
  intro table table' deal deal' calls
  have hvalid : deal.Valid table := ⟨by decide, by decide, by decide +kernel⟩
  have hvalid' : deal'.Valid table' := ⟨by decide, by decide, by decide +kernel⟩
  have hconfig : Config.standard.validate = .ok () := by decide
  obtain ⟨moves, final, _, hpath, houtcome⟩ := exists_path_output hconfig hvalid Source.draws_default 0
  obtain ⟨moves', final', _, hpath', houtcome'⟩ := exists_path_output hconfig hvalid' Source.draws_default 0
  have hsucceeded : Actor.Succeeded ⟨.pure (), final⟩ := ⟨rfl, by simp [houtcome]⟩
  have hsucceeded' : Actor.Succeeded ⟨.pure (), final'⟩ := ⟨rfl, by simp [houtcome']⟩
  have hkey : (table'.party 0).keyShare < (table.party 0).modulus.value := by decide
  have hviews : (calls deal).map (List.map CircuitGate.view) = (calls deal').map (List.map CircuitGate.view) :=
    rfl
  obtain ⟨-, -, hsame⟩ := keys_concealed hkey hviews hpath hpath'
  exact ⟨moves, moves', _, _, hpath, hpath', hsucceeded, hsucceeded', by decide,
    hsame hsucceeded hsucceeded'⟩

end TwoRuns
end AuthenticatedMpc
