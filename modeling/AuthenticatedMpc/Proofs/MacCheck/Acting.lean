import AuthenticatedMpc.Proofs.MacCheck.Precedence
import AuthenticatedMpc.Proofs.Rounds.Acting

/-!
# The acts of a MAC check

Whatever the transport does, the acts of a check follow the draws of the party: its element and its nonces
make up all of its packets but the check value, of which only the commitment and the first bytes of the
last packet depend. So under the veil, neither the records nor the key share can be told.
-/

namespace AuthenticatedMpc

variable {me : Party} {phase : Phase} {base script : List Act} {front rest : List PartyId}
  {past : List Move} {desk : Desk Unit} {turn : Nat}

/-! ## Gates -/

theorem CommitGate.meets_collect_attending {own : Commitment}
    (hpeers : me.peers = front ++ rest.filter (· != me.id))
    (h : Attending me phase base front past desk.rounds)
    (hscript : base ++ me.peers.map .take <+: script) :
    (collect me own rest).Meets ((Terms.acting script).contract Desk.board fun _ now desk' =>
      Hearing me phase base me.peers now desk'.rounds) past desk := by
  induction rest generalizing front past desk with
  | nil =>
    rw [List.filter_nil, List.append_nil] at hpeers
    rw [← hpeers] at h
    exact ⟨h.acting (List.prefix_refl _) hscript, h.hearing⟩
  | cons party rest ih =>
    have hback : ∀ {front : List PartyId} {first : Commitment} {past : List Move} {desk : Desk Unit},
        me.peers = front ++ rest.filter (· != me.id) → Attending me phase base front past desk.rounds →
        (do let others ← collect me own rest
            pure (first :: others)).Meets ((Terms.acting script).contract Desk.board fun _ now desk' =>
          Hearing me phase base me.peers now desk'.rounds) past desk := by
      intro front first past desk hpeers h
      refine (ih hpeers h).bind_terms ?_
      intro _ now desk' hhearing
      have hattending : Attending me phase base me.peers now desk'.rounds := ⟨_, .inr rfl, hhearing⟩
      exact ⟨hattending.acting (List.prefix_refl _) hscript, hhearing⟩
    rw [collect]
    by_cases hme : party = me.id
    · rw [if_pos hme]
      exact hback (by simpa [hme] using hpeers) h
    · rw [if_neg hme]
      rw [List.filter_cons_of_pos (by simpa using hme)] at hpeers
      have hnext : me.peers = front ++ [party] ++ rest.filter (· != me.id) := by
        rw [hpeers, List.append_assoc, List.singleton_append]
      refine (h.meets_receive_desk hpeers hscript).bind_terms ?_
      intro payload now desk' hreceived
      cases (Commitment.ofBytes payload).mapError Error.encoding with
      | error error => exact ⟨hreceived.acting (prefix_of_eq_append_cons hpeers) hscript, trivial⟩
      | ok commitment => exact hback hnext hreceived

namespace CheckGate

def message? : CheckGate → Option Payload
  | commit gate => some gate.commitment.digest
  | decommit gate => some (Commitment.reveal gate.value gate.nonce)
  | accumulate _ => none

theorem voices (me : Party) : Gate.Voices (W := Unit) me message? where
  silent {gate round script past desk} hmessage hscript := by
    cases gate with
    | commit | decommit => cases hmessage
    | accumulate gate => exact ⟨hscript, rfl, rfl, rfl⟩
  post {gate payload script past desk} hmessage hscript := by
    have hposted : actsOf (past ++ [Move.inner none]) <+: script := by rwa [actsOf_inner]
    cases gate with
    | commit gate | decommit gate =>
      cases hmessage
      exact ⟨hscript, hposted, rfl, rfl, actsOf_inner none, rfl⟩
    | accumulate => cases hmessage
  read {gate payload phase base script past desk} hmessage h hscript := by
    have hdone : ∀ {now} {desk' : Desk Unit}, Hearing me phase base me.peers now desk'.rounds →
        actsOf now <+: script := by
      intro now desk' hhearing
      rwa [hhearing.acts]
    cases gate with
    | commit gate =>
      rw [evaluate_commit, CommitGate.evaluate, if_neg Nat.one_ne_zero, bind_assoc]
      refine (CommitGate.meets_collect_attending rfl h hscript).bind_terms ?_
      intro _ now desk' hhearing
      exact ⟨hdone hhearing, rfl, hhearing⟩
    | decommit gate =>
      rw [evaluate_decommit, DecommitGate.evaluate, if_neg Nat.one_ne_zero, bind_assoc]
      refine (h.meets_gather hscript).bind_terms ?_
      intro _ now desk' hhearing
      exact ⟨hdone hhearing, rfl, hhearing⟩
    | accumulate => cases hmessage

end CheckGate

/-! ## Slices -/

namespace Verifier

variable {v : Verifier} {gates : List CheckGate} {gate : CheckGate} {payload : Payload} {handed : MacCheck}
  {source : Source} {Q : Verifier → Prop}

/-- The acts of a slice are those of its messages. When it has been taken back, it has ended. -/
theorem meets_runSlice_reciting
    (htaken : v.check.nextSlice v.generator = some ((.ok gates, handed), source))
    (hscript : veil (actsOf past ++
      utterance me.peers ⟨.macCheck handed.number, gates.filterMap CheckGate.message?⟩) <+: script) :
    (runSlice me).Meets (.reciting script fun _ now v' => ∃ talk, talkOf now = talkOf past ++ talk ∧
      (runSlice me).Ends v talk (.ok ()) v') past v := by
  -- A slice is read from the check, handed out and laid on the bench before the batch begins.
  have hsilent : actsOf (past ++ [Move.inner none] ++ [Move.inner none] ++ [Move.inner none]) =
      actsOf past := by
    rw [actsOf_inner, actsOf_inner, actsOf_inner]
  have hnow : veil (actsOf past) <+: script := (isPrefix_veil (List.prefix_append ..)).trans hscript
  have hload : v.bench.load gates (.macCheck handed.number) me.parties =
      ⟨gates.map fun gate => ⟨gate, false⟩,
        { v.bench.desk with rounds := .start (.macCheck handed.number) me.parties }⟩ := rfl
  have hprocess := @Bench.meets_process_acting _ _ _ me CheckGate.message? (.macCheck handed.number) _
    (past ++ [Move.inner none] ++ [Move.inner none] ++ [Move.inner none])
    { v.bench.desk with rounds := .start (.macCheck handed.number) me.parties } gates
    (CheckGate.voices me) rfl (List.prefix_refl _)
  rw [hsilent, ← hload] at hprocess
  have hduring := meets_runSlice_of_process (P := fun now _ => veil (actsOf now) <+: script) htaken
    (fun h => by rwa [actsOf_inner]) hnow
    (hprocess.mono (fun now _ h => (isPrefix_veil h).trans hscript) (fun _ _ _ _ _ => trivial)
      fun _ _ _ _ => id)
  have hreciting : (runSlice me).Meets (.reciting script fun _ _ _ => True) past v :=
    hduring.mono (fun _ _ => id) (fun _ _ _ _ => id) fun _ _ _ _ => id
  refine (hreciting.and_paths fun moves _ v' hpath => ?_).mono_terms fun _ _ _ => And.right
  have hvigilant : (runSlice me).Vigilant fun _ => True := vigilant_runSlice fun _ _ _ => trivial
  exact ⟨talkOf moves, talkOf_append .., hvigilant.ends_of_path hpath⟩

/-- A slice with a gate that talks says its message, under the veil of its turn. -/
theorem meets_runSlice_saying
    (htaken : v.check.nextSlice v.generator = some ((.ok [gate], handed), source))
    (hmessage : gate.message? = some payload) (hpast : Recited me turn base past)
    (hends : ∀ talk v', (runSlice me).Ends v talk (.ok ()) v' →
      (∃ packets, talk = exchange me ⟨.macCheck handed.number, [payload]⟩ packets) ∧ Q v') :
    (runSlice me).Meets (.reciting
      (base ++ speech me.peers (Packet.veil turn ⟨.macCheck handed.number, [payload]⟩))
      fun _ now v' => Recited me (turn + 1)
        (base ++ speech me.peers (Packet.veil turn ⟨.macCheck handed.number, [payload]⟩)) now ∧
          Q v') past v := by
  have hutterance : utterance me.peers ⟨.macCheck handed.number, [gate].filterMap CheckGate.message?⟩ =
      speech me.peers ⟨.macCheck handed.number, [payload]⟩ := by
    simp [utterance, hmessage]
  refine (meets_runSlice_reciting htaken (by rw [hutterance, hpast.veil_speech])).mono_terms ?_
  rintro _ now v' ⟨talk, htalk, hslice⟩
  obtain ⟨⟨packets, rfl⟩, hQ⟩ := hends talk v' hslice
  refine ⟨hpast.speech ?_, hQ⟩
  rw [actsOf, htalk, List.filterMap_append, filterMap_act?_exchange, actsOf]

theorem meets_runSlice_silent
    (htaken : v.check.nextSlice v.generator = some ((.ok gates, handed), source))
    (hmessages : gates.filterMap CheckGate.message? = []) (hpast : Recited me turn base past)
    (hends : ∀ talk v', (runSlice me).Ends v talk (.ok ()) v' → talk = [] ∧ Q v') :
    (runSlice me).Meets (.reciting base fun _ now v' => Recited me turn base now ∧ Q v') past v := by
  have hutterance : utterance me.peers ⟨.macCheck handed.number, gates.filterMap CheckGate.message?⟩ = [] :=
    if_pos hmessages
  refine (meets_runSlice_reciting htaken
    (by rw [hutterance, List.append_nil, hpast.veil_eq])).mono_terms ?_
  rintro _ now v' ⟨talk, htalk, hslice⟩
  obtain ⟨rfl, hQ⟩ := hends talk v' hslice
  refine ⟨hpast.congr ?_, hQ⟩
  rw [actsOf, htalk, List.append_nil, actsOf]

/-! ## Stages -/

variable {draws : Draws} {value : Element} {nonce : Nonce} {all : List Commitment} {limit : Nat}
  {post : Unit → List Move → Verifier → Prop}

theorem meets_runSlices_succ (hnext : v.check.hasNext = true) (hpast : Recited me turn base past)
    (hbase : base <+: script) {Q : List Move → Verifier → Prop}
    (hslice : ∀ past, Recited me turn base past →
      (runSlice me).Meets (.reciting script fun _ => Q) past v)
    (hrest : ∀ now v', Q now v' → (runSlices me limit).Meets (.reciting script post) now v') :
    (runSlices me (limit + 1)).Meets (.reciting script post) past v := by
  refine .get_bind (hpast.during hbase) ?_
  rw [if_pos hnext]
  exact (hslice _ (hpast.inner none)).bind_terms fun _ => hrest

theorem meets_runSlices_saying (hnext : v.check.hasNext = true)
    (htaken : v.check.nextSlice v.generator = some ((.ok [gate], handed), source))
    (hmessage : gate.message? = some payload) (hpast : Recited me turn base past)
    (hveiled : base ++ speech me.peers (Packet.veil turn ⟨.macCheck handed.number, [payload]⟩) <+: script)
    (hends : ∀ talk v', (runSlice me).Ends v talk (.ok ()) v' →
      (∃ packets, talk = exchange me ⟨.macCheck handed.number, [payload]⟩ packets) ∧ Q v')
    (hrest : ∀ now v', Recited me (turn + 1)
      (base ++ speech me.peers (Packet.veil turn ⟨.macCheck handed.number, [payload]⟩)) now → Q v' →
        (runSlices me limit).Meets (.reciting script post) now v') :
    (runSlices me (limit + 1)).Meets (.reciting script post) past v :=
  meets_runSlices_succ hnext hpast ((List.prefix_append ..).trans hveiled)
    (fun _ hpast => (meets_runSlice_saying htaken hmessage hpast hends).reciting_mono hveiled)
    fun now v' hmiddle => hrest now v' hmiddle.1 hmiddle.2

theorem meets_runSlices_silent (hnext : v.check.hasNext = true)
    (htaken : v.check.nextSlice v.generator = some ((.ok gates, handed), source))
    (hmessages : gates.filterMap CheckGate.message? = []) (hpast : Recited me turn base past)
    (hbase : base <+: script)
    (hends : ∀ talk v', (runSlice me).Ends v talk (.ok ()) v' → talk = [] ∧ Q v')
    (hrest : ∀ now v', Recited me turn base now → Q v' →
      (runSlices me limit).Meets (.reciting script post) now v') :
    (runSlices me (limit + 1)).Meets (.reciting script post) past v :=
  meets_runSlices_succ hnext hpast hbase
    (fun _ hpast => (meets_runSlice_silent htaken hmessages hpast hends).reciting_mono hbase)
    fun now v' hmiddle => hrest now v' hmiddle.1 hmiddle.2

/-- What a check has said when it is at its end. -/
def Said (me : Party) (script : List Act) (source : Source) (_ : Unit) (now : List Move) (v : Verifier) :
    Prop :=
  Recited me 4 script now ∧ v.generator = source

theorem meets_runSlices_ended (hnext : v.check.hasNext = false) (hpast : Recited me 4 script past) :
    (runSlices me limit).Meets (.reciting script (Said me script v.generator)) past v := by
  have hwithin := List.prefix_refl script
  cases limit with
  | zero => exact hpast.during hwithin
  | succ limit =>
    refine .get_bind (hpast.during hwithin) ?_
    rw [if_neg (by simp [hnext])]
    exact ⟨(hpast.inner none).during hwithin, hpast.inner none, rfl⟩

/-- Of a reveal the nonce stays. -/
theorem veil_reveal : Packet.veil 3 ⟨phase, [Commitment.reveal value nonce]⟩ =
    ⟨phase, [List.replicate 16 0 ++ nonce.bytes]⟩ := by
  have hlength : value.toBytes.length = 16 := value.length_toBytes
  simp [Packet.veil, Payload.veil, Commitment.reveal, hlength]

theorem veil_commitment {commitment : Commitment} : Packet.veil 2 ⟨phase, [commitment.digest]⟩ =
    ⟨phase, [List.replicate 32 0]⟩ := by
  simp [Packet.veil, Payload.veil, commitment.length_digest]

theorem meets_runSlices_opening (hstage : v.check.stage = .awaitingOpen)
    (hcontribution : v.check.contribution = some (value, nonce))
    (hcommitments : v.check.commitments = some all) (hout : v.check.outstanding = false)
    (hpast : Recited me 3 base past)
    (hscript : script = base ++
      speech me.peers ⟨.macCheck v.check.number, [List.replicate 16 0 ++ nonce.bytes]⟩) :
    (runSlices me limit).Meets (.reciting script (Said me script v.generator)) past v := by
  have hwithin : base <+: script := hscript ▸ List.prefix_append ..
  cases limit with
  | zero => exact hpast.during hwithin
  | succ limit =>
    have htaken := @MacCheck.nextSlice_reveal v.check v.generator value nonce all (.inr hstage)
      hcontribution hcommitments hout
    have hends : ∀ talk v', (runSlice me).Ends v talk (.ok ()) v' →
        (∃ packets, talk =
          exchange me ⟨.macCheck v.check.number, [Commitment.reveal value nonce]⟩ packets) ∧
            v'.check.hasNext = false ∧ v'.generator = v.generator := by
      intro talk v' hends
      obtain ⟨others, nonces, rfl, -, hverdict, rfl⟩ := (ends_runSlice_decommit (decided_ok ()) htaken
        (fun sum => MacCheck.absorb_checkValues rfl rfl hstage) fun _ => rfl).mp hends
      have hzero : ((me.peers.map others).foldl me.modulus.add value).isZero = true := by
        by_contra hzero
        rw [if_neg hzero] at hverdict
        cases hverdict
      exact ⟨⟨_, rfl⟩, by simp [afterSlice, MacCheck.hasNext, hzero], rfl⟩
    refine meets_runSlices_saying (by simp [MacCheck.hasNext, hstage]) htaken rfl hpast ?_ hends ?_
    · rw [veil_reveal, hscript]
    · rintro now v' hnow ⟨hended, hgenerator⟩
      rw [veil_reveal, ← hscript] at hnow
      rw [← hgenerator]
      exact meets_runSlices_ended hended hnow

/-- What a party says of its check value, of which only the nonce is not veiled. -/
def veiledValue (peers : List PartyId) (number : UInt64) (nonce : Nonce) : List Act :=
  speech peers ⟨.macCheck number, [List.replicate 32 0]⟩ ++
    speech peers ⟨.macCheck number, [List.replicate 16 0 ++ nonce.bytes]⟩

theorem meets_runSlices_committing (hstage : v.check.stage = .awaitingCommit)
    (hout : v.check.outstanding = false) (hnonce : Nonce.draw v.generator = some (nonce, source))
    (hpast : Recited me 2 base past)
    (hscript : script = base ++ veiledValue me.peers v.check.number nonce) :
    (runSlices me limit).Meets (.reciting script (Said me script source)) past v := by
  rw [veiledValue, ← List.append_assoc] at hscript
  have hcommit : base ++ speech me.peers ⟨.macCheck v.check.number, [List.replicate 32 0]⟩ <+: script :=
    hscript ▸ List.prefix_append ..
  cases limit with
  | zero => exact hpast.during ((List.prefix_append ..).trans hcommit)
  | succ limit =>
    have htaken := MacCheck.nextSlice_awaitingCommit hstage hout hnonce
    have hends : ∀ talk v', (runSlice me).Ends v talk (.ok ()) v' →
        (∃ packets, talk = exchange me
          ⟨.macCheck v.check.number, [(Commitment.commit v.check.checkValue nonce).digest]⟩ packets) ∧
            ∃ all gates, v' = v.afterSlice me
              { v.check with
                stage := .awaitingOpen
                contribution := some (v.check.checkValue, nonce)
                commitments := some all
                outstanding := false } source gates := by
      intro talk v' hends
      obtain ⟨others, rfl, -, rfl⟩ := (ends_runSlice_commit (decided_ok ()) htaken
        (fun all hall => MacCheck.absorb_checkCommitments rfl hall hstage) fun _ => rfl).mp hends
      exact ⟨⟨_, rfl⟩, _, _, rfl⟩
    refine meets_runSlices_saying (by simp [MacCheck.hasNext, hstage]) htaken rfl hpast ?_ hends ?_
    · rwa [veil_commitment]
    · rintro now v' hnow ⟨all, gates, hv'⟩
      rw [veil_commitment] at hnow
      have hcheck := congrArg Verifier.check hv'
      have hsource := congrArg Verifier.generator hv'
      have hopening := @meets_runSlices_opening me _ script now v' v.check.checkValue nonce all limit
        (by rw [hcheck]; rfl) (by rw [hcheck]; rfl) (by rw [hcheck]; rfl) (by rw [hcheck]; rfl) hnow
        (by rw [hcheck]; exact hscript)
      rwa [hsource] at hopening

theorem meets_runSlices_compressing (h : Compressing me v.check)
    (hnonce : Nonce.draw v.generator = some (nonce, source)) (hpast : Recited me 2 base past)
    (hscript : script = base ++ veiledValue me.peers v.check.number nonce) :
    (runSlices me limit).Meets (.reciting script (Said me script source)) past v := by
  have hwithin : base <+: script := hscript ▸ List.prefix_append ..
  -- A slice leaves a check that compresses further, or one that has its check value.
  induction limit generalizing v past with
  | zero => exact hpast.during hwithin
  | succ limit ih =>
    obtain ⟨gates, check', hslice, hcheck⟩ := h.runSlice
    have hends : ∀ talk v', (runSlice me).Ends v talk (.ok ()) v' →
        talk = [] ∧ v' = v.afterSlice me check' v.generator gates := by
      intro talk v' hends
      obtain ⟨hnil, -, hafter⟩ := hslice.unique hends (List.append_nil talk).symm
      exact ⟨hnil.symm, hafter.symm⟩
    obtain ⟨-, hgates⟩ := MacCheck.lt_accumulateFrom h.nextRecord
      (lt_min h.sliceSize (Nat.zero_lt_of_lt h.nextRecord)) h.chunkSize
    have htaken := @MacCheck.nextSlice_compressing v.check v.generator h.stage h.outstanding hgates
    have hmessages : v.check.nextParts.1.filterMap CheckGate.message? = [] := by
      obtain ⟨parts, hparts⟩ : ∃ parts : List AccumulateGate,
        v.check.nextParts.1 = parts.map .accumulate := MacCheck.exists_accumulateFrom _ _
      rw [hparts, List.filterMap_map]
      exact List.filterMap_eq_nil_iff.mpr fun _ _ => rfl
    refine meets_runSlices_silent (by simp [MacCheck.hasNext, h.stage]) htaken hmessages hpast hwithin
      hends ?_
    rintro now _ hnow rfl
    obtain ⟨value, -, rfl⟩ | ⟨hrest, hnumber, -⟩ := hcheck
    · exact meets_runSlices_committing rfl h.outstanding hnonce hnow hscript
    · rw [← hnumber] at hscript
      exact ih hrest hnonce hnow hscript

theorem meets_runSlices_revealing (hstage : v.check.stage = .awaitingCombiner)
    (hcontribution : v.check.contribution = some (value, nonce))
    (hcommitments : v.check.commitments = some all) (hout : v.check.outstanding = false)
    (hcombined : ∀ sum, Compressing me (combined v.check sum)) {nonce' : Nonce}
    (hnonce : Nonce.draw v.generator = some (nonce', source)) (hpast : Recited me 1 base past)
    (hscript : script = base ++
      speech me.peers ⟨.macCheck v.check.number, [Commitment.reveal value nonce]⟩ ++
        veiledValue me.peers v.check.number nonce') :
    (runSlices me limit).Meets (.reciting script (Said me script source)) past v := by
  have hreveal : base ++ speech me.peers ⟨.macCheck v.check.number, [Commitment.reveal value nonce]⟩ <+:
      script := hscript ▸ List.prefix_append ..
  cases limit with
  | zero => exact hpast.during ((List.prefix_append ..).trans hreveal)
  | succ limit =>
    have htaken := @MacCheck.nextSlice_reveal v.check v.generator value nonce all (.inl hstage)
      hcontribution hcommitments hout
    have hends : ∀ talk v', (runSlice me).Ends v talk (.ok ()) v' →
        (∃ packets, talk =
          exchange me ⟨.macCheck v.check.number, [Commitment.reveal value nonce]⟩ packets) ∧
            ∃ sum gates, v' = v.afterSlice me (combined v.check sum) v.generator gates := by
      intro talk v' hends
      obtain ⟨others, nonces, rfl, -, -, rfl⟩ := (ends_runSlice_decommit (decided_ok ()) htaken
        (fun sum => MacCheck.absorb_combiner rfl rfl hstage hcommitments) fun _ => rfl).mp hends
      exact ⟨⟨_, rfl⟩, _, _, rfl⟩
    refine meets_runSlices_saying (by simp [MacCheck.hasNext, hstage]) htaken rfl hpast hreveal hends ?_
    rintro now _ hnow ⟨sum, gates, rfl⟩
    exact meets_runSlices_compressing (hcombined sum) hnonce hnow hscript

def recital (peers : List PartyId) (number : UInt64) (draws : Draws) : List Act :=
  speech peers ⟨.macCheck number, [(Commitment.commit draws.1.1 draws.1.2).digest]⟩ ++
    speech peers ⟨.macCheck number, [Commitment.reveal draws.1.1 draws.1.2]⟩ ++
      veiledValue peers number draws.2

/-- Whatever the transport does, a check is recited as the draws of the party have it. -/
theorem Fresh.meets_execute_reciting (h : Fresh me v.check)
    (hdraw : me.modulus.drawCheck v.generator = some (draws, source)) (hpast : Recited me 0 base past)
    (hscript : script = base ++ recital me.peers v.check.number draws) :
    (execute me).Meets (.reciting script (Said me script source)) past v := by
  obtain ⟨source₁, source₂, hown, hnonce, hnonce'⟩ := Modulus.drawCheck_eq_some_iff.mp hdraw
  have hcommitted : base ++ speech me.peers
      ⟨.macCheck v.check.number, [(Commitment.commit draws.1.1 draws.1.2).digest]⟩ <+: script := by
    rw [hscript, recital, List.append_assoc, ← List.append_assoc]
    exact List.prefix_append ..
  have hwithin : base <+: script := (List.prefix_append ..).trans hcommitted
  have htaken := MacCheck.nextSlice_idle h.stage h.commitments h.outstanding (h.modulus ▸ hown) hnonce
  have hends : ∀ talk v', (runSlice me).Ends v talk (.ok ()) v' →
      (∃ packets, talk = exchange me
        ⟨.macCheck v.check.number, [(Commitment.commit draws.1.1 draws.1.2).digest]⟩ packets) ∧
          ∃ all gates, v' = v.afterSlice me
            { v.check with
              stage := .awaitingCombiner
              contribution := some draws.1
              commitments := some all
              outstanding := false } source₂ gates := by
    intro talk v' hends
    obtain ⟨others, rfl, -, rfl⟩ := (ends_runSlice_commit (decided_ok ()) htaken
      (fun all hall => MacCheck.absorb_commitments rfl hall rfl h.commitments) fun _ => rfl).mp hends
    exact ⟨⟨_, rfl⟩, _, _, rfl⟩
  rw [execute]
  refine .get_bind (hpast.during hwithin) ?_
  refine meets_runSlices_saying (by simp [MacCheck.hasNext, h.stage]) htaken rfl (hpast.inner none) hcommitted
    hends ?_
  rintro now v' hnow ⟨all, gates, hv'⟩
  have hcheck := congrArg Verifier.check hv'
  have hsource := congrArg Verifier.generator hv'
  have hcommitments : v'.check.commitments = some all := by rw [hcheck]; rfl
  refine meets_runSlices_revealing (by rw [hcheck]; rfl) (by rw [hcheck]; rfl) hcommitments
    (by rw [hcheck]; rfl) (fun sum => ?_) (by rw [hsource]; exact hnonce') hnow ?_
  · rw [hcheck]
    exact h.compressing sum
  · rw [hcheck, hscript, recital, ← List.append_assoc, ← List.append_assoc]
    rfl

end Verifier
end AuthenticatedMpc
