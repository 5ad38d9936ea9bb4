import AuthenticatedMpc.Proofs.MacCheck.Precedence
import AuthenticatedMpc.Proofs.Rounds.Visiting

/-!
# Commitments bind

Once a party has the commitments of its peers, they can make it accept one sum only, and so one
combiner or one verdict, whatever they reveal and whatever the transport does. The only way to another
sum is a peer that has two openings of its commitment: two byte strings with one digest. Nothing is
used of the digest but that it depends on the bytes alone.
-/

namespace AuthenticatedMpc

def firstMessage? (peer : PartyId) (moves : List Move) : Option Payload :=
  (receivedFrom peer (talkOf moves)).head?.bind (·.messages.head?)

/-- The first messages of the peers open their commitments, and the sum is that of what they reveal. -/
def Opened (me : Party) (own : Element) (commitments : List Commitment) (sum : Element)
    (moves : List Move) : Prop :=
  ∃ (value : PartyId → Element) (nonce : PartyId → Nonce),
    (∀ q ∈ me.peers, firstMessage? q moves = some (Commitment.reveal (value q) (nonce q)) ∧
      value q < me.modulus.value ∧ commitments[q]? = some (.commit (value q) (nonce q))) ∧
    sum = (me.peers.map value).foldl me.modulus.add own

/-- Two openings of one commitment: the first messages of the peer are different reveals with the same
digest. -/
def Equivocates (peer : PartyId) (moves moves' : List Move) : Prop :=
  ∃ reveal reveal' : Payload,
    firstMessage? peer moves = some reveal ∧ firstMessage? peer moves' = some reveal' ∧
      reveal.length = Commitment.revealLength ∧ reveal'.length = Commitment.revealLength ∧
      reveal ≠ reveal' ∧ Keccak.sha3 reveal = Keccak.sha3 reveal'

section Opened

variable {me : Party} {own sum sum' : Element} {commitments : List Commitment} {moves moves' : List Move}

theorem firstMessage?_append {peer : PartyId} {payload : Payload}
    (h : firstMessage? peer moves = some payload) (more : List Move) :
    firstMessage? peer (moves ++ more) = some payload := by
  unfold firstMessage? at h ⊢
  rw [talkOf_append, receivedFrom_append]
  cases hheard : receivedFrom peer (talkOf moves) with
  | nil => simp [hheard] at h
  | cons packet rest => simpa [hheard] using h

theorem Opened.append (h : Opened me own commitments sum moves) (more : List Move) :
    Opened me own commitments sum (moves ++ more) := by
  obtain ⟨value, nonce, hpeers, hsum⟩ := h
  refine ⟨value, nonce, ?_, hsum⟩
  intro q hq
  obtain ⟨hfirst, hopens⟩ := hpeers q hq
  exact ⟨firstMessage?_append hfirst more, hopens⟩

/-- Against the same commitments, only a peer with two openings makes for different sums. -/
theorem Opened.eq_or_equivocates (h : Opened me own commitments sum moves)
    (h' : Opened me own commitments sum' moves') :
    sum = sum' ∨ ∃ q ∈ me.peers, Equivocates q moves moves' := by
  obtain ⟨value, nonce, hpeers, rfl⟩ := h
  obtain ⟨value', nonce', hpeers', rfl⟩ := h'
  by_cases hvalues : ∀ q ∈ me.peers, value q = value' q
  · left
    rw [List.map_congr_left hvalues]
  · right
    push Not at hvalues
    obtain ⟨q, hq, hne⟩ := hvalues
    obtain ⟨hfirst, -, hcommitment⟩ := hpeers q hq
    obtain ⟨hfirst', -, hcommitment'⟩ := hpeers' q hq
    have hcommit : Commitment.commit (value q) (nonce q) = .commit (value' q) (nonce' q) :=
      Option.some.inj (hcommitment.symm.trans hcommitment')
    have hdigest := congrArg Commitment.digest hcommit
    refine ⟨q, hq, _, _, hfirst, hfirst', Commitment.length_reveal .., Commitment.length_reveal .., ?_,
      hdigest⟩
    intro hreveal
    exact hne (Commitment.reveal_inj.mp hreveal).1

end Opened

/-! ## Moments of an exchange -/

/-- A decommit gate that has a sum on the bench has it from what the peers have revealed. -/
def Accountable (me : Party) (own : Element) (nonce : Nonce) (commitments : List Commitment)
    (now : List Move) (bench : Bench CheckGate Unit) : Prop :=
  ∀ gate sum, bench.gates = [.decommit gate] → gate.sum = some sum →
    gate = ⟨own, nonce, commitments, some sum⟩ ∧ Opened me own commitments sum now

section Accountable

variable {me : Party} {phase : Phase} {own : Element} {nonce : Nonce} {commitments : List Commitment}
  {past now : List Move} {bench : Bench CheckGate Unit} {desk : Desk Unit}

theorem Accountable.append (h : Accountable me own nonce commitments past bench) (more : List Move) :
    Accountable me own nonce commitments (past ++ more) bench := by
  intro gate sum hgates hsum
  obtain ⟨hgate, hopened⟩ := h gate sum hgates hsum
  exact ⟨hgate, hopened.append more⟩

theorem accountable_of_unfinished {slots : List (Slot CheckGate)}
    (hslots : slots = [⟨.decommit ⟨own, nonce, commitments, none⟩, false⟩]) :
    Accountable me own nonce commitments now ⟨slots, desk⟩ := by
  subst hslots
  intro gate sum hgates hsum
  cases hgates
  cases hsum

theorem accountable_of_opened {slots : List (Slot CheckGate)} {sum : Element}
    (hslots : slots = [⟨.decommit ⟨own, nonce, commitments, some sum⟩, true⟩])
    (h : Opened me own commitments sum now) :
    Accountable me own nonce commitments now ⟨slots, desk⟩ := by
  subst hslots
  intro gate sum' hgates hsum
  cases hgates
  cases hsum
  exact ⟨rfl, h⟩

/-- Terms on which a bench has sums only from what the peers have revealed, and may fail as it likes. -/
def Terms.accountable (me : Party) (own : Element) (nonce : Nonce) (commitments : List Commitment) :
    Terms (Bench CheckGate Unit) where
  during := Accountable me own nonce commitments
  fails _ := True
  assumes _ := True

theorem CheckGate.opened_of_ends {gate' : CheckGate} {status : Status} {desk' : Desk Unit}
    {talk : List Signal} {moves : List Move} (hpast : ∀ q ∈ me.peers, receivedFrom q (talkOf past) = [])
    (htalk : talkOf moves = talk)
    (h : (Gate.evaluate me 1 (CheckGate.decommit ⟨own, nonce, commitments, none⟩)).Ends
      { desk with rounds := .start phase me.parties } talk (.ok (gate', status)) desk') :
    ∃ sum, gate' = .decommit ⟨own, nonce, commitments, some sum⟩ ∧ status = .done ∧
      Opened me own commitments sum (past ++ moves) := by
  rw [evaluate_decommit, Program.ends_bind_pure] at h
  obtain ⟨⟨_, _⟩, hvalue, h⟩ := h
  cases hvalue
  obtain ⟨_, hvalue, hgather⟩ := Program.ends_bind_pure.mp h
  cases hvalue
  obtain ⟨answer, rest, value, rfl, hread, rfl, -⟩ := Desk.ends_gather.mp hgather
  have hopens := fun q hq => DecommitGate.openPeer_eq_ok_iff.mp (hread q hq)
  choose! nonces hnonces using hopens
  refine ⟨_, rfl, rfl, value, nonces, ?_, rfl⟩
  intro q hq
  obtain ⟨hanswer, hopens⟩ := hnonces q hq
  refine ⟨?_, hopens⟩
  have hheard : receivedFrom q (talkOf (past ++ moves)) = [⟨phase, answer q :: rest q⟩] := by
    rw [talkOf_append, receivedFrom_append, hpast q hq, htalk, List.nil_append,
      receivedFrom_map_received Party.nodup_peers, if_pos hq]
  rw [firstMessage?, hheard, ← hanswer]
  rfl

/-- In the round in which it reveals its value, a decommit gate hears nothing and has no sum. -/
theorem CheckGate.meets_runRound_reveal (hpast : ∀ q ∈ me.peers, receivedFrom q (talkOf past) = []) :
    (Bench.runRound me 0).Meets
      ((Terms.accountable me own nonce commitments).contract id fun _ now bench =>
        (∀ q ∈ me.peers, receivedFrom q (talkOf now) = []) ∧
          bench = ⟨[⟨.decommit ⟨own, nonce, commitments, none⟩, false⟩],
            { desk with rounds := .start phase me.parties }⟩) past
      ⟨[⟨.decommit ⟨own, nonce, commitments, none⟩, false⟩],
        { desk with rounds := .start phase me.parties }⟩ := by
  have hvisits : Visiting (Terms.accountable me own nonce commitments) id me 0 fun front back _ _ =>
      front ++ back = [⟨.decommit ⟨own, nonce, commitments, none⟩, false⟩] := {
    during := fun hslots => accountable_of_unfinished hslots
    silent := id
    skip := by
      intro front gate back _ _ hslots
      simp [List.append_eq_singleton_iff] at hslots
    evaluate := by
      intro front gate back now desk hslots
      have hduring : ∀ {now desk'}, (Terms.accountable me own nonce commitments).during now
          ⟨front ++ ⟨gate, false⟩ :: back, desk'⟩ := accountable_of_unfinished hslots
      obtain ⟨rfl, hcons⟩ : front = [] ∧ ⟨gate, false⟩ :: back = [⟨.decommit ⟨own, nonce, commitments,
        none⟩, false⟩] := by simpa [List.append_eq_singleton_iff] using hslots
      cases hcons
      exact ⟨hduring, hduring, rfl⟩ }
  have hround : (Bench.runRound me 0).Meets
      ((Terms.accountable me own nonce commitments).contract id fun _ _ _ => True) past
      ⟨[⟨.decommit ⟨own, nonce, commitments, none⟩, false⟩],
        { desk with rounds := .start phase me.parties }⟩ :=
    hvisits.meets_runRound (fun slots now desk hslots => .of_forall
      (fun _ _ => accountable_of_unfinished (by simpa using hslots)) (fun _ _ _ => trivial)
      fun _ _ _ => trivial) rfl
  refine (hround.and_paths fun moves _ bench hpath => ?_).mono_terms fun _ _ _ => And.right
  have hvigilant : (Bench.runRound me 0 : Program (Bench CheckGate Unit) Unit).Vigilant fun _ => True :=
    Bench.vigilant_runRound coversTalk_true (fun _ _ _ => trivial) fun gate =>
      (CheckGate.vigilant_evaluate 0 gate).anyError
  obtain ⟨htalk, hbench⟩ :=
    (@Bench.ends_runRound_post _ _ _ me phase (.decommit ⟨own, nonce, commitments, none⟩) desk bench _
      (Commitment.reveal own nonce) rfl).mp (hvigilant.ends_of_path hpath)
  refine ⟨?_, hbench⟩
  intro q hq
  rw [talkOf_append, receivedFrom_append, hpast q hq, htalk]
  simp [receivedFrom]

theorem CheckGate.meets_runRound_sum (hpast : ∀ q ∈ me.peers, receivedFrom q (talkOf past) = []) :
    (Bench.runRound me 1).Meets
      ((Terms.accountable me own nonce commitments).contract id fun _ now bench =>
        bench.isDone = true ∧ Accountable me own nonce commitments now bench) past
      ⟨[⟨.decommit ⟨own, nonce, commitments, none⟩, false⟩],
        { desk with rounds := .start phase me.parties }⟩ := by
  let slot (sum : Option Element) : Slot CheckGate :=
    ⟨.decommit ⟨own, nonce, commitments, sum⟩, sum.isSome⟩
  let Before (now : List Move) (desk' : Desk Unit) : Prop :=
    (∀ q ∈ me.peers, receivedFrom q (talkOf now) = []) ∧
      desk' = { desk with rounds := .start phase me.parties }
  have hvisits : Visiting (Terms.accountable me own nonce commitments) id me 1 fun front back now desk' =>
      (front = [] ∧ back = [slot none] ∧ Before now desk') ∨
        ∃ sum, front = [slot (some sum)] ∧ back = [] ∧ Opened me own commitments sum now := {
    during := by
      rintro front back now desk' (⟨rfl, rfl, -⟩ | ⟨sum, rfl, rfl, hopened⟩)
      · exact accountable_of_unfinished rfl
      · exact accountable_of_opened rfl hopened
    silent := by
      rintro front back now desk' (⟨hfront, hback, hnow, hdesk⟩ | ⟨sum, hfront, hback, hopened⟩)
      · exact .inl ⟨hfront, hback, by simpa using hnow, hdesk⟩
      · exact .inr ⟨sum, hfront, hback, hopened.append _⟩
    skip := by
      rintro front gate back now desk' (⟨-, hback, -⟩ | ⟨sum, -, hback, -⟩)
      · cases hback
      · cases hback
    evaluate := by
      rintro front gate back now desk' (⟨rfl, hback, hnow, rfl⟩ | ⟨sum, -, hback, -⟩)
      · cases hback
        refine (Program.Meets.of_paths _ _ _).mono (fun _ _ _ => accountable_of_unfinished rfl) ?_
          fun _ _ _ _ _ => trivial
        rintro ⟨gate', status⟩ _ desk' - ⟨moves, rfl, hpath⟩
        have hvigilant : (Gate.evaluate me 1 (CheckGate.decommit ⟨own, nonce, commitments, none⟩) :
            Program (Desk Unit) _).Vigilant fun _ => True := (CheckGate.vigilant_evaluate 1 _).anyError
        have hsilent : ∀ q ∈ me.peers,
            receivedFrom q (talkOf (now ++ [Move.inner (some (.evaluating phase 0 1))])) = [] := by
          simpa using hnow
        obtain ⟨sum, rfl, rfl, hopened⟩ :=
          CheckGate.opened_of_ends hsilent rfl (hvigilant.ends_of_path hpath)
        exact .inr ⟨sum, rfl, rfl, hopened⟩
      · cases hback }
  refine hvisits.meets_runRound ?_ (.inl ⟨rfl, rfl, hpast, rfl⟩)
  rintro slots now desk' (⟨-, hback, -⟩ | ⟨sum, rfl, -, hopened⟩)
  · cases hback
  · refine (Program.Meets.of_paths RoundBuffer.ship now desk'.rounds).mono ?_ ?_
      fun _ _ _ _ _ => trivial
    · rintro _ rounds ⟨moves, _, rfl, -⟩
      exact accountable_of_opened rfl (hopened.append moves)
    · rintro _ _ rounds - ⟨moves, rfl, -⟩
      exact ⟨rfl, accountable_of_opened rfl (hopened.append moves)⟩

/-- What holds before a round of a decommit gate: it has heard nothing, or it has finished. -/
def SumsBefore (me : Party) (own : Element) (nonce : Nonce) (commitments : List Commitment)
    (start : Bench CheckGate Unit) (round : Nat) (now : List Move) (bench : Bench CheckGate Unit) :
    Prop :=
  match round with
  | 0 | 1 => (∀ q ∈ me.peers, receivedFrom q (talkOf now) = []) ∧ bench = start
  | _ + 2 => bench.isDone = true ∧ Accountable me own nonce commitments now bench

/-- Whatever the transport does, the sum of a decommit gate comes from what the peers have revealed. -/
theorem CheckGate.meets_process_accountable
    (hpast : ∀ q ∈ me.peers, receivedFrom q (talkOf past) = []) :
    (Bench.process me).Meets
      ((Terms.accountable me own nonce commitments).contract id fun _ now bench =>
        Accountable me own nonce commitments now bench) past
      ⟨[⟨.decommit ⟨own, nonce, commitments, none⟩, false⟩],
        { desk with rounds := .start phase me.parties }⟩ := by
  let start : Bench CheckGate Unit := ⟨[⟨.decommit ⟨own, nonce, commitments, none⟩, false⟩],
    { desk with rounds := .start phase me.parties }⟩
  have haccountable : ∀ {round now bench}, SumsBefore me own nonce commitments start round now bench →
      Accountable me own nonce commitments now bench := by
    rintro (_ | _ | round) now bench h
    · exact h.2 ▸ accountable_of_unfinished rfl
    · exact h.2 ▸ accountable_of_unfinished rfl
    · exact h.2
  have hsilent : ∀ {round now bench}, SumsBefore me own nonce commitments start round now bench →
      SumsBefore me own nonce commitments start round (now ++ [Move.inner none]) bench := by
    rintro (_ | _ | round) now bench ⟨h, hbench⟩
    · exact ⟨by simpa using h, hbench⟩
    · exact ⟨by simpa using h, hbench⟩
    · exact ⟨h, hbench.append _⟩
  have hround : ∀ {round now bench}, SumsBefore me own nonce commitments start round now bench →
      bench.isDone = false → (Bench.runRound me round).Meets
        ((Terms.accountable me own nonce commitments).contract id fun _ =>
          SumsBefore me own nonce commitments start (round + 1)) now bench := by
    rintro (_ | _ | round) now bench ⟨h, hbench⟩ hdone
    · subst hbench
      exact meets_runRound_reveal h
    · subst hbench
      exact meets_runRound_sum h
    · exact Bool.noConfusion (hdone.symm.trans h)
  have hstart : SumsBefore me own nonce commitments start 0 past start := ⟨hpast, rfl⟩
  exact (Bench.meets_runRounds (SumsBefore me own nonce commitments start) haccountable hsilent hround
    hstart).mono_terms fun _ _ _ h => haccountable h.1

/-- What a peer sends beyond its reveal is noticed at the end of the round, when the gate has
finished. -/
theorem ends_process_surplus {value : PartyId → Element} {nonces : PartyId → Nonce}
    {rest : PartyId → List Payload} {peer : PartyId} {count : Nat}
    (hopens : ∀ q ∈ me.peers, value q < me.modulus.value ∧
      commitments[q]? = some (.commit (value q) (nonces q)))
    (hsurplus : (desk.afterReading me phase rest).rounds.surplus? = some (peer, count)) :
    (Bench.process me).Ends
      ⟨[⟨CheckGate.decommit ⟨own, nonce, commitments, none⟩, false⟩],
        { desk with rounds := .start phase me.parties }⟩
      (exchange me ⟨phase, [Commitment.reveal own nonce]⟩
        fun q => ⟨phase, Commitment.reveal (value q) (nonces q) :: rest q⟩)
      (.error (.desynchronized (.tooManyMessages peer count phase)))
      ⟨[⟨CheckGate.decommit ⟨own, nonce, commitments,
          some ((me.peers.map value).foldl me.modulus.add own)⟩, true⟩],
        { desk with rounds := (desk.afterReading me phase rest).rounds.clearInbox }⟩ := by
  let gate : CheckGate := .decommit ⟨own, nonce, commitments, none⟩
  have hgate : (Gate.evaluate me 1 gate).Ends { desk with rounds := .start phase me.parties }
      (me.peers.map fun q => .received q ⟨phase, Commitment.reveal (value q) (nonces q) :: rest q⟩)
      (.ok (.decommit ⟨own, nonce, commitments,
        some ((me.peers.map value).foldl me.modulus.add own)⟩, .done))
      (desk.afterReading me phase rest) := by
    refine Program.ends_bind_pure.mpr ⟨(_, .done), rfl, Program.ends_bind_pure.mpr ⟨_, rfl, ?_⟩⟩
    apply Desk.ends_gather.mpr
    refine ⟨_, rest, value, rfl, ?_, rfl, rfl⟩
    intro q hq
    exact DecommitGate.openPeer_eq_ok_iff.mpr ⟨nonces q, rfl, hopens q hq⟩
  have hplace := (@Bench.ends_evaluateAt _ _ _ me gate _ 1 0 ⟨[⟨gate, false⟩],
    { desk with rounds := .start phase me.parties }⟩ _ rfl).mpr ⟨_, _, _, hgate, rfl⟩
  have hship : RoundBuffer.ship.Ends (desk.afterReading me phase rest).rounds []
      (.error (.desynchronized (.tooManyMessages peer count phase)))
      (desk.afterReading me phase rest).rounds.clearInbox := by
    have hflush : RoundBuffer.flush.Ends (desk.afterReading me phase rest).rounds [] (.ok ())
        (desk.afterReading me phase rest).rounds :=
      RoundBuffer.ends_flush.mpr ⟨by simp, rfl, rfl⟩
    apply hflush.bind
    rw [RoundBuffer.endRound, Program.ends_get_bind, Program.ends_modify_bind, hsurplus]
    exact ⟨rfl, rfl, rfl⟩
  have hround : (Bench.runRound me 1).Ends ⟨[⟨gate, false⟩],
      { desk with rounds := .start phase me.parties }⟩
      (me.peers.map fun q => .received q ⟨phase, Commitment.reveal (value q) (nonces q) :: rest q⟩)
      (.error (.desynchronized (.tooManyMessages peer count phase)))
      ⟨[⟨.decommit ⟨own, nonce, commitments,
          some ((me.peers.map value).foldl me.modulus.add own)⟩, true⟩],
        { desk with rounds := (desk.afterReading me phase rest).rounds.clearInbox }⟩ := by
    have hplaces := hplace.bind (k := fun _ => Bench.evaluatePlaces me 1 []) ⟨rfl, rfl, rfl⟩
    have hends := hplaces.bind (k := fun _ => RoundBuffer.ship.zoom Bench.roundsPart)
      (Program.ends_zoom.mpr ⟨_, rfl, hship⟩)
    rw [List.append_nil, List.append_nil] at hends
    rw [Bench.runRound_eq, Program.ends_get_bind]
    exact hends
  have hreveal := (@Bench.ends_runRound_post _ _ _ me phase gate desk _ _
    (Commitment.reveal own nonce) rfl).mpr ⟨rfl, rfl⟩
  rw [Bench.process, show Bench.roundLimit = (2 ^ 64 - 3) + 1 + 1 + 1 from rfl, Bench.runRounds,
    Program.ends_get_bind, if_neg (by simp [Bench.isDone])]
  apply hreveal.bind
  rw [Bench.runRounds, Program.ends_get_bind, if_neg (by simp [Bench.isDone])]
  exact hround.bind_error

end Accountable

/-! ## The exchanges of a check -/

def MacCheck.handed (check : MacCheck) : MacCheck := { check with outstanding := true }

/-- A check in which a party has committed to its contribution and has the commitments of all, so that
the next slice reveals the contributions; none of them has been added up yet. -/
structure Revealing (own : Element) (nonce : Nonce) (commitments : List Commitment) (v : Verifier) :
    Prop where
  stage : v.check.stage = .awaitingCombiner ∨ v.check.stage = .awaitingOpen
  contribution : v.check.contribution = some (own, nonce)
  commitments : v.check.commitments = some commitments
  outstanding : v.check.outstanding = false
  unfinished : ∀ gate, v.bench.gates = [.decommit gate] → gate.sum = none

section Revealing

variable {me : Party} {own sum sum' : Element} {nonce : Nonce} {commitments : List Commitment}
  {v : Verifier} {moves moves' : List Move} {actor actor' : Actor Verifier Unit}
  {gate gate' : DecommitGate}

theorem Revealing.nextSlice (h : Revealing own nonce commitments v) :
    v.check.nextSlice v.generator = some ((.ok [.decommit ⟨own, nonce, commitments, none⟩],
      v.check.handed), v.generator) :=
  MacCheck.nextSlice_reveal h.stage h.contribution h.commitments h.outstanding

/-- At every moment of the slice, a decommit gate that has finished has its sum from what the peers have
revealed. -/
theorem Revealing.accountable (h : Revealing own nonce commitments v)
    (hpath : Path ⟨Verifier.runSlice me, v⟩ moves actor) :
    Accountable me own nonce commitments moves actor.state.bench := by
  have hstart : Accountable me own nonce commitments [] v.bench := by
    intro gate sum hgates hsum
    rw [h.unfinished gate hgates] at hsum
    cases hsum
  have hslice := Verifier.meets_runSlice_of_process (P := Accountable me own nonce commitments)
    h.nextSlice (fun hnow => hnow.append _) hstart
    ((CheckGate.meets_process_accountable fun _ _ => rfl).mono (fun _ _ => id)
      (fun _ _ _ _ _ => trivial) fun _ _ _ _ _ => trivial)
  exact (hslice.path hpath fun _ _ => trivial).during

/-- Whatever the peers reveal against their commitments and whatever the transport does: if in two
continuations of an exchange the decommit gate finishes, then with the same sum, of which the check
makes the same combiner or the same verdict; or else some peer has revealed two different strings with
the same digest. -/
theorem Revealing.binding (hv : Revealing own nonce commitments v)
    (h : Path ⟨Verifier.runSlice me, v⟩ moves actor)
    (hgate : actor.state.bench.gates = [.decommit gate]) (hsum : gate.sum = some sum)
    (h' : Path ⟨Verifier.runSlice me, v⟩ moves' actor')
    (hgate' : actor'.state.bench.gates = [.decommit gate']) (hsum' : gate'.sum = some sum') :
    (sum = sum' ∧
      v.check.handed.absorb actor.state.bench.gates = v.check.handed.absorb actor'.state.bench.gates ∧
      (v.check.stage = .awaitingCombiner →
        (v.check.handed.absorb actor.state.bench.gates).1 = .ok () ∧
        (v.check.handed.absorb actor.state.bench.gates).2.combiner = sum) ∧
      (v.check.stage = .awaitingOpen → (v.check.handed.absorb actor.state.bench.gates).1 =
        if sum.isZero then .ok () else .error (.macCheckFailed v.check.number))) ∨
      ∃ q ∈ me.peers, Equivocates q moves moves' := by
  obtain ⟨rfl, hopened⟩ := hv.accountable h gate sum hgate hsum
  obtain ⟨rfl, hopened'⟩ := hv.accountable h' gate' sum' hgate' hsum'
  rcases hopened.eq_or_equivocates hopened' with rfl | hequivocates
  · left
    refine ⟨rfl, by rw [hgate, hgate'], ?_, ?_⟩
    · intro hstage
      rw [hgate, @MacCheck.absorb_combiner v.check.handed _ sum _ rfl rfl hstage hv.commitments]
      exact ⟨rfl, rfl⟩
    · intro hstage
      rw [hgate, @MacCheck.absorb_checkValues v.check.handed _ sum rfl rfl hstage]
      rfl
  · exact .inr hequivocates

/-- The first of two parties has committed to the check value 5 modulo 7 and its peer to 2. Once the peer
reveals that, and the check passes; once it sends a message more, which is noticed when the gate has
finished. -/
theorem Revealing.binding_seven :
    let me : Party := ⟨0, 2, ⟨.ofNat 7, by decide⟩, .ofNat 2, by decide, by decide, by decide⟩
    let commitments : List Commitment := [.commit (.ofNat 5) default, .commit (.ofNat 2) default]
    let v : Verifier := { Verifier.idle default with
      check := { MacCheck.start 4 [] me.modulus .standard with
        stage := .awaitingOpen
        contribution := some (.ofNat 5, default)
        commitments := some commitments } }
    let gate : DecommitGate := ⟨.ofNat 5, default, commitments, some (.ofNat 0)⟩
    let reveal : Payload := Commitment.reveal (.ofNat 2) default
    Revealing (.ofNat 5) default commitments v ∧
      ∃ moves moves' final final' error,
        Path ⟨Verifier.runSlice me, v⟩ moves ⟨.pure (), final⟩ ∧ final.bench.gates = [.decommit gate] ∧
        receivedFrom 1 (talkOf moves) = [⟨.macCheck 4, [reveal]⟩] ∧
        Path ⟨Verifier.runSlice me, v⟩ moves' ⟨.fail error, final'⟩ ∧
        final'.bench.gates = [.decommit gate] ∧
        receivedFrom 1 (talkOf moves') = [⟨.macCheck 4, [reveal, []]⟩] ∧
        (v.check.handed.absorb final.bench.gates = v.check.handed.absorb final'.bench.gates ∨
          ∃ q ∈ me.peers, Equivocates q moves moves') := by
  intro me commitments v gate reveal
  have hv : Revealing (.ofNat 5) default commitments v := ⟨.inr rfl, rfl, rfl, rfl, by simp [v,
    Verifier.idle, Bench.gates]⟩
  have hpeers : me.peers = [1] := by decide
  have hopens : ∀ q ∈ me.peers, Element.ofNat 2 < me.modulus.value ∧
      commitments[q]? = some (.commit (.ofNat 2) default) := by
    rw [hpeers]
    intro q hq
    obtain rfl := List.mem_singleton.mp hq
    exact ⟨by decide, rfl⟩
  have hsum : (me.peers.map fun _ => Element.ofNat 2).foldl me.modulus.add (.ofNat 5) = .ofNat 0 := by
    decide +kernel
  have hends := (Verifier.ends_runSlice_decommit (decided_ok ()) hv.nextSlice
    (fun sum => MacCheck.absorb_checkValues rfl rfl rfl) fun _ => rfl).mpr
    ⟨fun _ => .ofNat 2, fun _ => default, rfl, hopens, by rw [hsum]; rfl, rfl⟩
  have hprocess := @ends_process_surplus me (.macCheck 4) (.ofNat 5) default commitments
    v.bench.desk (fun _ => .ofNat 2) (fun _ => default) (fun _ => [[]]) 1 1 hopens (by decide)
  have hends' := (Verifier.ends_runSlice hv.nextSlice).mpr (.inr ⟨_, _, rfl, hprocess, rfl⟩)
  rw [hsum] at hends hends'
  obtain ⟨moves, hpath, -, htalk⟩ := ends_iff_path.mp hends
  obtain ⟨moves', hpath', -, htalk'⟩ := ends_iff_path.mp hends'
  have hheard : receivedFrom 1 (talkOf moves) = [⟨.macCheck 4, [reveal]⟩] := by
    rw [talkOf, htalk, receivedFrom_exchange, if_pos (by decide)]
    rfl
  have hheard' : receivedFrom 1 (talkOf moves') = [⟨.macCheck 4, [reveal, []]⟩] := by
    rw [talkOf, htalk', receivedFrom_exchange, if_pos (by decide)]
  refine ⟨hv, moves, moves', _, _, _, hpath, rfl, hheard, hpath', rfl, hheard', ?_⟩
  exact (hv.binding hpath rfl rfl hpath' rfl rfl).imp (fun h => h.2.1) id

end Revealing
end AuthenticatedMpc
