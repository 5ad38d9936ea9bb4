import AuthenticatedMpc.Proofs.MacCheck.Acceptance
import AuthenticatedMpc.Proofs.MacCheck.Turns
import AuthenticatedMpc.Proofs.MacCheck.Vigilance
import AuthenticatedMpc.Proofs.Rounds.Saying

/-!
# What the slices of a MAC check say

A slice with a gate that talks says one packet, a commitment or a reveal, and when it has been
evaluated it has made one exchange. Whatever the transport does, the exchanges of a drive are
commitments and what opens them in turn.
-/

namespace AuthenticatedMpc

/-! ## What a slice says -/

variable {me : Party} {exchanges : List (PartyId → Packet)} {own : Packet} {past : List Move}
  {desk : Desk Unit}

theorem CommitGate.meets_collect {commitment : Commitment} {parties : List PartyId}
    (hparties : ∀ q ∈ parties, q < me.parties) (h : Bench.Reads me exchanges own past desk.rounds) :
    (collect me commitment parties).Meets
      ((Terms.saying me exchanges own).contract Desk.board fun _ now desk' =>
        Bench.Reads me exchanges own now desk'.rounds) past desk := by
  induction parties generalizing past desk with
  | nil =>
    obtain ⟨heard, used, chronicle, hreading⟩ := h
    exact ⟨hreading.standing.saying, heard, used, chronicle, hreading⟩
  | cons party parties ih =>
    obtain ⟨hparty, hparties⟩ := List.forall_mem_cons.mp hparties
    have hrest : ∀ {first : Commitment} {past : List Move} {desk : Desk Unit},
        Bench.Reads me exchanges own past desk.rounds →
        (do let others ← collect me commitment parties
            pure (first :: others)).Meets
          ((Terms.saying me exchanges own).contract Desk.board fun _ now desk' =>
            Bench.Reads me exchanges own now desk'.rounds) past desk := by
      intro first past desk hreads
      refine (ih hparties hreads).bind_terms ?_
      rintro others now desk' ⟨heard, used, chronicle, hreading⟩
      exact ⟨hreading.standing.saying, heard, used, chronicle, hreading⟩
    rw [collect]
    by_cases hme : party = me.id
    · rw [if_pos hme]
      exact hrest h
    · rw [if_neg hme]
      obtain ⟨heard, used, chronicle, hreading⟩ := h
      have hbuffer : (RoundBuffer.receive me.id party).Meets
          ((Terms.saying me exchanges own).contract (fun _ => desk.board) fun _ now rounds =>
            Bench.Reads me exchanges own now rounds) past desk.rounds := by
        refine (hreading.meets_receive Terms.suits_saying trivial
          (Party.mem_peers.mpr ⟨hparty, hme⟩)).mono_terms ?_
        rintro payload now rounds ⟨heard', packet, -, -, -, hreading'⟩
        exact ⟨heard', _, chronicle, hreading'⟩
      have hreceive : (Desk.receive me party).Meets
          ((Terms.saying me exchanges own).contract Desk.board fun _ now desk' =>
            Bench.Reads me exchanges own now desk'.rounds) past desk := .zoom hbuffer
      refine hreceive.bind_terms ?_
      rintro message past desk ⟨heard, used, chronicle, hreading⟩
      cases (Commitment.ofBytes message).mapError Error.encoding with
      | error error => exact ⟨hreading.standing.saying, trivial⟩
      | ok first => exact hrest ⟨heard, used, chronicle, hreading⟩

namespace CheckGate

variable {phase : Phase}

theorem meets_process_commit {commitment : Commitment} (h : Exchanged me exchanges past) :
    (Bench.process me).Meets
      ((Terms.saying me exchanges ⟨phase, [commitment.digest]⟩).contract Bench.board
        fun _ now _ => Saying me exchanges ⟨phase, [commitment.digest]⟩ now) past
      ⟨[⟨CheckGate.commit ⟨commitment, []⟩, false⟩],
        { desk with rounds := .start phase me.parties }⟩ := by
  refine Bench.meets_process_saying rfl ?_ rfl h
  intro now desk hreads
  rw [evaluate_commit, CommitGate.evaluate, if_neg Nat.one_ne_zero, bind_assoc]
  refine (CommitGate.meets_collect (fun q => List.mem_range.mp) hreads).bind_terms ?_
  rintro commitments now desk' hreads
  have hsaying : Saying me exchanges ⟨phase, [commitment.digest]⟩ now := by
    obtain ⟨heard, used, chronicle, hreading⟩ := hreads
    exact hreading.standing.saying
  exact ⟨hsaying, rfl, hreads⟩

theorem meets_process_decommit {own : Element} {nonce : Nonce} {commitments : List Commitment}
    (h : Exchanged me exchanges past) :
    (Bench.process me).Meets
      ((Terms.saying me exchanges ⟨phase, [Commitment.reveal own nonce]⟩).contract Bench.board
        fun _ now _ => Saying me exchanges ⟨phase, [Commitment.reveal own nonce]⟩ now) past
      ⟨[⟨CheckGate.decommit ⟨own, nonce, commitments, none⟩, false⟩],
        { desk with rounds := .start phase me.parties }⟩ := by
  refine Bench.meets_process_saying rfl ?_ rfl h
  rintro now desk ⟨heard, used, chronicle, hreading⟩
  rw [evaluate_decommit, DecommitGate.evaluate, if_neg Nat.one_ne_zero, bind_assoc]
  refine (hreading.meets_gather Terms.suits_saying trivial (List.Subset.refl _) Party.nodup_peers
    fun _ _ _ _ _ _ _ _ => trivial).bind_terms ?_
  rintro sum now _ ⟨heard', rounds, value, -, rfl, -, -, hreading'⟩
  exact ⟨hreading'.standing.saying, rfl, heard', _, chronicle, hreading'⟩

end CheckGate
/-! ## The exchanges of a drive -/

def Turn.length? (turn : Turn) : Option Nat :=
  match turn.gates with
  | [.commit _] => some 32
  | [.decommit _] => some 48
  | _ => none

/-- The exchanges that turns have made: one for each gate that talks. -/
inductive Conversed (me : Party) (number : UInt64) : List Turn → List (PartyId → Packet) → Prop
  | nil : Conversed me number [] []
  | commit {turns : List Turn} {exchanges : List (PartyId → Packet)} (stage : Stage)
      (own : Commitment) (others : PartyId → Commitment)
      (rest : Conversed me number turns exchanges) :
      Conversed me number (⟨stage, [.commit ⟨own, me.placed own others⟩]⟩ :: turns)
        ((fun q => ⟨.macCheck number, [if q = me.id then own.digest else (others q).digest]⟩) ::
          exchanges)
  | decommit {turns : List Turn} {exchanges : List (PartyId → Packet)} (stage : Stage)
      (own : Element) (nonce : Nonce) (commitments : List Commitment) (sum : Element)
      {value : PartyId → Element} {nonces : PartyId → Nonce}
      (hopens : ∀ q ∈ me.peers, value q < me.modulus.value ∧
        commitments[q]? = some (.commit (value q) (nonces q)))
      (rest : Conversed me number turns exchanges) :
      Conversed me number (⟨stage, [.decommit ⟨own, nonce, commitments, some sum⟩]⟩ :: turns)
        ((fun q => ⟨.macCheck number, [if q = me.id then Commitment.reveal own nonce
          else Commitment.reveal (value q) (nonces q)]⟩) :: exchanges)
  | silent {turns : List Turn} {exchanges : List (PartyId → Packet)} {turn : Turn}
      (hturn : turn.length? = none) (rest : Conversed me number turns exchanges) :
      Conversed me number (turn :: turns) exchanges

section Conversed

variable {me : Party} {number : UInt64} {records : List Record} {config : Config}
  {turns turns' : List Turn} {exchanges exchanges' : List (PartyId → Packet)} {check : MacCheck}

theorem Conversed.append (h : Conversed me number turns exchanges)
    (h' : Conversed me number turns' exchanges') :
    Conversed me number (turns ++ turns') (exchanges ++ exchanges') := by
  induction h with
  | nil => exact h'
  | commit stage own others _ ih => exact .commit stage own others ih
  | decommit stage own nonce commitments sum hopens _ ih =>
    exact .decommit stage own nonce commitments sum hopens ih
  | silent hturn _ ih => exact .silent hturn ih

theorem Conversed.single (h : Conversed me number turns exchanges) :
    ∀ packets ∈ exchanges, ∀ q,
      (packets q).phase = .macCheck number ∧ (packets q).messages.length = 1 := by
  induction h with
  | nil => simp
  | commit | decommit => simpa
  | silent _ _ ih => exact ih

theorem Conversed.lengths (h : Conversed me number turns exchanges) :
    exchanges.map (fun packets => (packets me.id).message.length) =
      turns.filterMap Turn.length? := by
  induction h with
  | nil => rfl
  | @commit _ _ stage own others _ ih =>
    have hturn : Turn.length? ⟨stage, [.commit ⟨own, me.placed own others⟩]⟩ = some 32 := rfl
    rw [List.map_cons, ih, List.filterMap_cons_some hturn]
    simp [Packet.message, own.length_digest]
  | @decommit _ _ stage own nonce commitments sum _ _ _ _ ih =>
    have hturn : Turn.length? ⟨stage, [.decommit ⟨own, nonce, commitments, some sum⟩]⟩ = some 48 :=
      rfl
    rw [List.map_cons, ih, List.filterMap_cons_some hturn]
    simp [Packet.message, Commitment.length_reveal, Commitment.revealLength, Limbs.byteLength]
  | @silent _ _ turn hturn _ ih => rw [ih, List.filterMap_cons_none hturn]

/-- What the packets of a peer are, in their order: commitments and what opens them. -/
structure Alternates (p : Modulus) (heard : List Packet) : Prop where
  commits : ∀ k packet, heard[2 * k]? = some packet → packet.message.length = 32
  opens : ∀ k commitment reveal, heard[2 * k]? = some commitment →
    heard[2 * k + 1]? = some reveal → Opens p commitment reveal

theorem alternates_nil (p : Modulus) : Alternates p [] := ⟨by simp, by simp⟩

theorem alternates_singleton {p : Modulus} {packet : Packet} (h : packet.message.length = 32) :
    Alternates p [packet] := by
  refine ⟨?_, ?_⟩
  · rintro (_ | k) other hother
    · cases hother
      exact h
    · simp at hother
  · rintro (_ | k) commitment reveal hcommitment hreveal
    · simp at hreveal
    · simp at hcommitment

theorem Alternates.cons {p : Modulus} {commitment reveal : Packet} {heard : List Packet}
    (hopens : Opens p commitment reveal) (h : Alternates p heard) :
    Alternates p (commitment :: reveal :: heard) := by
  refine ⟨?_, ?_⟩
  · rintro (_ | k) packet hpacket
    · cases hpacket
      exact hopens.length_commitment
    · exact h.commits k packet (by simpa [Nat.mul_add] using hpacket)
  · rintro (_ | k) first second hfirst hsecond
    · cases hfirst
      cases hsecond
      exact hopens
    · exact h.opens k first second (by simpa [Nat.mul_add] using hfirst)
        (by simpa [Nat.mul_add] using hsecond)

theorem Turn.length?_accumulate {α : Type} (stage : Stage) (part : α → AccumulateGate)
    (items : List α) : length? ⟨stage, items.map fun item => .accumulate (part item)⟩ = none := by
  match items with
  | [] => rfl
  | [_] => rfl
  | _ :: _ :: _ => rfl

theorem Turn.length?_compressingTurn (combiner : Element) (chunks : List (List Record)) :
    (compressingTurn me combiner chunks).length? = none :=
  length?_accumulate ..

theorem Conversed.eq_nil (h : Conversed me number [] exchanges) : exchanges = [] := by
  cases h with
  | nil => rfl

theorem Conversed.of_silent {turn : Turn} (hturn : turn.length? = none)
    (h : Conversed me number (turn :: turns) exchanges) : Conversed me number turns exchanges := by
  cases h with
  | commit | decommit => cases hturn
  | silent _ rest => exact rest

theorem Conversed.of_compressing {combiner : Element} {slices : List (List (List Record))}
    (h : Conversed me number (slices.map (compressingTurn me combiner) ++ turns) exchanges) :
    Conversed me number turns exchanges := by
  induction slices with
  | nil => exact h
  | cons chunks slices ih => exact ih (h.of_silent (Turn.length?_compressingTurn combiner chunks))

theorem Conversed.of_commit {stage : Stage} {own : Commitment} {commitments : List Commitment}
    (h : Conversed me number (⟨stage, [.commit ⟨own, commitments⟩]⟩ :: turns) exchanges) :
    ∃ packets exchanges', exchanges = packets :: exchanges' ∧
      (∀ q, (packets q).message.length = 32) ∧ Conversed me number turns exchanges' := by
  cases h with
  | commit stage own others rest =>
    refine ⟨_, _, rfl, ?_, rest⟩
    intro q
    by_cases hme : q = me.id
    · simp [Packet.message, hme, own.length_digest]
    · simp [Packet.message, hme, (others q).length_digest]
  | silent hturn => cases hturn

/-- The two turns of a revealed value have made two exchanges, of which the second opens the first. -/
theorem Conversed.of_exchangeTurns {first second : Stage} {own sum : Element} {nonce : Nonce}
    {commitments : List Commitment}
    (h : Conversed me number
      (exchangeTurns first second own nonce commitments sum ++ turns) exchanges) :
    ∃ committed revealed exchanges', exchanges = committed :: revealed :: exchanges' ∧
      (∀ q ∈ me.peers, Opens me.modulus (committed q) (revealed q)) ∧
      Conversed me number turns exchanges' := by
  change Conversed me number (⟨first, [.commit ⟨.commit own nonce, commitments⟩]⟩ ::
    ⟨second, [.decommit ⟨own, nonce, commitments, some sum⟩]⟩ :: turns) exchanges at h
  cases h with
  | silent hturn => cases hturn
  | commit _ _ others rest =>
    cases rest with
    | silent hturn => cases hturn
    | @decommit _ _ _ _ _ _ _ value nonces hopens rest =>
      refine ⟨_, _, _, rfl, ?_, rest⟩
      intro q hq
      obtain ⟨hvalue, hcommitment⟩ := hopens q hq
      rw [Party.getElem?_placed hq] at hcommitment
      obtain hcommitment := Option.some.inj hcommitment
      have hne : q ≠ me.id := (Party.mem_peers.mp hq).2
      rw [if_neg hne, if_neg hne, hcommitment]
      exact (opens_iff.mpr ⟨(value q, nonces q), hvalue, rfl⟩).2.2

/-- Wherever a check stands, the packets of every peer are commitments and what opens them. -/
theorem Reached.alternates (reached : Reached me number records config turns check)
    (h : Conversed me number turns exchanges) {q : PartyId} (hq : q ∈ me.peers) :
    Alternates me.modulus (exchanges.map (· q)) := by
  have hpassage : ∀ {passage : Passage} {more : List Turn},
      Conversed me number (passage.turns me ++ more) exchanges →
      ∃ committed revealed exchanges', exchanges = committed :: revealed :: exchanges' ∧
        Opens me.modulus (committed q) (revealed q) ∧ Conversed me number more exchanges' := by
    intro passage more hmore
    rw [Passage.turns, List.append_assoc] at hmore
    obtain ⟨committed, revealed, exchanges', hexchanges, hopens, hrest⟩ := hmore.of_exchangeTurns
    exact ⟨committed, revealed, exchanges', hexchanges, hopens q hq, hrest.of_compressing⟩
  cases reached with
  | idle =>
    rw [h.eq_nil]
    exact alternates_nil _
  | committed hown nonce commitments =>
    obtain ⟨packets, exchanges', rfl, hpackets, hrest⟩ := h.of_commit
    rw [hrest.eq_nil]
    exact alternates_singleton (hpackets q)
  | compressing passage | compressed passage =>
    rw [← List.append_nil (passage.turns me)] at h
    obtain ⟨committed, revealed, exchanges', rfl, hopens, hrest⟩ := hpassage h
    rw [hrest.eq_nil]
    exact (alternates_nil _).cons hopens
  | recommitted passage covers nonce commitments =>
    obtain ⟨committed, revealed, exchanges', rfl, hopens, hrest⟩ := hpassage h
    obtain ⟨packets, exchanges', rfl, hpackets, hrest⟩ := hrest.of_commit
    rw [hrest.eq_nil]
    exact (alternates_singleton (hpackets q)).cons hopens
  | ended passage covers nonce commitments sum =>
    obtain ⟨committed, revealed, exchanges', rfl, hopens, hrest⟩ := hpassage h
    rw [← List.append_nil (exchangeTurns ..)] at hrest
    obtain ⟨committed', revealed', exchanges', rfl, hopens', hrest⟩ := hrest.of_exchangeTurns
    rw [hrest.eq_nil]
    exact ((alternates_nil _).cons (hopens' q hq)).cons hopens

theorem Reached.lengths (reached : Reached me number records config turns check) :
    turns.filterMap Turn.length? <+: [32, 48, 32, 48] := by
  have hpassage : ∀ passage : Passage,
      (passage.turns me).filterMap Turn.length? = [32, 48] := by
    intro passage
    have hslices : (passage.slices.map (compressingTurn me passage.combiner)).filterMap
        Turn.length? = [] := by
      rw [List.filterMap_map]
      exact List.filterMap_eq_nil_iff.mpr fun chunks _ =>
        Turn.length?_compressingTurn passage.combiner chunks
    rw [Passage.turns, List.filterMap_append, hslices]
    rfl
  cases reached with
  | idle => exact List.nil_prefix
  | committed => exact ⟨[48, 32, 48], rfl⟩
  | compressing passage | compressed passage =>
    rw [hpassage]
    exact ⟨[32, 48], rfl⟩
  | recommitted passage =>
    rw [List.filterMap_append, hpassage]
    exact ⟨[48], rfl⟩
  | ended passage =>
    rw [List.filterMap_append, hpassage]
    exact ⟨[], rfl⟩

end Conversed

/-! ## What evaluating a slice says -/

namespace CheckGate

variable {number : UInt64} {phase : Phase} {gates : List CheckGate}

/-- Evaluating a slice says no more than the packet of its gate, if that talks. -/
theorem IsSlice.meets_process (hslice : IsSlice gates) (h : Exchanged me exchanges past)
    (bench : Bench CheckGate Unit) :
    ∃ told : List Packet,
      (∀ packet ∈ told, packet.phase = phase ∧ packet.messages.length = 1) ∧
      told.length ≤ 1 ∧
      (∀ stage evaluated, List.Forall₂ (Evaluates me) gates evaluated →
        (Turn.length? ⟨stage, evaluated⟩).toList = told.map (·.message.length)) ∧
      (Bench.process me).Meets
        { during := fun now _ => ∀ q ∈ me.peers,
            sentTo q (talkOf now) <+: exchanges.map (· me.id) ++ told
          returns := fun _ _ _ => True
          fails := fun _ _ _ => True } past (bench.load gates phase me.parties) := by
  cases hslice with
  | commit commitment =>
    refine ⟨[⟨phase, [commitment.digest]⟩], by simp, le_rfl, ?_, ?_⟩
    · intro stage evaluated hevaluated
      obtain ⟨commitments, -, rfl⟩ := forall₂_evaluates_commit hevaluated
      simp [Turn.length?, Packet.message, commitment.length_digest]
    · exact (meets_process_commit h).mono (fun _ _ => id) (fun _ _ _ _ _ => trivial)
        fun _ _ _ _ => id
  | decommit own nonce commitments =>
    refine ⟨[⟨phase, [Commitment.reveal own nonce]⟩], by simp, le_rfl, ?_, ?_⟩
    · intro stage evaluated hevaluated
      obtain ⟨sum, -, rfl⟩ := forall₂_evaluates_decommit hevaluated
      simp [Turn.length?, Packet.message, Commitment.length_reveal, Commitment.revealLength,
        Limbs.byteLength]
    · exact (meets_process_decommit h).mono (fun _ _ => id) (fun _ _ _ _ _ => trivial)
        fun _ _ _ _ => id
  | @accumulate parts hne =>
    refine ⟨[], by simp, Nat.zero_le 1, ?_, ?_⟩
    · intro stage evaluated hevaluated
      obtain rfl := forall₂_evaluates_accumulate hevaluated
      rw [Turn.length?_accumulate]
      rfl
    · have hload : bench.load (parts.map .accumulate) phase me.parties =
          ⟨parts.map fun part => ⟨CheckGate.accumulate part, false⟩,
            { bench.desk with rounds := .start phase me.parties }⟩ := by
        simp [Bench.load]
      have hvigilant : (Bench.process me : Program (Bench CheckGate Unit) Nat).Vigilant
          fun _ => True := (CheckGate.vigilant_process fun _ _ _ => trivial).anyError
      rw [hload]
      refine (@Program.Vigilant.meets _ _ _ _ _ _ _ _ _ _ (fun _ => True) hvigilant
        (Verifier.ends_process_accumulate hne bench.desk phase me.parties) ?_).mono ?_
        (fun _ _ _ _ _ => trivial) fun _ _ _ _ _ => trivial
      · intro peer now front packet back heard _ htalk
        simp [receivedFrom] at htalk
      · intro now _ hnow q hq
        rw [← h.sentTo q hq, List.append_nil]
        simpa [sentTo] using hnow q

theorem IsSlice.conversed (hslice : IsSlice gates) {bench bench' : Bench CheckGate Unit}
    {talk : List Signal} {rounds : Nat} (stage : Stage)
    (hprocess : (Bench.process me).Ends (bench.load gates (.macCheck number) me.parties) talk
      (.ok rounds) bench') :
    ∃ more, talk = conversation me more ∧ Conversed me number [⟨stage, bench'.gates⟩] more := by
  cases hslice with
  | commit commitment =>
    obtain ⟨-, others, rfl, rfl⟩ := ends_process_commit.mp hprocess
    refine ⟨_, ?_, .commit stage commitment others .nil⟩
    rw [conversation, List.flatMap_singleton]
    beta_reduce
    rw [if_pos rfl]
    exact exchange_congr fun q hq => by rw [if_neg (Party.mem_peers.mp hq).2]
  | decommit own nonce commitments =>
    obtain ⟨-, value, nonces, rfl, hopens, rfl⟩ := ends_process_decommit.mp hprocess
    refine ⟨_, ?_, .decommit stage own nonce commitments _ hopens .nil⟩
    rw [conversation, List.flatMap_singleton]
    beta_reduce
    rw [if_pos rfl]
    exact exchange_congr fun q hq => by rw [if_neg (Party.mem_peers.mp hq).2]
  | @accumulate parts hne =>
    have hload : bench.load (parts.map .accumulate) (.macCheck number) me.parties =
        ⟨parts.map fun part => ⟨CheckGate.accumulate part, false⟩,
          { bench.desk with rounds := .start (.macCheck number) me.parties }⟩ := by
      simp [Bench.load]
    rw [hload] at hprocess
    obtain ⟨rfl, -, rfl⟩ := hprocess.unique
      (Verifier.ends_process_accumulate hne bench.desk (.macCheck number) me.parties)
      (List.append_nil _)
    refine ⟨[], rfl, .silent ?_ .nil⟩
    rw [Bench.gates, List.map_map]
    exact Turn.length?_accumulate ..

end CheckGate

end AuthenticatedMpc
