import AuthenticatedMpc.MacCheck.Gates
import AuthenticatedMpc.Proofs.Field.Arithmetic
import AuthenticatedMpc.Proofs.Rounds.Exchange

/-!
# Commitments and reveals

A commit gate and a decommit gate make one exchange each. The first ends well exactly if every peer
sends one message that is a commitment, the second exactly if every peer sends one message that
opens its commitment to a reduced value.
-/

namespace AuthenticatedMpc

theorem Nonce.ofBytes?_eq_some_iff {bytes : Payload} {nonce : Nonce} :
    ofBytes? bytes = some nonce ↔ bytes = nonce.bytes := by
  unfold ofBytes?
  split
  · cases nonce; simp
  · next hlen => exact ⟨nofun, fun h => absurd (h ▸ nonce.length_bytes) hlen⟩

instance : Inhabited Nonce := ⟨⟨List.replicate 32 0, rfl⟩⟩

namespace Commitment

theorem ofBytes_eq_ok_iff {bytes : Payload} {commitment : Commitment} :
    ofBytes bytes = .ok commitment ↔ bytes = commitment.digest := by
  unfold ofBytes
  split
  · cases commitment; simp
  · next hlen => exact ⟨nofun, fun h => absurd (h ▸ commitment.length_digest) hlen⟩

theorem verify_iff {commitment : Commitment} {value : Element} {nonce : Nonce} :
    commitment.verify value nonce = true ↔ commitment = commit value nonce := by
  rw [verify, beq_iff_eq, eq_comm]

theorem length_reveal (value : Element) (nonce : Nonce) :
    (reveal value nonce).length = revealLength := by
  rw [reveal, List.length_append, value.length_toBytes, nonce.length_bytes, revealLength]

theorem reveal_inj {value value' : Element} {nonce nonce' : Nonce} :
    reveal value nonce = reveal value' nonce' ↔ value = value' ∧ nonce = nonce' := by
  refine ⟨fun h => ?_, fun ⟨hvalue, hnonce⟩ => hvalue ▸ hnonce ▸ rfl⟩
  obtain ⟨hvalue, hnonce⟩ := List.append_inj h (by rw [value.length_toBytes, value'.length_toBytes])
  refine ⟨Limbs.toNat_inj.mp ?_, by cases nonce; cases nonce'; simpa using hnonce⟩
  rw [← value.bigEndian_toBytes, hvalue, value'.bigEndian_toBytes]

end Commitment

namespace DecommitGate

theorem parse_eq_ok_iff {p : Modulus} {payload : Payload} {value : Element} {nonce : Nonce} :
    parse p payload = .ok (value, nonce) ↔
      payload = Commitment.reveal value nonce ∧ value < p.value := by
  have hsplit : payload = Commitment.reveal value nonce ↔
      payload.take (Limbs.byteLength 2) = value.toBytes ∧
        payload.drop (Limbs.byteLength 2) = nonce.bytes := by
    rw [Commitment.reveal, ← value.length_toBytes]
    constructor
    · rintro rfl
      exact ⟨List.take_left .., List.drop_left ..⟩
    · rintro ⟨htake, hdrop⟩
      rw [← htake, ← hdrop, List.take_append_drop]
  rw [hsplit, and_right_comm, ← Modulus.decode_eq_ok_iff, ← Nonce.ofBytes?_eq_some_iff]
  unfold parse
  cases hnonce : Nonce.ofBytes? (payload.drop (Limbs.byteLength 2)) with
  | none => simp
  | some read =>
    cases hvalue : p.decode (payload.take (Limbs.byteLength 2)) with
    | error => simp
    | ok read => simp

/-- A reveal is accepted exactly if it opens the commitment of its peer to a reduced value. -/
theorem openPeer_eq_ok_iff {p : Modulus} {commitments : List Commitment} {peer : PartyId}
    {payload : Payload} {value : Element} :
    openPeer p commitments peer payload = .ok value ↔
      ∃ nonce, payload = Commitment.reveal value nonce ∧ value < p.value ∧
        commitments[peer]? = some (.commit value nonce) := by
  unfold openPeer
  cases hparse : parse p payload with
  | error error =>
    refine ⟨nofun, ?_⟩
    rintro ⟨nonce, hpayload, hlt, -⟩
    rw [parse_eq_ok_iff.mpr ⟨hpayload, hlt⟩] at hparse
    cases hparse
  | ok read =>
    obtain ⟨read, nonce⟩ := read
    obtain ⟨rfl, hlt⟩ := parse_eq_ok_iff.mp hparse
    cases hcommitment : commitments[peer]? with
    | none => simp
    | some commitment =>
      simp only [Option.some.injEq, ← Commitment.verify_iff, Commitment.reveal_inj]
      split
      · next hverify =>
        rw [Except.ok.injEq]
        refine ⟨?_, fun ⟨_, ⟨h, _⟩, _⟩ => h⟩
        rintro rfl
        exact ⟨nonce, ⟨rfl, rfl⟩, hlt, hverify⟩
      · next hverify =>
        refine ⟨nofun, ?_⟩
        rintro ⟨_, ⟨rfl, rfl⟩, -, h⟩
        exact absurd h hverify

end DecommitGate

/-! ## The runs of the gates -/

theorem exchange_congr {me : Party} {packet : Packet} {packets packets' : PartyId → Packet}
    (h : ∀ q ∈ me.peers, packets q = packets' q) :
    exchange me packet packets = exchange me packet packets' := by
  unfold exchange
  congr 1
  exact List.map_congr_left fun q hq => by rw [h q hq]

/-- A list of one entry per party: the own one, and those of the peers. -/
def Party.placed {α : Type} (me : Party) (own : α) (others : PartyId → α) : List α :=
  (List.range me.parties).map fun q => if q = me.id then own else others q

theorem Party.placed_ne_nil {α : Type} {me : Party} {own : α} {others : PartyId → α} :
    me.placed own others ≠ [] := by
  intro hnil
  have hlength := congrArg List.length hnil
  rw [placed, List.length_map, List.length_range, List.length_nil] at hlength
  have hparties := me.two_le_parties
  omega

namespace CommitGate

variable {W : Type} {me : Party} {phase : Phase} {n : Nat} {out held : PartyId → List Payload}
  {fetched : PartyId → Bool} {desk desk' : Desk W} {talk : List Signal}

theorem ends_collect_peer {own : Commitment} {q : PartyId} {parties : List PartyId} (hq : q < n)
    (hme : q ≠ me.id) (hheld : held q = []) (hfetched : fetched q = false)
    {commitments : List Commitment} :
    (collect me own (q :: parties)).Ends { desk with rounds := .of phase n out held fetched } talk
        (.ok commitments) desk' ↔
      ∃ (first : Commitment) (rest : List Payload) (back : List Signal) (others : List Commitment),
        talk = .received q ⟨phase, first.digest :: rest⟩ :: back ∧ commitments = first :: others ∧
        (collect me own parties).Ends
          { desk with
            rounds := .of phase n out (Function.update held q rest)
              (Function.update fetched q true) } back (.ok others) desk' := by
  rw [collect, if_neg hme, Program.ends_bind_ok]
  constructor
  · rintro ⟨message, _, _, _, rfl, hreceive, h⟩
    obtain ⟨rest, rfl, rfl⟩ := (Desk.ends_receive_fresh hq hme hheld hfetched).mp hreceive
    obtain ⟨first, hread, h⟩ := Program.ends_ofExcept_bind_ok.mp h
    obtain ⟨others, _, back, _, rfl, hcollect, rfl, hvalue, rfl⟩ := Program.ends_bind_ok.mp h
    cases hvalue
    obtain rfl := Commitment.ofBytes_eq_ok_iff.mp (mapError_eq_ok_iff.mp hread)
    exact ⟨first, rest, back, others, by rw [List.append_nil]; rfl, rfl, hcollect⟩
  · rintro ⟨first, rest, back, others, rfl, rfl, hcollect⟩
    have hread : (Commitment.ofBytes first.digest).mapError Error.encoding = .ok first :=
      mapError_eq_ok_iff.mpr (Commitment.ofBytes_eq_ok_iff.mpr rfl)
    refine ⟨_, _, _, _, rfl,
      (Desk.ends_receive_fresh hq hme hheld hfetched).mpr ⟨rest, rfl, rfl⟩,
      Program.ends_ofExcept_bind_ok.mpr ⟨first, hread, ?_⟩⟩
    rw [← List.append_nil back]
    exact hcollect.bind ⟨rfl, rfl, rfl⟩

/-- Collecting the commitments of parties takes one packet of each that is a peer. -/
theorem ends_collect {own : Commitment} {parties : List PartyId}
    (hparties : ∀ q ∈ parties, q < n) (hnodup : parties.Nodup)
    (hheld : ∀ q ∈ parties, held q = []) (hfetched : ∀ q ∈ parties, fetched q = false)
    {commitments : List Commitment} :
    (collect me own parties).Ends { desk with rounds := .of phase n out held fetched } talk
        (.ok commitments) desk' ↔
      ∃ (commitment : PartyId → Commitment) (rest : PartyId → List Payload),
        talk = (parties.filter (· != me.id)).map (fun q =>
          .received q ⟨phase, (commitment q).digest :: rest q⟩) ∧
        commitments = parties.map (fun q => if q = me.id then own else commitment q) ∧
        desk' = { desk with
          rounds := .of phase n out
            (fun q => if q ∈ parties.filter (· != me.id) then rest q else held q)
            fun q => decide (q ∈ parties.filter (· != me.id)) || fetched q } := by
  induction parties generalizing talk held fetched commitments desk' with
  | nil =>
    simp only [collect, Program.ends_pure, Except.ok.injEq]
    constructor
    · rintro ⟨rfl, rfl, rfl⟩
      exact ⟨fun _ => own, fun _ => [], rfl, rfl, by simp⟩
    · rintro ⟨_, _, rfl, rfl, rfl⟩
      exact ⟨rfl, rfl, by simp⟩
  | cons q parties ih =>
    obtain ⟨hq, hparties⟩ := List.forall_mem_cons.mp hparties
    obtain ⟨hnotin, hnodup⟩ := List.nodup_cons.mp hnodup
    obtain ⟨hheldq, hheld⟩ := List.forall_mem_cons.mp hheld
    obtain ⟨hfetchedq, hfetched⟩ := List.forall_mem_cons.mp hfetched
    have hne : ∀ x ∈ parties, x ≠ q := fun x hx h => hnotin (h ▸ hx)
    by_cases hme : q = me.id
    · rw [collect, if_pos hme, List.filter_cons_of_neg (by simp [hme]), Program.ends_bind_ok]
      simp only [ih hparties hnodup hheld hfetched, List.map_cons, if_pos hme]
      constructor
      · rintro ⟨_, _, _, _, rfl, ⟨commitment, rest, rfl, rfl, rfl⟩, rfl, hvalue, rfl⟩
        cases hvalue
        exact ⟨commitment, rest, List.append_nil _, rfl, rfl⟩
      · rintro ⟨commitment, rest, rfl, rfl, rfl⟩
        exact ⟨_, _, _, [], (List.append_nil _).symm, ⟨commitment, rest, rfl, rfl, rfl⟩, rfl, rfl,
          rfl⟩
    · have hupdate : ∀ x ∈ parties, Function.update fetched q true x = false := fun x hx => by
        rw [Function.update_of_ne (hne x hx), hfetched x hx]
      have hempty : ∀ rest, ∀ x ∈ parties, Function.update held q rest x = [] :=
        fun rest x hx => by rw [Function.update_of_ne (hne x hx), hheld x hx]
      rw [ends_collect_peer hq hme hheldq hfetchedq, List.filter_cons_of_pos (by simp [hme])]
      constructor
      · rintro ⟨first, rest₀, _, _, rfl, rfl, hcollect⟩
        obtain ⟨commitment, rest, rfl, rfl, rfl⟩ :=
          (ih hparties hnodup (hempty rest₀) hupdate).mp hcollect
        have hfilter : ∀ x ∈ parties.filter (· != me.id), x ≠ q :=
          fun x hx => hne x (List.mem_filter.mp hx).1
        refine ⟨Function.update commitment q first, Function.update rest q rest₀, ?_, ?_, ?_⟩
        · simp only [List.map_cons, Function.update_self]
          refine congrArg _ (List.map_congr_left fun x hx => ?_)
          simp only [Function.update_of_ne (hfilter x hx)]
        · rw [List.map_cons, if_neg hme, Function.update_self]
          refine congrArg _ (List.map_congr_left fun x hx => ?_)
          rw [Function.update_of_ne (hne x hx)]
        · rw [RoundBuffer.mem_cons_or,
            RoundBuffer.ite_mem_cons_update fun hmem => hfilter q hmem rfl]
      · rintro ⟨commitment, rest, rfl, rfl, rfl⟩
        have hcollect := (ih hparties hnodup (hempty (rest q)) hupdate).mpr
          ⟨commitment, rest, rfl, rfl, rfl⟩
        rw [List.map_cons, List.map_cons, if_neg hme, RoundBuffer.mem_cons_or,
          RoundBuffer.ite_mem_cons _ _ (rest q) rfl]
        exact ⟨commitment q, rest q, _, _, rfl, rfl, hcollect⟩

theorem ends_collect_all {own : Commitment} {commitments : List Commitment} :
    (collect me own (List.range me.parties)).Ends { desk with rounds := .start phase me.parties }
        talk (.ok commitments) desk' ↔
      ∃ (commitment : PartyId → Commitment) (rest : PartyId → List Payload),
        talk = me.peers.map (fun q => .received q ⟨phase, (commitment q).digest :: rest q⟩) ∧
        commitments = me.placed own commitment ∧ desk' = desk.afterReading me phase rest := by
  rw [RoundBuffer.start_eq_of, ends_collect (fun _ => List.mem_range.mp) List.nodup_range
    (fun _ _ => rfl) fun _ _ => rfl]
  simp only [Bool.or_false]
  rfl

end CommitGate

namespace CheckGate

variable {me : Party} {phase : Phase} {desk : Desk Unit} {talk : List Signal} {rounds : Nat}
  {bench : Bench CheckGate Unit}

theorem evaluate_commit {round : Nat} {gate : CommitGate} :
    (Gate.evaluate me round (commit gate) : Program (Desk Unit) _) = (do
      let result ← gate.evaluate me round
      pure (commit result.1, result.2)) := rfl

theorem evaluate_decommit {round : Nat} {gate : DecommitGate} :
    (Gate.evaluate me round (decommit gate) : Program (Desk Unit) _) = (do
      let result ← gate.evaluate me round
      pure (decommit result.1, result.2)) := rfl

theorem ends_process_commit {own : Commitment} :
    (Bench.process me).Ends
        ⟨[⟨.commit ⟨own, []⟩, false⟩], { desk with rounds := .start phase me.parties }⟩ talk
        (.ok rounds) bench ↔
      rounds = 2 ∧ ∃ commitment : PartyId → Commitment,
        talk = exchange me ⟨phase, [own.digest]⟩ (fun q => ⟨phase, [(commitment q).digest]⟩) ∧
        bench = ⟨[⟨.commit ⟨own, me.placed own commitment⟩, true⟩],
          { desk with rounds := .start phase me.parties }⟩ := by
  rw [@Bench.ends_process_exchange _ _ _ me phase (.commit ⟨own, []⟩) desk bench talk own.digest
    (fun answer gate => ∃ commitment : PartyId → Commitment,
      (∀ q ∈ me.peers, answer q = (commitment q).digest) ∧
        gate = .commit ⟨own, me.placed own commitment⟩) rfl]
  · refine and_congr_right fun _ => ?_
    constructor
    · rintro ⟨answer, _, rfl, ⟨commitment, hanswer, rfl⟩, rfl⟩
      exact ⟨commitment, exchange_congr fun q hq => by rw [hanswer q hq], rfl⟩
    · rintro ⟨commitment, rfl, rfl⟩
      exact ⟨fun q => (commitment q).digest, _, rfl, ⟨commitment, fun _ _ => rfl, rfl⟩, rfl⟩
  · intro heard gate' status desk'
    rw [evaluate_commit, Program.ends_bind_pure]
    constructor
    · rintro ⟨⟨_, _⟩, hvalue, h⟩
      cases hvalue
      obtain ⟨_, hvalue, hcollect⟩ := Program.ends_bind_pure.mp h
      cases hvalue
      obtain ⟨commitment, rest, rfl, rfl, rfl⟩ := CommitGate.ends_collect_all.mp hcollect
      exact ⟨fun q => (commitment q).digest, rest, rfl, ⟨commitment, fun _ _ => rfl, rfl⟩, rfl, rfl⟩
    · rintro ⟨answer, rest, rfl, ⟨commitment, hanswer, rfl⟩, rfl, rfl⟩
      refine ⟨(_, .done), rfl, Program.ends_bind_pure.mpr ⟨_, rfl,
        CommitGate.ends_collect_all.mpr ⟨commitment, rest, ?_, rfl, rfl⟩⟩⟩
      exact List.map_congr_left fun q hq => by rw [hanswer q hq]

/-- A decommit gate makes one exchange, of reveals that open the commitments of their peers to
reduced values; the sum of all values is its result. -/
theorem ends_process_decommit {own : Element} {ownNonce : Nonce} {commitments : List Commitment} :
    (Bench.process me).Ends
        ⟨[⟨.decommit ⟨own, ownNonce, commitments, none⟩, false⟩],
          { desk with rounds := .start phase me.parties }⟩ talk (.ok rounds) bench ↔
      rounds = 2 ∧ ∃ (value : PartyId → Element) (nonce : PartyId → Nonce),
        talk = exchange me ⟨phase, [Commitment.reveal own ownNonce]⟩
          (fun q => ⟨phase, [Commitment.reveal (value q) (nonce q)]⟩) ∧
        (∀ q ∈ me.peers, value q < me.modulus.value ∧
          commitments[q]? = some (.commit (value q) (nonce q))) ∧
        bench = ⟨[⟨.decommit ⟨own, ownNonce, commitments,
            some ((me.peers.map value).foldl me.modulus.add own)⟩, true⟩],
          { desk with rounds := .start phase me.parties }⟩ := by
  rw [@Bench.ends_process_exchange _ _ _ me phase (.decommit ⟨own, ownNonce, commitments, none⟩)
    desk bench talk (Commitment.reveal own ownNonce)
    (fun answer gate => ∃ (value : PartyId → Element) (nonce : PartyId → Nonce),
      (∀ q ∈ me.peers, answer q = Commitment.reveal (value q) (nonce q) ∧
        value q < me.modulus.value ∧ commitments[q]? = some (.commit (value q) (nonce q))) ∧
      gate = .decommit ⟨own, ownNonce, commitments,
        some ((me.peers.map value).foldl me.modulus.add own)⟩) rfl]
  · refine and_congr_right fun _ => ?_
    constructor
    · rintro ⟨answer, _, rfl, ⟨value, nonce, hanswer, rfl⟩, rfl⟩
      exact ⟨value, nonce, exchange_congr fun q hq => by rw [(hanswer q hq).1],
        fun q hq => (hanswer q hq).2, rfl⟩
    · rintro ⟨value, nonce, rfl, hopens, rfl⟩
      exact ⟨fun q => Commitment.reveal (value q) (nonce q), _, rfl,
        ⟨value, nonce, fun q hq => ⟨rfl, hopens q hq⟩, rfl⟩, rfl⟩
  · intro heard gate' status desk'
    rw [evaluate_decommit, Program.ends_bind_pure]
    constructor
    · rintro ⟨⟨_, _⟩, hvalue, h⟩
      cases hvalue
      obtain ⟨_, hvalue, hgather⟩ := Program.ends_bind_pure.mp h
      cases hvalue
      obtain ⟨answer, rest, value, rfl, hread, rfl, rfl⟩ := Desk.ends_gather.mp hgather
      have hopens := fun q hq => DecommitGate.openPeer_eq_ok_iff.mp (hread q hq)
      choose! nonce hnonce using hopens
      exact ⟨answer, rest, rfl, ⟨value, nonce, hnonce, rfl⟩, rfl, rfl⟩
    · rintro ⟨answer, rest, rfl, ⟨value, nonce, hanswer, rfl⟩, rfl, rfl⟩
      exact ⟨(_, .done), rfl, Program.ends_bind_pure.mpr ⟨_, rfl, Desk.ends_gather.mpr
        ⟨answer, rest, value, rfl,
          fun q hq => DecommitGate.openPeer_eq_ok_iff.mpr ⟨nonce q, hanswer q hq⟩, rfl, rfl⟩⟩⟩

end CheckGate
end AuthenticatedMpc
