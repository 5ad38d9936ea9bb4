import AuthenticatedMpc.Proofs.MacCheck.ClosedForm
import AuthenticatedMpc.Proofs.MacCheck.Verdict
import AuthenticatedMpc.Proofs.Runs.Feed

/-!
# What a MAC check accepts

A check hears four packets of every peer: a commitment to its random element, the element, a
commitment to its check value, and the value. Whether the check passes is a matter of these bytes.
-/

namespace AuthenticatedMpc

namespace Packet

variable {phase : Phase} {packet : Packet} {value : Element} {nonce : Nonce}

def message (packet : Packet) : Payload := packet.messages.headD []

def number (packet : Packet) : Nat := bigEndian (packet.message.take 16)

theorem eq_message (hphase : packet.phase = phase) (hlen : packet.messages.length = 1) :
    packet = ⟨phase, [packet.message]⟩ := by
  obtain ⟨_, messages⟩ := packet
  obtain ⟨message, rfl⟩ := List.length_eq_one_iff.mp hlen
  cases hphase
  rfl

theorem number_reveal :
    (⟨phase, [Commitment.reveal value nonce]⟩ : Packet).number = value.toNat := by
  have htake : (Commitment.reveal value nonce).take 16 = value.toBytes :=
    List.take_left' value.length_toBytes
  rw [number, message, List.headD_cons, htake, Limbs.bigEndian_toBytes]

end Packet

theorem Commitment.exists_reveal {bytes : Payload} (hlen : bytes.length = revealLength) :
    ∃ value nonce, bytes = reveal value nonce := by
  obtain ⟨value, hvalue⟩ : ∃ value : Element, bytes.take (Limbs.byteLength 2) = value.toBytes :=
    Limbs.exists_toBytes (by rw [List.length_take, hlen]; rfl)
  refine ⟨value, ⟨bytes.drop (Limbs.byteLength 2), by rw [List.length_drop, hlen]; rfl⟩, ?_⟩
  rw [reveal, ← hvalue, List.take_append_drop]

/-- The message of the second packet opens that of the first to a number below the modulus. -/
structure Opens (p : Modulus) (commitment reveal : Packet) : Prop where
  length_commitment : commitment.message.length = 32
  length_reveal : reveal.message.length = 48
  number_lt : reveal.number < p.value.toNat
  sha3_eq : Keccak.sha3 reveal.message = commitment.message

/-- Four packets of a peer, as a check accepts them. -/
structure Accepted (p : Modulus) (check : UInt64) (packets : Nat → Packet) : Prop where
  phase : ∀ k < 4, (packets k).phase = .macCheck check
  messages : ∀ k < 4, (packets k).messages.length = 1
  element : Opens p (packets 0) (packets 1)
  value : Opens p (packets 2) (packets 3)

/-- The packets that commit to a contribution and reveal it. -/
def contributing (phase : Phase) (contribution : Element × Nonce) : List Packet :=
  [⟨phase, [(Commitment.commit contribution.1 contribution.2).digest]⟩,
    ⟨phase, [Commitment.reveal contribution.1 contribution.2]⟩]

section Opens

variable {p : Modulus} {phase : Phase} {first second : Packet} {check : UInt64}
  {packets : Nat → Packet}

/-- Of packets with one message each, exactly those of a reduced contribution open. -/
theorem opens_iff :
    (first.phase = phase ∧ first.messages.length = 1) ∧
        (second.phase = phase ∧ second.messages.length = 1) ∧ Opens p first second ↔
      ∃ contribution : Element × Nonce, contribution.1 < p.value ∧
        [first, second] = contributing phase contribution := by
  constructor
  · rintro ⟨⟨hfirst, hfirst'⟩, ⟨hsecond, hsecond'⟩, h⟩
    obtain ⟨value, nonce, hreveal⟩ := Commitment.exists_reveal h.length_reveal
    have hsecond := Packet.eq_message hsecond hsecond'
    have hfirst := Packet.eq_message hfirst hfirst'
    have hlt := h.number_lt
    rw [← h.sha3_eq] at hfirst
    rw [hreveal] at hsecond hfirst
    rw [hsecond, Packet.number_reveal] at hlt
    exact ⟨(value, nonce), (Limbs.lt_iff ..).mpr hlt, by rw [hfirst, hsecond]; rfl⟩
  · rintro ⟨⟨value, nonce⟩, hlt, h⟩
    obtain ⟨rfl, hsecond⟩ := List.cons.inj h
    obtain ⟨rfl, -⟩ := List.cons.inj hsecond
    refine ⟨⟨rfl, rfl⟩, ⟨rfl, rfl⟩, Keccak.length_sha3 _, Commitment.length_reveal .., ?_, rfl⟩
    rw [Packet.number_reveal]
    exact (Limbs.lt_iff ..).mp hlt

/-- The accepted packets are those of two reduced contributions. -/
theorem accepted_iff : Accepted p check packets ↔
    ∃ element value : Element × Nonce, element.1 < p.value ∧ value.1 < p.value ∧
      [packets 0, packets 1] = contributing (.macCheck check) element ∧
      [packets 2, packets 3] = contributing (.macCheck check) value := by
  constructor
  · intro h
    have hsingle := fun k hk => And.intro (h.phase k hk) (h.messages k hk)
    obtain ⟨element, helement, hfront⟩ :=
      opens_iff.mp ⟨hsingle 0 (by decide), hsingle 1 (by decide), h.element⟩
    obtain ⟨value, hvalue, hback⟩ :=
      opens_iff.mp ⟨hsingle 2 (by decide), hsingle 3 (by decide), h.value⟩
    exact ⟨element, value, helement, hvalue, hfront, hback⟩
  · rintro ⟨element, value, helement, hvalue, hfront, hback⟩
    obtain ⟨h₀, h₁, hfront⟩ := opens_iff.mpr ⟨element, helement, hfront⟩
    obtain ⟨h₂, h₃, hback⟩ := opens_iff.mpr ⟨value, hvalue, hback⟩
    have hsingle : ∀ k < 4, (packets k).phase = .macCheck check ∧
        (packets k).messages.length = 1 := by
      rintro (_ | _ | _ | _ | k) hk
      · exact h₀
      · exact h₁
      · exact h₂
      · exact h₃
      · omega
    exact ⟨fun k hk => (hsingle k hk).1, fun k hk => (hsingle k hk).2, hfront, hback⟩

end Opens

namespace Transcript

variable (transcript : Transcript) (me : Party) (records : List Record)

theorem receivedFrom_talk (number : UInt64) {q : PartyId} (hq : q ∈ me.peers) :
    receivedFrom q (transcript.talk me records number) =
      contributing (.macCheck number) (transcript.random q) ++
        contributing (.macCheck number) (transcript.values q) := by
  simp only [talk, revealing, receivedFrom_append, receivedFrom_exchange, if_pos hq]
  rfl

theorem receivedFrom_talk_of_notMem (number : UInt64) {q : PartyId} (hq : q ∉ me.peers) :
    receivedFrom q (transcript.talk me records number) = [] := by
  simp only [talk, revealing, receivedFrom_append, receivedFrom_exchange, if_neg hq,
    List.append_nil]

theorem follows_talk_iff (number : UInt64) (feed : Feed) :
    feed.Follows (transcript.talk me records number) ↔ ∀ q ∈ me.peers,
      [feed q 0, feed q 1] = contributing (.macCheck number) (transcript.random q) ∧
      [feed q 2, feed q 3] = contributing (.macCheck number) (transcript.values q) := by
  constructor
  · intro h q hq
    have hfeed := h q
    rw [receivedFrom_talk _ _ _ _ hq] at hfeed
    constructor
    · rw [contributing, ← hfeed 0 _ rfl, ← hfeed 1 _ rfl]
    · rw [contributing, ← hfeed 2 _ rfl, ← hfeed 3 _ rfl]
  · intro h q k packet hpacket
    by_cases hq : q ∈ me.peers
    · obtain ⟨hfront, hback⟩ := h q hq
      rw [receivedFrom_talk _ _ _ _ hq, ← hfront, ← hback] at hpacket
      match k, hpacket with
      | 0, hpacket | 1, hpacket | 2, hpacket | 3, hpacket => exact (Option.some.inj hpacket).symm
    · rw [receivedFrom_talk_of_notMem _ _ _ _ hq] at hpacket
      cases hpacket

end Transcript

namespace Verifier

variable {me : Party} {v : Verifier} {records : List Record}

/-- The combiner that the own element and the second packets of the peers add up to. -/
def combinerOf (me : Party) (feed : Feed) (own : Element) : Element :=
  .ofNat ((own.toNat + (me.peers.map fun q => (feed q 1).number).sum) % me.modulus.value.toNat)

/-- The sum of the own check value and the ones in the fourth packets of the peers. -/
def checkSum (me : Party) (records : List Record) (feed : Feed) (own : Element) : Nat :=
  ((compress me.modulus (combinerOf me feed own) me.keyShare records).value.toNat +
    (me.peers.map fun q => (feed q 3).number).sum) % me.modulus.value.toNat

theorem number_eq {phase : Phase} {first second : Packet} {contribution : Element × Nonce}
    (h : [first, second] = contributing phase contribution) :
    second.number = contribution.1.toNat := by
  obtain ⟨-, hsecond⟩ := List.cons.inj h
  obtain ⟨rfl, -⟩ := List.cons.inj hsecond
  exact Packet.number_reveal

theorem passes_iff {transcript : Transcript} {number : UInt64} {feed : Feed}
    (hown : me.modulus.Reduced transcript.own.1) (hreduced : transcript.Reduced me)
    (hrecords : ∀ record ∈ records, record.Reduced me.modulus)
    (hfeed : feed.Follows (transcript.talk me records number)) :
    transcript.passes me records = true ↔ checkSum me records feed transcript.own.1 = 0 := by
  have hfeed := (transcript.follows_talk_iff me records number feed).mp hfeed
  have hrandom : (me.peers.map fun q => (feed q 1).number) =
      me.peers.map fun q => (transcript.random q).1.toNat :=
    List.map_congr_left fun q hq => number_eq (hfeed q hq).1
  have hvalues : (me.peers.map fun q => (feed q 3).number) =
      me.peers.map fun q => (transcript.values q).1.toNat :=
    List.map_congr_left fun q hq => number_eq (hfeed q hq).2
  have hcombiner : combinerOf me feed transcript.own.1 = transcript.combiner me := by
    rw [← Limbs.toNat_inj, combinerOf, Modulus.toNat_ofNat_mod, Transcript.combiner,
      Party.toNat_total hown hreduced.random, hrandom]
  have hsigma : me.modulus.Reduced (transcript.sigma me records) :=
    (reduced_compress (Party.reduced_total hown hreduced.random)
      (Modulus.reduced_iff.mpr me.keyShare_lt) hrecords).1
  rw [Transcript.passes, Element.isZero_iff, Transcript.sum,
    Party.toNat_total hsigma hreduced.values, checkSum, hcombiner, hvalues]
  rfl

/-- The outcome is decided by the packets that the peers send and by the element drawn. -/
theorem returns_execute_iff {o : Except Error Unit} (ho : Decided o) (h : Started me v.check)
    (feed : Feed) :
    (execute me).Returns feed v o ↔ ∃ own source, me.modulus.draw v.generator = some (own, source) ∧
      (∀ q ∈ me.peers, Accepted me.modulus v.check.number (feed q)) ∧
      o = if checkSum me v.check.records feed own = 0 then .ok ()
        else .error (.macCheckFailed v.check.number) := by
  rw [Program.returns_iff]
  constructor
  · rintro ⟨_, _, hends, hfollows⟩
    obtain ⟨transcript, source, ⟨source₁, source₂, hdraw, -⟩, hreduced, rfl, rfl, -⟩ :=
      (ends_execute ho h).mp hends
    have hfeed := (transcript.follows_talk_iff me _ _ feed).mp hfollows
    refine ⟨_, source₁, hdraw, fun q hq => accepted_iff.mpr ⟨_, _, hreduced.random q hq,
      hreduced.values q hq, (hfeed q hq).1, (hfeed q hq).2⟩, ?_⟩
    simp only [passes_iff (Modulus.reduced_draw hdraw) hreduced h.records hfollows]
  · rintro ⟨own, source₁, hdraw, hfeed, rfl⟩
    choose! random values hrandom hvalues hfront hback using fun q hq => accepted_iff.mp (hfeed q hq)
    obtain ⟨nonce, source₂, hnonce⟩ : ∃ nonce source₂, Nonce.draw source₁ = some (nonce, source₂) :=
      ⟨_, _, rfl⟩
    obtain ⟨nonce', source, hnonce'⟩ : ∃ nonce source, Nonce.draw source₂ = some (nonce, source) :=
      ⟨_, _, rfl⟩
    let transcript : Transcript := ⟨(own, nonce), random, nonce', values⟩
    have hreduced : transcript.Reduced me := ⟨hrandom, hvalues⟩
    have hfollows := (transcript.follows_talk_iff me v.check.records v.check.number feed).mpr
      fun q hq => ⟨hfront q hq, hback q hq⟩
    refine ⟨_, _, (ends_execute ho h).mpr ⟨transcript, source,
      ⟨source₁, source₂, hdraw, hnonce, hnonce'⟩, hreduced, rfl, ?_, rfl⟩, hfollows⟩
    simp only [passes_iff (Modulus.reduced_draw hdraw) hreduced h.records hfollows]
    rfl

theorem ok_eq_ite_iff {c : Prop} [Decidable c] {error : Error} :
    .ok () = (if c then .ok () else .error error : Except Error Unit) ↔ c := by
  split <;> simp [*]

theorem error_eq_ite_iff {c : Prop} [Decidable c] {error : Error} :
    .error error = (if c then .ok () else .error error : Except Error Unit) ↔ ¬c := by
  split <;> simp [*]

/-- A check passes exactly if every peer sends four packets that are accepted and the check values
add up to zero; it fails as a check exactly if they do not add up. -/
theorem returns_execute {number : UInt64} {config : Config} (hne : records ≠ [])
    (hrecords : ∀ record ∈ records, record.Reduced me.modulus) (feed : Feed) :
    let start := { v with check := MacCheck.start number records me.modulus config }
    ((execute me).Returns feed start (.ok ()) ↔
      ∃ own source, me.modulus.draw v.generator = some (own, source) ∧
        (∀ q ∈ me.peers, Accepted me.modulus number (feed q)) ∧
        checkSum me records feed own = 0) ∧
    ((execute me).Returns feed start (.error (.macCheckFailed number)) ↔
      ∃ own source, me.modulus.draw v.generator = some (own, source) ∧
        (∀ q ∈ me.peers, Accepted me.modulus number (feed q)) ∧
        checkSum me records feed own ≠ 0) := by
  intro start
  have hstarted : Started me start.check := started_start hrecords hne
  have hfailed : Decided (.error (.macCheckFailed number) : Except Error Unit) := by
    rintro _ ⟨⟩
    trivial
  rw [returns_execute_iff (decided_ok ()) hstarted, returns_execute_iff hfailed hstarted]
  refine ⟨exists₂_congr fun own _ => and_congr_right' (and_congr_right' ?_),
    exists₂_congr fun own _ => and_congr_right' (and_congr_right' ?_)⟩
  · exact ok_eq_ite_iff
  · exact error_eq_ite_iff

/-- The first of two parties checks one value modulo 7: its own check value is 6, so the check passes
when the peer reveals 1. -/
theorem returns_execute_seven :
    let me : Party := ⟨0, 2, ⟨.ofNat 7, by decide⟩, .ofNat 2, by decide, by decide, by decide⟩
    let packets : List Packet := contributing (.macCheck 4) (.ofNat 5, default) ++
      contributing (.macCheck 4) (.ofNat 1, default)
    (execute me).Returns (fun _ k => packets.getD k ⟨.macCheck 4, []⟩)
      { idle default with
        check := MacCheck.start 4 [⟨.ofNat 3, .ofNat 5⟩] me.modulus .standard } (.ok ()) := by
  intro me packets
  have hdraw : me.modulus.draw default = some (me.modulus.candidate default, _) :=
    Modulus.draw_of_lt (by decide)
  refine (returns_execute (by decide) ?_ _).1.mpr
    ⟨_, _, hdraw, fun q _ => ?_, by decide +kernel⟩
  · exact List.forall_mem_singleton.mpr ⟨by decide, by decide⟩
  · exact accepted_iff.mpr ⟨(.ofNat 5, default), (.ofNat 1, default), by decide, by decide, rfl, rfl⟩

end Verifier
end AuthenticatedMpc
