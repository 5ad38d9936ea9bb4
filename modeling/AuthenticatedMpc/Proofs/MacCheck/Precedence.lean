import AuthenticatedMpc.Proofs.MacCheck.Saying

/-!
# Commitments before reveals

Whatever the transport does, a check says its packets in their order, and each of them only after it
has heard from every peer what comes before it: a reveal after all commitments, and the commitment to
the check value after all elements of the combiner, which open their commitments.
-/

namespace AuthenticatedMpc

/-! ## Moments of a check -/

/-- What a check has said and heard at some moment: the packets that it says, in their order, and
the exchanges of which it has heard its part. It says no packet before it has heard all of the
exchanges before. -/
structure Moment (me : Party) (number : UInt64) (now : List Move) (told : List Packet)
    (exchanges : List (PartyId → Packet)) : Prop where
  lengths : told.map (·.message.length) <+: [32, 48, 32, 48]
  told_single : ∀ packet ∈ told,
    packet.phase = .macCheck number ∧ packet.messages.length = 1
  heard_single : ∀ packets ∈ exchanges, ∀ q,
    (packets q).phase = .macCheck number ∧ (packets q).messages.length = 1
  length_le : told.length ≤ exchanges.length + 1
  alternates : ∀ q ∈ me.peers, Alternates me.modulus (exchanges.map (· q))
  sentTo : ∀ q ∈ me.peers, sentTo q (talkOf now) <+: told
  receivedFrom : ∀ q ∈ me.peers, exchanges.map (· q) <+: receivedFrom q (talkOf now)

/-- A check between two slices: its turns have made the exchanges so far. -/
structure Conversing (me : Party) (number : UInt64) (records : List Record) (config : Config)
    (turns : List Turn) (exchanges : List (PartyId → Packet)) (now : List Move)
    (check : MacCheck) : Prop where
  reached : Reached me number records config turns check
  conversed : Conversed me number turns exchanges
  exchanged : Exchanged me exchanges now

section Moments

variable {me : Party} {number : UInt64} {records : List Record} {config : Config}
  {turns : List Turn} {exchanges : List (PartyId → Packet)} {past now : List Move} {v : Verifier}
  {told : List Packet}

theorem Conversing.inner {check : MacCheck} {event : Option Event}
    (h : Conversing me number records config turns exchanges past check) :
    Conversing me number records config turns exchanges (past ++ [Move.inner event]) check :=
  { h with exchanged := h.exchanged.inner }

/-- While a slice is evaluated, the check says the packets of its exchanges and that of the slice. -/
theorem Conversing.moment {check next : MacCheck} {turn : Turn}
    (h : Conversing me number records config turns exchanges past check)
    (reached : Reached me number records config (turns ++ [turn]) next)
    (hlength : turn.length?.toList = told.map (·.message.length))
    (hsingle : ∀ packet ∈ told, packet.phase = .macCheck number ∧ packet.messages.length = 1)
    (htold : told.length ≤ 1) (hpast : past <+: now)
    (hsent : ∀ q ∈ me.peers, sentTo q (talkOf now) <+: exchanges.map (· me.id) ++ told) :
    Moment me number now (exchanges.map (· me.id) ++ told) exchanges where
  lengths := by
    have hturn : [turn].filterMap Turn.length? = turn.length?.toList := by
      cases hlength? : turn.length? <;> simp [hlength?]
    have hlengths := reached.lengths
    rw [List.filterMap_append, ← h.conversed.lengths, hturn, hlength] at hlengths
    rwa [List.map_append, List.map_map]
  told_single := by
    rw [List.forall_mem_append]
    refine ⟨?_, hsingle⟩
    intro packet hpacket
    obtain ⟨packets, hpackets, rfl⟩ := List.mem_map.mp hpacket
    exact h.conversed.single packets hpackets me.id
  heard_single := h.conversed.single
  length_le := by
    rw [List.length_append, List.length_map]
    omega
  alternates q hq := h.reached.alternates h.conversed hq
  sentTo := hsent
  receivedFrom q hq := by
    obtain ⟨rest, rfl⟩ := hpast
    rw [← h.exchanged.receivedFrom q hq, talkOf_append, receivedFrom_append]
    exact List.prefix_append ..

/-- Between slices nothing is said that was not answered. -/
theorem Conversing.moment_between {check : MacCheck}
    (h : Conversing me number records config turns exchanges now check) :
    Moment me number now (exchanges.map (· me.id)) exchanges where
  lengths := by
    rw [List.map_map]
    exact h.conversed.lengths ▸ h.reached.lengths
  told_single := by
    intro packet hpacket
    obtain ⟨packets, hpackets, rfl⟩ := List.mem_map.mp hpacket
    exact h.conversed.single packets hpackets me.id
  heard_single := h.conversed.single
  length_le := by
    rw [List.length_map]
    omega
  alternates q hq := h.reached.alternates h.conversed hq
  sentTo q hq := h.exchanged.sentTo q hq ▸ List.prefix_refl _
  receivedFrom q hq := h.exchanged.receivedFrom q hq ▸ List.prefix_refl _

namespace Verifier

theorem meets_absorb {P : List Move → Bench CheckGate Unit → Prop} {gates : List CheckGate}
    (hinner : ∀ {now bench event}, P now bench → P (now ++ [Move.inner event]) bench)
    (hpast : P past v.bench) :
    (absorb gates).Meets
      { during := fun now v => P now v.bench
        returns := fun _ _ _ => True
        fails := fun _ _ _ => True } past v := by
  rw [absorb]
  refine .get_bind hpast ?_
  cases v.check.absorb gates with
  | mk outcome check =>
    cases outcome with
    | ok => exact ⟨hinner hpast, hinner (hinner hpast), trivial⟩
    | error => exact ⟨hinner hpast, hinner (hinner hpast), trivial⟩

/-- A contract on the moves and the bench that inner moves keep holds of a slice if it holds of
evaluating the gates of the slice. -/
theorem meets_runSlice_of_process {P : List Move → Bench CheckGate Unit → Prop} {gates : List CheckGate}
    {handed : MacCheck} {source : Source}
    (htaken : v.check.nextSlice v.generator = some ((.ok gates, handed), source))
    (hinner : ∀ {now bench event}, P now bench → P (now ++ [Move.inner event]) bench)
    (hpast : P past v.bench)
    (hprocess : (Bench.process me).Meets
      { during := P
        returns := fun _ _ _ => True
        fails := fun _ _ _ => True }
      (past ++ [Move.inner none] ++ [Move.inner none] ++ [Move.inner none])
      (v.bench.load gates (.macCheck handed.number) me.parties)) :
    (runSlice me).Meets
      { during := fun now v => P now v.bench
        returns := fun _ _ _ => True
        fails := fun _ _ _ => True } past v := by
  have hevaluate : (evaluate me).Meets
      { during := fun now v => P now v.bench
        returns := fun _ now v => P now v.bench
        fails := fun _ _ _ => True }
      (past ++ [Move.inner none] ++ [Move.inner none] ++ [Move.inner none])
      ⟨handed, source, v.bench.load gates (.macCheck handed.number) me.parties⟩ :=
    .zoom (hprocess.mono (fun _ _ => id) (fun _ _ _ hnow _ => hnow) fun _ _ _ _ => id)
  have hback : (do
      let _ ← evaluate me
      let verifier ← Program.get
      absorb verifier.bench.gates : Program Verifier Unit).Meets
      { during := fun now v => P now v.bench
        returns := fun _ _ _ => True
        fails := fun _ _ _ => True }
      (past ++ [Move.inner none] ++ [Move.inner none] ++ [Move.inner none])
      ⟨handed, source, v.bench.load gates (.macCheck handed.number) me.parties⟩ := by
    refine Program.Meets.bind hevaluate ?_
    intro rounds now v' hnow
    exact .get_bind hnow (meets_absorb hinner (hinner hnow))
  rw [runSlice, nextSlice, bind_assoc]
  refine .get_bind hpast ?_
  rw [htaken]
  exact ⟨hinner hpast, hinner (hinner hpast), hback⟩

theorem meets_runSlice_of_nextSlice_eq_none {P : List Move → Prop}
    (htaken : v.check.nextSlice v.generator = none)
    (hinner : ∀ {now event}, P now → P (now ++ [Move.inner event])) (hpast : P past)
    {post : Unit → List Move → Verifier → Prop} :
    (runSlice me).Meets
      { during := fun now _ => P now
        returns := post
        fails := fun _ _ _ => True } past v := by
  rw [runSlice, nextSlice, bind_assoc]
  refine .get_bind hpast ?_
  rw [htaken]
  exact hinner hpast

/-- What holds of a check while it runs: at every moment, and when the program is at its end. -/
def conversing (me : Party) (number : UInt64) (records : List Record) (config : Config) :
    Contract Verifier Unit where
  during now _ := ∃ told exchanges, Moment me number now told exchanges
  returns _ now v :=
    ∃ turns exchanges, Conversing me number records config turns exchanges now v.check
  fails _ _ _ := True

/-- A slice takes a check from one boundary to the next, and says nothing out of turn. -/
theorem meets_runSlice (hne : records ≠ []) (more : v.check.hasNext = true)
    (h : Conversing me number records config turns exchanges past v.check) :
    (runSlice me).Meets (conversing me number records config) past v := by
  by_cases hnone : v.check.nextSlice v.generator = none
  · refine (@meets_runSlice_of_nextSlice_eq_none me past v
      (fun now => Conversing me number records config turns exchanges now v.check) hnone
      Conversing.inner h (fun _ _ _ => False)).mono ?_ (fun _ _ _ _ => False.elim)
      fun _ _ _ _ => id
    exact fun now _ hnow => ⟨_, _, hnow.moment_between⟩
  · have hdraw := h.reached.exists_draw more hnone
    obtain ⟨gates, handed, source, htaken, hslice, rfl, hback⟩ :=
      h.reached.progresses hne more hdraw
    obtain ⟨told, hsingle, htold, hlength, hprocess⟩ :=
      hslice.meets_process h.exchanged.inner.inner.inner v.bench
    -- What the slice may come to tells how long its packet is, before there is a result.
    obtain ⟨evaluated, hevaluated⟩ := CheckGate.exists_forall₂_evaluates me gates
    obtain ⟨_, next, -, hreached, -⟩ := hback evaluated hevaluated
    have hduring := @meets_runSlice_of_process me past v
      (fun now _ => ∀ q ∈ me.peers, sentTo q (talkOf now) <+: exchanges.map (· me.id) ++ told)
      gates handed source htaken (fun hnow => by simpa using hnow)
      (fun q hq => h.exchanged.sentTo q hq ▸ List.prefix_append ..) hprocess
    refine ((Program.Meets.of_paths (runSlice me) past v).and hduring).mono ?_ ?_
      (fun _ _ _ _ _ => trivial) fun _ _ => ⟨trivial, trivial⟩
    · rintro _ _ ⟨⟨moves, _, rfl, -⟩, hsent⟩
      exact ⟨_, _, h.moment hreached (hlength _ _ hevaluated) hsingle htold
        (List.prefix_append ..) hsent⟩
    · rintro _ _ v' - ⟨⟨moves, rfl, hpath⟩, -⟩
      have hvigilant : (runSlice me).Vigilant fun _ => True :=
        vigilant_runSlice fun _ _ _ => trivial
      have hends := hvigilant.ends_of_path hpath
      obtain ⟨bench, rounds, hbench, -, rfl⟩ :=
        (ends_runSlice_of_decided (decided_ok ()) htaken).mp hends
      obtain ⟨more, htalk, hconversed⟩ := hslice.conversed v.check.stage hbench
      obtain ⟨_, _, habsorb, hreached, -⟩ := hback bench.gates (hslice.evaluates hbench)
      refine ⟨_, _, ?_, h.conversed.append hconversed, h.exchanged.conversation ?_⟩
      · rwa [habsorb]
      · rw [talkOf_append, htalk]

theorem meets_runSlices (hne : records ≠ []) (limit : Nat)
    (h : Conversing me number records config turns exchanges past v.check) :
    (runSlices me limit).Meets (conversing me number records config) past v := by
  induction limit generalizing past v turns exchanges with
  | zero => exact ⟨_, _, h.moment_between⟩
  | succ limit ih =>
    refine .get_bind ⟨_, _, h.moment_between⟩ ?_
    split
    · next more =>
      refine Program.Meets.bind (meets_runSlice hne more h.inner) ?_
      rintro _ now v' ⟨turns', exchanges', hnext⟩
      exact ih hnext
    · exact ⟨⟨_, _, h.inner.moment_between⟩, _, _, h.inner⟩

theorem meets_execute_conversing (hne : records ≠ [])
    (hcheck : v.check = .start number records me.modulus config) :
    (execute me).Meets (conversing me number records config) [] v := by
  have hstart : Conversing me number records config [] [] [] v.check := by
    rw [hcheck]
    exact ⟨.idle, .nil, exchanged_nil⟩
  rw [execute]
  exact .get_bind ⟨_, _, hstart.moment_between⟩ (meets_runSlices hne _ hstart.inner)

end Verifier

end Moments

/-! ## Commitments come first -/

/-- What has been heard of a peer before the packet of the given place is said: a commitment before
an element is revealed, the element that opens it before a check value is committed to, and another
commitment before the check value is revealed. -/
structure Precedes (p : Modulus) (number : UInt64) (place : Nat) (heard : List Packet) : Prop where
  single : ∀ k < place, ∃ packet, heard[k]? = some packet ∧
    packet.phase = .macCheck number ∧ packet.messages.length = 1
  committed : 1 ≤ place → ∃ commitment, heard[0]? = some commitment ∧
    commitment.message.length = 32
  opened : 2 ≤ place → ∃ commitment reveal, heard[0]? = some commitment ∧
    heard[1]? = some reveal ∧ Opens p commitment reveal
  recommitted : 3 ≤ place → ∃ commitment, heard[2]? = some commitment ∧
    commitment.message.length = 32

section Precedes

variable {me : Party} {number : UInt64} {records : List Record} {config : Config}

theorem Alternates.precedes {p : Modulus} {place : Nat} {exchanges : List (PartyId → Packet)}
    {heard : List Packet} {q : PartyId} (h : Alternates p (exchanges.map (· q)))
    (hsingle : ∀ packets ∈ exchanges,
      (packets q).phase = .macCheck number ∧ (packets q).messages.length = 1)
    (hheard : exchanges.map (· q) <+: heard) (hplace : place ≤ exchanges.length) :
    Precedes p number place heard := by
  have hfront : ∀ k < place, ∃ packets ∈ exchanges, (exchanges.map (· q))[k]? = some (packets q) ∧
      heard[k]? = some (packets q) := by
    intro k hk
    have hlt : k < exchanges.length := hk.trans_le hplace
    have hget : (exchanges.map (· q))[k]? = some (exchanges[k] q) := by
      rw [List.getElem?_map, List.getElem?_eq_getElem hlt, Option.map_some]
    have hget' := List.prefix_iff_getElem?.mp hheard k (by simpa using hlt)
    rw [List.getElem_map] at hget'
    exact ⟨exchanges[k], List.getElem_mem hlt, hget, hget'⟩
  refine ⟨?_, ?_, ?_, ?_⟩
  · intro k hk
    obtain ⟨packets, hpackets, -, hget⟩ := hfront k hk
    exact ⟨_, hget, hsingle packets hpackets⟩
  · intro hk
    obtain ⟨packets, -, hget, hget'⟩ := hfront 0 hk
    exact ⟨_, hget', h.commits 0 _ hget⟩
  · intro hk
    obtain ⟨first, -, hfirst, hfirst'⟩ := hfront 0 (by omega)
    obtain ⟨second, -, hsecond, hsecond'⟩ := hfront 1 hk
    exact ⟨_, _, hfirst', hsecond', h.opens 0 _ _ hfirst hsecond⟩
  · intro hk
    obtain ⟨packets, -, hget, hget'⟩ := hfront 2 hk
    exact ⟨_, hget', h.commits 1 _ hget⟩

theorem told_length {place length : Nat} (h : [32, 48, 32, 48][place]? = some length) :
    place < 4 ∧ length = if place % 2 = 0 then 32 else 48 := by
  match place, h with
  | 0, rfl | 1, rfl | 2, rfl | 3, rfl => decide

/-- At whatever moment and to whichever peer a check sends a packet, it is a commitment or a reveal in
its turn, and every peer has been heard with what comes before it. -/
theorem Verifier.execute_precedes {v : Verifier} {actor : Actor Verifier Unit}
    {moves front back : List Move} {q : PartyId} {packet : Packet}
    {reply : Except NetworkError Unit} (hne : records ≠ [])
    (hcheck : v.check = .start number records me.modulus config)
    (hpath : Path ⟨execute me, v⟩ moves actor) (hq : q ∈ me.peers)
    (hmoves : moves = front ++ .sent q packet reply :: back) :
    let place := (sentTo q (talkOf front)).length
    place < 4 ∧ packet.phase = .macCheck number ∧ packet.messages.length = 1 ∧
      packet.message.length = (if place % 2 = 0 then 32 else 48) ∧
      ∀ x ∈ me.peers, Precedes me.modulus number place (receivedFrom x (talkOf front)) := by
  intro place
  subst hmoves
  obtain ⟨sender, hfront, hrest⟩ := hpath.of_append
  cases hrest with
  | head first _ =>
    cases first with
    | send _ _ next s =>
      -- If the transport takes the packet, it is the next one of those that the check says.
      have htaken : Path ⟨execute me, v⟩ (front ++ [.sent q packet (.ok ())]) ⟨next (.ok ()), s⟩ :=
        hfront.trans (.head (.send ..) (.refl _))
      have hmoment := ((meets_execute_conversing hne hcheck).path htaken fun _ _ => trivial).during
      rw [List.nil_append] at hmoment
      obtain ⟨told, exchanges, h⟩ := hmoment
      have hsent : sentTo q (talkOf front) ++ [packet] <+: told := by
        simpa [sentTo_append, sentTo] using h.sentTo q hq
      obtain ⟨rest, rfl⟩ := hsent
      have hlength : [32, 48, 32, 48][place]? = some packet.message.length := by
        simpa [place] using List.prefix_iff_getElem?.mp h.lengths place (by simp [place])
      obtain ⟨hplace, hpacket⟩ := told_length hlength
      have hsingle := h.told_single packet (by simp)
      refine ⟨hplace, hsingle.1, hsingle.2, hpacket, ?_⟩
      intro x hx
      have hheard : exchanges.map (· x) <+: receivedFrom x (talkOf front) := by
        simpa [receivedFrom_append, receivedFrom] using h.receivedFrom x hx
      refine (h.alternates x hx).precedes (fun packets hpackets => h.heard_single packets hpackets x)
        hheard ?_
      have hle := h.length_le
      simp only [List.length_append, List.length_singleton] at hle
      omega

theorem exists_move_of_talkOf {moves : List Move} {front back : List Signal} {q : PartyId}
    {packet : Packet} (h : talkOf moves = front ++ Signal.sent q packet :: back) :
    ∃ before after, moves = before ++ Move.sent q packet (.ok ()) :: after ∧
      talkOf before = front := by
  obtain ⟨before, rest, rfl, hfront, hrest⟩ := List.filterMap_eq_append_iff.mp h
  obtain ⟨silent, move, after, rfl, hsilent, hmove, -⟩ := List.filterMap_eq_cons_iff.mp hrest
  have hsent : move = .sent q packet (.ok ()) := by
    match move, hmove with
    | .sent _ _ (.ok ()), rfl => rfl
  refine ⟨before ++ silent, after, by rw [hsent, List.append_assoc], ?_⟩
  rw [talkOf_append, talkOf, hfront, talkOf, List.filterMap_eq_nil_iff.mpr hsilent,
    List.append_nil]

/-- The first of two parties checks one value modulo 7. When it reveals its check value, the
commitment of its peer to the other check value is there. -/
theorem Verifier.execute_precedes_seven :
    let me : Party := ⟨0, 2, ⟨.ofNat 7, by decide⟩, .ofNat 2, by decide, by decide, by decide⟩
    let start : Verifier := { idle default with
      check := MacCheck.start 4 [⟨.ofNat 3, .ofNat 5⟩] me.modulus .standard }
    ∃ moves front back actor packet, Path ⟨execute me, start⟩ moves actor ∧
      moves = front ++ .sent 1 packet (.ok ()) :: back ∧ packet.message.length = 48 ∧
      Precedes me.modulus 4 3 (receivedFrom 1 (talkOf front)) := by
  intro me start
  have hdraw : me.modulus.draw default = some (me.modulus.candidate default, _) :=
    Modulus.draw_of_lt (by decide)
  obtain ⟨nonce, source₁, hnonce⟩ : ∃ nonce source₁,
    Nonce.draw ((default : Source).advance 2) = some (nonce, source₁) := ⟨_, _, rfl⟩
  obtain ⟨nonce', source₂, hnonce'⟩ : ∃ nonce' source₂,
    Nonce.draw source₁ = some (nonce', source₂) := ⟨_, _, rfl⟩
  have hreduced : Element.ofNat 5 < me.modulus.value := by decide
  let transcript : Transcript := ⟨(me.modulus.candidate default, nonce),
    fun _ => (.ofNat 5, default), nonce', fun _ => (.ofNat 5, default)⟩
  let outcome : Except Error Unit := if transcript.passes me start.check.records then .ok ()
    else .error (.macCheckFailed 4)
  have houtcome : Decided outcome := by
    intro error herror
    rcases ite_eq_or_eq (transcript.passes me start.check.records = true) (.ok ())
      (.error (.macCheckFailed 4) : Except Error Unit) with h | h
    · rw [show outcome = .ok () from h] at herror
      cases herror
    · rw [show outcome = .error (.macCheckFailed 4) from h] at herror
      cases herror
      trivial
  have hstarted : Started me start.check :=
    started_start (List.forall_mem_singleton.mpr ⟨by decide, by decide⟩) (by decide)
  obtain ⟨moves, hpath, -, htalk⟩ := ends_iff_path.mp ((ends_execute houtcome hstarted).mpr
    ⟨transcript, source₂, ⟨_, _, hdraw, hnonce, hnonce'⟩,
      ⟨fun _ _ => hreduced, fun _ _ => hreduced⟩, rfl, rfl, rfl⟩)
  let sigma := transcript.sigma me start.check.records
  let commit (value : Element) (nonce : Nonce) : Packet :=
    ⟨.macCheck 4, [(Commitment.commit value nonce).digest]⟩
  let reveal (value : Element) (nonce : Nonce) : Packet :=
    ⟨.macCheck 4, [Commitment.reveal value nonce]⟩
  have hmoves : talkOf moves =
      [.sent 1 (commit (me.modulus.candidate default) nonce), .received 1 (commit (.ofNat 5) default),
        .sent 1 (reveal (me.modulus.candidate default) nonce), .received 1 (reveal (.ofNat 5) default),
        .sent 1 (commit sigma nonce'), .received 1 (commit (.ofNat 5) default)] ++
      .sent 1 (reveal sigma nonce') :: [.received 1 (reveal (.ofNat 5) default)] := htalk
  obtain ⟨front, back, rfl, hfront⟩ := exists_move_of_talkOf hmoves
  have hplace : (sentTo 1 (talkOf front)).length = 3 := by
    rw [hfront]
    rfl
  obtain ⟨-, -, -, hlength, hprecedes⟩ := execute_precedes (by decide) rfl hpath (by decide) rfl
  rw [hplace] at hlength hprecedes
  exact ⟨_, front, back, _, _, hpath, rfl, hlength, hprecedes 1 (by decide)⟩

end Precedes

end AuthenticatedMpc
