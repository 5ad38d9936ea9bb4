import AuthenticatedMpc.Proofs.Rounds.Operations
import AuthenticatedMpc.Proofs.Runs.Feed
import AuthenticatedMpc.Proofs.Runs.Parts

/-!
# The accounts of a round

A party makes its receive calls in any order and ends the round, also after a call that failed. What it
awaits from a peer is what the packet of the round holds, and each call takes the first message of it that
is left: what was awaited at the start is what the calls have returned, followed by what is still awaited.
So the round goes well exactly if every packet has as many messages as there were calls. However it goes,
nothing of it is left for the next round.
-/

namespace AuthenticatedMpc
namespace RoundBuffer

/-- Nothing is fetched and nothing is left to consume. -/
structure Idle (buffer : RoundBuffer) : Prop where
  inbox : buffer.inbox.length = buffer.parties
  fetched : buffer.fetched.length = buffer.parties
  pending : ∀ peer, buffer.pending peer = []
  hasFetched : ∀ peer, buffer.hasFetched peer = false

theorem idle_of (phase : Phase) (n : Nat) (out : PartyId → List Payload) :
    (of phase n out (fun _ => []) fun _ => false).Idle where
  inbox := by simp [of, parties]
  fetched := by simp [of, parties]
  pending peer := by
    by_cases hpeer : peer < n
    · rw [pending_of hpeer]
    · simp [of, RoundBuffer.pending, hpeer]
  hasFetched peer := by
    by_cases hpeer : peer < n
    · rw [hasFetched_of hpeer]
    · simp [of, RoundBuffer.hasFetched, hpeer]

theorem Idle.eq_of {buffer : RoundBuffer} (h : buffer.Idle) :
    buffer = of buffer.phase buffer.parties buffer.queued (fun _ => []) fun _ => false := by
  have hinbox : buffer.inbox = (List.range buffer.parties).map fun _ => [] := by
    refine List.ext_getElem (by simpa using h.inbox) fun peer hpeer _ => ?_
    simpa [RoundBuffer.pending, hpeer] using h.pending peer
  have hfetched : buffer.fetched = (List.range buffer.parties).map fun _ => false := by
    refine List.ext_getElem (by simpa using h.fetched) fun peer hpeer _ => ?_
    simpa [RoundBuffer.hasFetched, hpeer] using h.hasFetched peer
  have houtbox : buffer.outbox = (List.range buffer.parties).map buffer.queued := by
    refine List.ext_getElem (by simp [parties]) fun peer hpeer _ => ?_
    simp [queued, hpeer]
  rw [of, ← hinbox, ← hfetched, ← houtbox]

/-! ## The calls -/

/-- Receive calls in the given order, each made whatever came of those before it. -/
def receiveAll (me : PartyId) : List PartyId → Program RoundBuffer (List (Except Error Payload))
  | [] => pure []
  | peer :: calls => do
    let outcome ← (receive me peer).attempt
    let outcomes ← receiveAll me calls
    pure (outcome :: outcomes)

/-- The receive calls of a round and its end, with what came of each. -/
def round (me : PartyId) (calls : List PartyId) :
    Program RoundBuffer (List (Except Error Payload) × Except Error Unit) := do
  let outcomes ← receiveAll me calls
  let closing ← endRound.attempt
  pure (outcomes, closing)

def payloadsFrom (peer : PartyId) (calls : List PartyId) (outcomes : List (Except Error Payload)) :
    List Payload :=
  (calls.zip outcomes).filterMap fun call => if call.1 = peer then call.2.toOption else none

section Payloads

variable {peer callee : PartyId} {calls : List PartyId} {outcome : Except Error Payload}
  {outcomes : List (Except Error Payload)} {payload : Payload}

theorem payloadsFrom_cons_ok : payloadsFrom callee (callee :: calls) (.ok payload :: outcomes) =
    payload :: payloadsFrom callee calls outcomes := by
  simp [payloadsFrom, Except.toOption]

theorem payloadsFrom_cons_of_ne (h : callee ≠ peer) :
    payloadsFrom peer (callee :: calls) (outcome :: outcomes) = payloadsFrom peer calls outcomes := by
  simp [payloadsFrom, h]

theorem mem_payloadsFrom_cons (h : payload ∈ payloadsFrom peer (callee :: calls) (outcome :: outcomes)) :
    (callee = peer ∧ outcome = .ok payload) ∨ payload ∈ payloadsFrom peer calls outcomes := by
  rw [payloadsFrom, List.zip_cons_cons, List.filterMap_cons] at h
  split at h
  · exact .inr h
  · next first hfirst =>
    split at hfirst
    · next hcallee =>
      obtain rfl | htail := List.mem_cons.mp h
      · cases outcome with
        | ok value => exact .inl ⟨hcallee, congrArg _ (Option.some.inj hfirst)⟩
        | error => cases hfirst
      · exact .inr htail
    · cases hfirst

theorem length_payloadsFrom (hlength : outcomes.length = calls.length)
    (hok : ∀ outcome ∈ outcomes, ∃ payload, outcome = .ok payload) :
    (payloadsFrom peer calls outcomes).length = calls.count peer := by
  induction calls generalizing outcomes with
  | nil => simp [payloadsFrom]
  | cons callee calls ih =>
    obtain ⟨outcome, outcomes, rfl⟩ := List.exists_cons_of_length_eq_add_one hlength
    obtain ⟨⟨payload, rfl⟩, hrest⟩ := List.forall_mem_cons.mp hok
    have hcount := ih (Nat.succ.inj hlength) hrest
    rcases eq_or_ne callee peer with rfl | hne
    · rw [payloadsFrom_cons_ok, List.length_cons, List.count_cons_self, hcount]
    · rw [payloadsFrom_cons_of_ne hne, List.count_cons_of_ne hne, hcount]

end Payloads

/-! ## What is awaited -/

variable {phase : Phase} {n : Nat} {me q : PartyId} {out held held' : PartyId → List Payload}
  {fetched fetched' : PartyId → Bool} {feed feed' : Feed}

/-- What is awaited from a peer: what is left of its packet, or, while that is to come, all that it holds.
A packet of another phase brings nothing. -/
def awaited? (phase : Phase) (feed : Feed) (held : PartyId → List Payload) (fetched : PartyId → Bool)
    (peer : PartyId) : Option (List Payload) :=
  if fetched peer then some (held peer)
  else if (feed peer 0).phase = phase then some (feed peer 0).messages else none

theorem awaited?_update (hfeed : ∀ p, p ≠ q → feed' p = feed p) (messages : List Payload) :
    awaited? phase feed' (Function.update held q messages) (Function.update fetched q true) =
      Function.update (awaited? phase feed held fetched) q (some messages) := by
  funext p
  rcases eq_or_ne p q with rfl | hne
  · simp [awaited?]
  · simp [awaited?, hne, hfeed p hne]

theorem awaited?_eq_none_iff :
    awaited? phase feed held fetched q = none ↔ fetched q = false ∧ (feed q 0).phase ≠ phase := by
  unfold awaited?
  cases fetched q <;> simp

/-- Nothing is held from a peer whose packet was not fetched. -/
def Fresh (held : PartyId → List Payload) (fetched : PartyId → Bool) : Prop :=
  ∀ p, fetched p = false → held p = []

theorem Fresh.update (h : Fresh held fetched) (q : PartyId) (messages : List Payload) :
    Fresh (Function.update held q messages) (Function.update fetched q true) := by
  intro p hp
  rcases eq_or_ne p q with rfl | hne
  · rw [Function.update_self] at hp
    cases hp
  · rw [Function.update_of_ne hne] at hp ⊢
    exact h p hp

theorem exists_ends_fetch (hq : q < n) (hfresh : Fresh held fetched)
    {messages : List Payload} (h : awaited? phase feed held fetched q = some messages) :
    ∃ (talk : List Signal) (feed' : Feed), (fetch q).Ends (of phase n out held fetched) talk (.ok ())
        (of phase n out (Function.update held q messages) (Function.update fetched q true)) ∧
      (∀ rest, feed'.Follows rest → feed.Follows (talk ++ rest)) ∧ ∀ p, p ≠ q → feed' p = feed p := by
  unfold awaited? at h
  split at h
  · next hfetched =>
    obtain rfl := Option.some.inj h
    refine ⟨[], feed, (ends_fetch_fetched hq hfetched).mpr ⟨rfl, rfl, ?_⟩, fun _ => id, fun _ _ => rfl⟩
    rw [Function.update_eq_self, ← hfetched, Function.update_eq_self]
  · next hfetched =>
    replace hfetched := Bool.eq_false_iff.mpr hfetched
    split at h
    · next hphase =>
      obtain rfl := Option.some.inj h
      refine ⟨[.received q (feed q 0)], feed.advance q,
        (ends_fetch_fresh hq (hfresh q hfetched) hfetched).mpr ⟨_, ?_, rfl⟩,
        fun rest hrest => Feed.follows_received.mpr ⟨rfl, hrest⟩,
        fun p hp => Function.update_of_ne hp _ _⟩
      rw [← hphase]
    · cases h

theorem exists_ends_receive (hq : q < n) (hme : q ≠ me)
    (hfresh : Fresh held fetched) (feed : Feed) :
    ∃ talk outcome held' fetched' feed',
      (receive me q).Ends (of phase n out held fetched) talk outcome (of phase n out held' fetched') ∧
      (∀ rest, feed'.Follows rest → feed.Follows (talk ++ rest)) ∧
      Fresh held' fetched' ∧
      ((∃ message rest, outcome = .ok message ∧
          awaited? phase feed held fetched q = some (message :: rest) ∧
          awaited? phase feed' held' fetched' =
            Function.update (awaited? phase feed held fetched) q (some rest) ∧
          fetched' = Function.update fetched q true) ∨
        (∃ cause, outcome = .error (.desynchronized cause)) ∧
          ∀ messages, awaited? phase feed held fetched q = some messages → messages = []) := by
  cases hawaited : awaited? phase feed held fetched q with
  | none =>
    obtain ⟨hfetched, hphase⟩ := awaited?_eq_none_iff.mp hawaited
    exact ⟨_, _, held, fetched, feed.advance q, ends_receive_wrongPhase hq hme hfetched hphase,
      fun rest hrest => Feed.follows_received.mpr ⟨rfl, hrest⟩, hfresh, .inr ⟨⟨_, rfl⟩, nofun⟩⟩
  | some messages =>
    obtain ⟨talk, feed', hfetch, hfollows, hfeed⟩ := exists_ends_fetch hq hfresh hawaited
    cases messages with
    | nil =>
      exact ⟨talk, _, _, _, feed', ends_receive_empty hq hme (Function.update_self ..) hfetch, hfollows,
        hfresh.update q [], .inr ⟨⟨_, rfl⟩, fun _ h => (Option.some.inj h).symm⟩⟩
    | cons message rest =>
      refine ⟨talk, .ok message, Function.update held q rest, Function.update fetched q true, feed',
        (ends_receive hq hme).mpr ⟨_, hfetch, rest, ?_, ?_⟩, hfollows, hfresh.update q rest,
        .inl ⟨message, rest, rfl, rfl, awaited?_update hfeed rest, rfl⟩⟩
      · rw [pending_of hq, Function.update_self]
      · rw [consume_of, Function.update_self, Function.update_idem, List.tail_cons]

/-- All calls returned, and what was awaited is what they returned followed by what is still awaited. -/
structure Tallied (calls : List PartyId) (outcomes : List (Except Error Payload))
    (fetched fetched' : PartyId → Bool) (before after : PartyId → Option (List Payload)) : Prop where
  ok : ∀ outcome ∈ outcomes, ∃ payload, outcome = .ok payload
  fetched : ∀ p, fetched' p = true ↔ p ∈ calls ∨ fetched p = true
  awaited : ∀ p, before p = (after p).map (payloadsFrom p calls outcomes ++ ·)

/-- A call failed, and from one of the peers less is awaited than calls were made. -/
structure Short (calls : List PartyId) (outcomes : List (Except Error Payload))
    (before : PartyId → Option (List Payload)) : Prop where
  failed : ∃ error, .error error ∈ outcomes
  awaited : ∃ p ∈ calls, ∀ messages, before p = some messages → messages.length < calls.count p

theorem Tallied.cons {calls : List PartyId} {outcomes : List (Except Error Payload)}
    {before after : PartyId → Option (List Payload)} {message : Payload} {rest : List Payload}
    (h : Tallied calls outcomes (Function.update fetched q true) fetched'
      (Function.update before q (some rest)) after) (hbefore : before q = some (message :: rest)) :
    Tallied (q :: calls) (.ok message :: outcomes) fetched fetched' before after where
  ok := List.forall_mem_cons.mpr ⟨⟨message, rfl⟩, h.ok⟩
  fetched p := by
    rw [h.fetched, List.mem_cons]
    rcases eq_or_ne p q with rfl | hne
    · simp
    · simp [hne]
  awaited p := by
    have hrest := h.awaited p
    rcases eq_or_ne p q with rfl | hne
    · rw [Function.update_self] at hrest
      obtain ⟨left, hleft, hpayloads⟩ := Option.map_eq_some_iff.mp hrest.symm
      rw [hbefore, hleft, ← hpayloads, Option.map_some, payloadsFrom_cons_ok, List.cons_append]
    · rw [Function.update_of_ne hne] at hrest
      rw [hrest, payloadsFrom_cons_of_ne hne.symm]

theorem Short.cons {calls : List PartyId} {outcomes : List (Except Error Payload)}
    {before : PartyId → Option (List Payload)} {message : Payload} {rest : List Payload}
    (h : Short calls outcomes (Function.update before q (some rest)))
    (hbefore : before q = some (message :: rest)) :
    Short (q :: calls) (.ok message :: outcomes) before where
  failed := h.failed.imp fun _ => List.mem_cons_of_mem _
  awaited := by
    obtain ⟨p, hp, hshort⟩ := h.awaited
    refine ⟨p, List.mem_cons_of_mem _ hp, fun messages hmessages => ?_⟩
    rcases eq_or_ne p q with rfl | hne
    · obtain rfl := Option.some.inj (hbefore.symm.trans hmessages)
      rw [List.count_cons_self, List.length_cons]
      exact Nat.succ_lt_succ (hshort rest (Function.update_self ..))
    · rw [List.count_cons_of_ne hne.symm]
      exact hshort messages (by rwa [Function.update_of_ne hne])

/-- The calls end, the only error is that of parties out of step, and the account is right unless one of
the calls failed for want of messages. -/
theorem exists_ends_receiveAll {calls : List PartyId} (hcalls : ∀ p ∈ calls, p < n ∧ p ≠ me)
    (hfresh : Fresh held fetched) (feed : Feed) :
    ∃ talk outcomes held' fetched' feed',
      (receiveAll me calls).Ends (of phase n out held fetched) talk (.ok outcomes)
        (of phase n out held' fetched') ∧
      feed.Follows talk ∧ outcomes.length = calls.length ∧
      (∀ error, .error error ∈ outcomes → ∃ cause, error = .desynchronized cause) ∧
      Fresh held' fetched' ∧
      (Tallied calls outcomes fetched fetched' (awaited? phase feed held fetched)
          (awaited? phase feed' held' fetched') ∨
        Short calls outcomes (awaited? phase feed held fetched)) := by
  induction calls generalizing held fetched feed with
  | nil =>
    refine ⟨[], [], held, fetched, feed, ⟨rfl, rfl, rfl⟩, by simp [Feed.Follows, receivedFrom], rfl,
      nofun, hfresh, .inl ⟨nofun, by simp, fun p => ?_⟩⟩
    simp [payloadsFrom]
  | cons q calls ih =>
    obtain ⟨⟨hq, hme⟩, hcalls⟩ := List.forall_mem_cons.mp hcalls
    obtain ⟨front, outcome, held₁, fetched₁, feed₁, hreceive, hfront, hfresh₁, hcase⟩ :=
      @exists_ends_receive phase n me q out held fetched hq hme hfresh feed
    obtain ⟨back, outcomes, held', fetched', feed', hrest, hback, hlength, herrors, hfresh', haccount⟩ :=
      ih hcalls hfresh₁ feed₁
    have hends : (receiveAll me (q :: calls)).Ends (of phase n out held fetched) (front ++ back)
        (.ok (outcome :: outcomes)) (of phase n out held' fetched') := by
      rw [← List.append_nil back]
      exact (Program.ends_attempt.mpr ⟨outcome, rfl, hreceive⟩).bind (hrest.bind ⟨rfl, rfl, rfl⟩)
    refine ⟨front ++ back, outcome :: outcomes, held', fetched', feed', hends, hfront back hback,
      congrArg (· + 1) hlength, fun error herror => ?_, hfresh', ?_⟩
    · obtain herror | herror := List.mem_cons.mp herror
      · obtain ⟨message, -, rfl, -⟩ | ⟨⟨cause, rfl⟩, -⟩ := hcase
        · cases herror
        · exact ⟨cause, Except.error.inj herror⟩
      · exact herrors error herror
    · obtain ⟨message, rest, rfl, hawaited, hafter, rfl⟩ | ⟨⟨cause, rfl⟩, hnone⟩ := hcase
      · rw [hafter] at haccount
        exact haccount.imp (·.cons hawaited) (·.cons hawaited)
      · refine .inr ⟨⟨_, List.mem_cons_self⟩, q, List.mem_cons_self, fun messages hmessages => ?_⟩
        rw [hnone messages hmessages, List.length_nil, List.count_cons_self]
        exact Nat.succ_pos _

/-! ## Whatever the transport does -/

/-- A payload of a peer came in one of these moves. -/
def Arrived (moves : List Move) (peer : PartyId) (payload : Payload) : Prop :=
  ∃ packet, .received peer (.ok packet) ∈ moves ∧ payload ∈ packet.messages

variable {calls : List PartyId} {moves front back : List Move} {b : RoundBuffer} {p : PartyId}
  {payload : Payload}

theorem Arrived.append_left (h : Arrived front p payload) : Arrived (front ++ back) p payload :=
  h.imp fun _ => And.imp_left (List.mem_append_left _)

theorem Arrived.append_right (h : Arrived back p payload) : Arrived (front ++ back) p payload :=
  h.imp fun _ => And.imp_left (List.mem_append_right _)

/-- What is held was held at first, or has come since. -/
def Gains (phase : Phase) (n : Nat) (out held : PartyId → List Payload) (now : List Move)
    (b : RoundBuffer) : Prop :=
  ∃ held' fetched', b = of phase n out held' fetched' ∧
    ∀ p, ∀ payload ∈ held' p, payload ∈ held p ∨ Arrived now p payload

theorem Gains.snoc {now : List Move} {move : Move} (h : Gains phase n out held now b) :
    Gains phase n out held (now ++ [move]) b := by
  obtain ⟨held', fetched', rfl, hheld⟩ := h
  exact ⟨held', fetched', rfl, fun p payload hpayload => (hheld p payload hpayload).imp_right
    .append_left⟩

theorem Gains.accept {now : List Move} {packet : Packet} (h : Gains phase n out held now b) :
    Gains phase n out held (now ++ [.received q (.ok packet)]) (b.accept q packet.messages) := by
  obtain ⟨held', fetched', rfl, hheld⟩ := h
  refine ⟨_, _, accept_of q packet.messages, fun p payload hpayload => ?_⟩
  rcases eq_or_ne p q with rfl | hne
  · rw [Function.update_self] at hpayload
    obtain hmem | hmem := List.mem_append.mp hpayload
    · exact (hheld p payload hmem).imp_right .append_left
    · exact .inr ⟨packet, by simp, hmem⟩
  · rw [Function.update_of_ne hne] at hpayload
    exact (hheld p payload hpayload).imp_right .append_left

theorem Gains.consume {now : List Move} {rest : List Payload} (h : Gains phase n out held now b)
    (hpending : b.pending q = payload :: rest) :
    Gains phase n out held now (b.consume q) ∧ (payload ∈ held q ∨ Arrived now q payload) := by
  obtain ⟨held', fetched', rfl, hheld⟩ := h
  have hq : q < n := by
    by_contra hq
    simp [of, pending, hq] at hpending
  rw [pending_of hq] at hpending
  refine ⟨⟨_, fetched', consume_of q, fun p payload hpayload => ?_⟩,
    hheld q payload (hpending ▸ List.mem_cons_self)⟩
  rcases eq_or_ne p q with rfl | hne
  · rw [Function.update_self] at hpayload
    exact hheld p payload (List.mem_of_mem_tail hpayload)
  · rw [Function.update_of_ne hne] at hpayload
    exact hheld p payload hpayload

/-- What a receive returns was held, or came while it was waiting. -/
theorem path_receive {outcome : Except Error Payload}
    (h : Path ⟨receive me q, of phase n out held fetched⟩ moves ⟨.ofExcept outcome, b⟩) :
    Gains phase n out held moves b ∧
      ∀ payload, outcome = .ok payload → payload ∈ held q ∨ Arrived moves q payload := by
  let contract : Contract RoundBuffer Payload :=
    { during := Gains phase n out held
      returns := fun payload now _ => payload ∈ held q ∨ Arrived now q payload
      fails := fun _ _ _ => True }
  have hreceiving : Receiving contract q (Gains phase n out held) (Gains phase n out held) :=
    ⟨fun _ _ => trivial, id, id, .snoc, .snoc, fun h _ => h, fun _ h _ _ => h.snoc,
      fun h _ _ _ => h.accept⟩
  have hstart : Gains phase n out held [] (of phase n out held fetched) :=
    ⟨held, fetched, rfl, fun _ _ => .inl⟩
  have hreceive : (receive me q).Meets contract [] (of phase n out held fetched) :=
    hreceiving.meets_receive (fun _ _ => trivial) (fun h hpending => h.consume hpending) hstart
  have hend := hreceive.path h fun _ _ => trivial
  refine ⟨hend.during, ?_⟩
  rintro payload rfl
  exact hend.2

theorem path_receiveAll {outcome : Except Error (List (Except Error Payload))}
    (h : Path ⟨receiveAll me calls, of phase n out held fetched⟩ moves ⟨.ofExcept outcome, b⟩) :
    ∃ outcomes held' fetched', outcome = .ok outcomes ∧ b = of phase n out held' fetched' ∧
      ∀ p, ∀ payload ∈ payloadsFrom p calls outcomes, payload ∈ held p ∨ Arrived moves p payload := by
  induction calls generalizing held fetched moves outcome b with
  | nil =>
    obtain ⟨rfl, rfl, rfl⟩ := h.ended_of_pure
    exact ⟨[], held, fetched, rfl, rfl, nofun⟩
  | cons q calls ih =>
    obtain ⟨front, back, first, middle, rfl, hreceive, hback⟩ := h.ended_of_attempt_bind
    obtain ⟨⟨held₁, fetched₁, rfl, hheld⟩, hfirst⟩ := path_receive hreceive
    obtain ⟨error, rfl, hrest⟩ | ⟨middle, last, outcomes, final, rfl, hrest, hlast⟩ := hback.ended_of_bind
    · obtain ⟨_, _, _, hfailed, -⟩ := ih hrest
      cases hfailed
    obtain ⟨outcomes', held', fetched', houtcomes, rfl, hpayloads⟩ := ih hrest
    obtain rfl := Except.ok.inj houtcomes
    obtain ⟨rfl, rfl, rfl⟩ := hlast.ended_of_pure
    refine ⟨first :: outcomes, held', fetched', rfl, rfl, fun p payload hpayload => ?_⟩
    rw [List.append_nil]
    obtain ⟨rfl, rfl⟩ | hmem := mem_payloadsFrom_cons hpayload
    · exact (hfirst payload rfl).imp_right .append_left
    · obtain hheld₁ | harrived := hpayloads p payload hmem
      · exact (hheld p payload hheld₁).imp_right .append_left
      · exact .inr harrived.append_right

theorem path_endRound {outcome : Except Error Unit}
    (h : Path ⟨endRound, of phase n out held fetched⟩ moves ⟨.ofExcept outcome, b⟩) :
    b = of phase n out (fun _ => []) fun _ => false := by
  obtain ⟨rest, rfl, hrest⟩ := h.ended_of_get_bind
  obtain ⟨last, rfl, hlast⟩ := hrest.ended_of_modify_bind
  rw [clearInbox_of] at hlast
  cases hsurplus : (of phase n out held fetched).surplus? with
  | none =>
    rw [hsurplus] at hlast
    exact hlast.ended_of_pure.2.2
  | some surplus =>
    rw [hsurplus] at hlast
    exact hlast.ended_of_fail.2.2

theorem path_round {outcome : Except Error (List (Except Error Payload) × Except Error Unit)}
    (h : Path ⟨round me calls, of phase n out held fetched⟩ moves ⟨.ofExcept outcome, b⟩) :
    b = of phase n out (fun _ => []) fun _ => false := by
  obtain ⟨error, rfl, hcalls⟩ | ⟨front, back, outcomes, middle, rfl, hcalls, hback⟩ := h.ended_of_bind
  · obtain ⟨_, _, _, hfailed, -⟩ := path_receiveAll hcalls
    cases hfailed
  obtain ⟨_, _, _, -, rfl, -⟩ := path_receiveAll hcalls
  obtain ⟨_, last, closing, final, rfl, hclosing, hlast⟩ := hback.ended_of_attempt_bind
  obtain rfl := path_endRound hclosing
  exact hlast.ended_of_pure.2.2

/-! ## The account of a round -/

/-- All calls of a round returned, and so did its end. -/
structure Succeeded (outcomes : List (Except Error Payload)) (closing : Except Error Unit) : Prop where
  calls : ∀ outcome ∈ outcomes, ∃ payload, outcome = .ok payload
  closing : closing = .ok ()

/-- As many messages as calls are made come from each peer that is called, and in this phase. -/
def Matched (phase : Phase) (calls : List PartyId) (feed : Feed) : Prop :=
  ∀ peer ∈ calls, (feed peer 0).phase = phase ∧ (feed peer 0).messages.length = calls.count peer

variable {outcomes : List (Except Error Payload)} {closing : Except Error Unit}

theorem awaited?_idle {messages : List Payload} :
    awaited? phase feed (fun _ => []) (fun _ => false) p = some messages ↔
      (feed p 0).phase = phase ∧ (feed p 0).messages = messages := by
  simp [awaited?]

/-- If all calls returned, the packet of a peer held what they returned and what is left of it. -/
theorem Tallied.messages_eq
    (h : Tallied calls outcomes (fun _ => false) fetched'
      (awaited? phase feed (fun _ => []) fun _ => false) (awaited? phase feed' held' fetched'))
    (hp : p ∈ calls) : (feed p 0).phase = phase ∧
      (feed p 0).messages = payloadsFrom p calls outcomes ++ held' p := by
  rw [← awaited?_idle, h.awaited p, awaited?, if_pos ((h.fetched p).mpr (.inl hp)), Option.map_some]

theorem Tallied.consumed_iff
    (h : Tallied calls outcomes (fun _ => false) fetched'
      (awaited? phase feed (fun _ => []) fun _ => false) (awaited? phase feed' held' fetched'))
    (hcalls : ∀ p ∈ calls, p < n) (hlength : outcomes.length = calls.length)
    (hfresh : Fresh held' fetched') :
    (∀ p < n, held' p = []) ↔ Matched phase calls feed := by
  have hcount : ∀ p ∈ calls, (feed p 0).messages.length = calls.count p + (held' p).length := by
    intro p hp
    rw [(h.messages_eq hp).2, List.length_append, length_payloadsFrom hlength h.ok]
  constructor
  · intro hheld p hp
    refine ⟨(h.messages_eq hp).1, ?_⟩
    rw [hcount p hp, hheld p (hcalls p hp), List.length_nil, Nat.add_zero]
  · intro hmatched p _
    by_cases hp : p ∈ calls
    · have := hcount p hp
      rw [(hmatched p hp).2] at this
      exact List.eq_nil_of_length_eq_zero (by omega)
    · refine hfresh p (Bool.eq_false_iff.mpr fun hfetched => ?_)
      exact ((h.fetched p).mp hfetched).elim hp (by simp)

theorem Short.not_matched (h : Short calls outcomes (awaited? phase feed (fun _ => []) fun _ => false)) :
    ¬Matched phase calls feed := by
  obtain ⟨p, hp, hshort⟩ := h.awaited
  intro hmatched
  have hlt := hshort _ (awaited?_idle.mpr ⟨(hmatched p hp).1, rfl⟩)
  rw [(hmatched p hp).2] at hlt
  exact lt_irrefl _ hlt

theorem Short.not_succeeded {before : PartyId → Option (List Payload)} (h : Short calls outcomes before) :
    ¬Succeeded outcomes closing := by
  obtain ⟨error, herror⟩ := h.failed
  intro hsucceeded
  obtain ⟨payload, hpayload⟩ := hsucceeded.calls _ herror
  cases hpayload

theorem exists_ends_endRound : ∃ closing,
    endRound.Ends (of phase n out held fetched) [] closing
      (of phase n out (fun _ => []) fun _ => false) ∧
    (closing = .ok () ↔ ∀ p < n, held p = []) ∧
    ∀ error, closing = .error error → ∃ cause, error = .desynchronized cause := by
  by_cases hheld : ∀ p < n, held p = []
  · exact ⟨.ok (), ends_endRound.mpr ⟨rfl, hheld, rfl⟩, iff_of_true rfl hheld, nofun⟩
  · obtain ⟨peer, count, hend⟩ := ends_endRound_surplus hheld
    exact ⟨_, hend, iff_of_false nofun hheld, fun _ h => ⟨_, (Except.error.inj h).symm⟩⟩

/-- A round passes exactly if each packet holds as many messages as calls were made. -/
theorem exists_returns_round (hcalls : ∀ p ∈ calls, p < n ∧ p ≠ me) (feed : Feed) :
    ∃ outcomes closing,
      (round me calls).Returns feed (of phase n out (fun _ => []) fun _ => false)
        (.ok (outcomes, closing)) ∧
      outcomes.length = calls.length ∧ (Succeeded outcomes closing ↔ Matched phase calls feed) ∧
      (Succeeded outcomes closing → ∀ p ∈ calls, payloadsFrom p calls outcomes = (feed p 0).messages) ∧
      ∀ error, .error error ∈ outcomes ∨ closing = .error error →
        ∃ cause, error = .desynchronized cause := by
  obtain ⟨talk, outcomes, held', fetched', feed', hends, hfollows, hlength, herrors, hfresh, haccount⟩ :=
    @exists_ends_receiveAll phase n me out (fun _ => []) (fun _ => false) calls hcalls (fun _ _ => rfl) feed
  obtain ⟨closing, hend, hclosing, hcause⟩ :=
    @exists_ends_endRound phase n out held' fetched'
  have hround : (round me calls).Ends (of phase n out (fun _ => []) fun _ => false) talk
      (.ok (outcomes, closing)) (of phase n out (fun _ => []) fun _ => false) := by
    rw [← List.append_nil talk]
    exact hends.bind ((Program.ends_attempt.mpr ⟨closing, rfl, hend⟩).bind ⟨rfl, rfl, rfl⟩)
  refine ⟨outcomes, closing, Program.returns_iff.mpr ⟨talk, _, hround, hfollows⟩, hlength, ?_, ?_,
    fun error => Or.rec (herrors error) (hcause error)⟩
  · cases haccount with
    | inl haccount =>
      rw [← haccount.consumed_iff (fun p hp => (hcalls p hp).1) hlength hfresh, ← hclosing]
      exact ⟨Succeeded.closing, fun h => ⟨haccount.ok, h⟩⟩
    | inr hshort => exact iff_of_false hshort.not_succeeded hshort.not_matched
  · intro hsucceeded p hp
    cases haccount with
    | inl haccount =>
      have hheld : held' p = [] := hclosing.mp hsucceeded.closing p (hcalls p hp).1
      rw [(haccount.messages_eq hp).2, hheld, List.append_nil]
    | inr hshort => exact absurd hsucceeded hshort.not_succeeded

/-- Between rounds nothing is fetched. If from every peer a packet comes next, the calls of a round and its
end all return exactly if each packet is of this phase and holds as many messages as there are calls to its
sender, and then the calls return these messages in their order. Otherwise what fails first, like
everything that fails, shows that the parties are out of step. Whatever comes, after the end of the round
nothing is fetched and nothing is left to consume, so that a later round returns only what comes in it. -/
theorem round_accounts {buffer : RoundBuffer} (hidle : buffer.Idle) {me : PartyId}
    {calls : List PartyId} (hcalls : ∀ peer ∈ calls, buffer.isPeer me peer = true) (feed : Feed) :
    (∃ outcomes closing, (round me calls).Returns feed buffer (.ok (outcomes, closing)) ∧
      outcomes.length = calls.length ∧
      (Succeeded outcomes closing ↔ ∀ peer ∈ calls, (feed peer 0).phase = buffer.phase ∧
        (feed peer 0).messages.length = calls.count peer) ∧
      (Succeeded outcomes closing →
        ∀ peer ∈ calls, payloadsFrom peer calls outcomes = (feed peer 0).messages) ∧
      ∀ error, .error error ∈ outcomes ∨ closing = .error error →
        ∃ cause, error = .desynchronized cause) ∧
    (∀ moves outcome final, Path ⟨round me calls, buffer⟩ moves ⟨.ofExcept outcome, final⟩ →
      final = buffer) ∧
    ∀ later : RoundBuffer, later.Idle → ∀ calls moves outcome final,
      Path ⟨receiveAll me calls, later⟩ moves ⟨.ofExcept outcome, final⟩ →
        ∃ outcomes, outcome = .ok outcomes ∧
          ∀ peer, ∀ payload ∈ payloadsFrom peer calls outcomes, Arrived moves peer payload := by
  refine ⟨?_, fun moves outcome final hpath => ?_, fun later hlater calls moves outcome final hpath => ?_⟩
  · rw [hidle.eq_of]
    refine exists_returns_round (fun peer hpeer => ?_) feed
    have hisPeer := hcalls peer hpeer
    rw [hidle.eq_of] at hisPeer
    exact isPeer_of.mp hisPeer
  · rw [hidle.eq_of] at hpath ⊢
    exact path_round hpath
  · rw [hlater.eq_of] at hpath
    obtain ⟨outcomes, _, _, rfl, -, hpayloads⟩ := path_receiveAll hpath
    exact ⟨outcomes, rfl, fun peer payload hmem => (hpayloads peer payload hmem).resolve_left nofun⟩

/-- Of two peers, one sends two messages and one sends one, and the calls to them take turns. -/
theorem round_accounts_turns : ∃ outcomes closing,
    (round 0 [1, 2, 1]).Returns
      (fun peer _ => ⟨.circuit 0, if peer = 1 then [[10], [11]] else [[20]]⟩) (start (.circuit 0) 3)
      (.ok (outcomes, closing)) ∧ Succeeded outcomes closing ∧
    payloadsFrom 1 [1, 2, 1] outcomes = [[10], [11]] ∧ payloadsFrom 2 [1, 2, 1] outcomes = [[20]] := by
  have hidle : (start (.circuit 0) 3).Idle := by
    rw [start_eq_of]
    exact idle_of ..
  obtain ⟨⟨outcomes, closing, hreturns, -, hsucceeded, hpayloads, -⟩, -, -⟩ :=
    @round_accounts _ hidle 0 [1, 2, 1] (by decide)
      fun peer _ => ⟨.circuit 0, if peer = 1 then [[10], [11]] else [[20]]⟩
  have hsucceeded := hsucceeded.mpr (by decide)
  exact ⟨outcomes, closing, hreturns, hsucceeded, hpayloads hsucceeded 1 (by decide),
    hpayloads hsucceeded 2 (by decide)⟩

end RoundBuffer
end AuthenticatedMpc
