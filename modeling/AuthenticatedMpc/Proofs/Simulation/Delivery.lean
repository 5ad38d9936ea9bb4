import AuthenticatedMpc.Proofs.Simulation.RoundCalls

/-!
# Delivery between rounds

The parties of a hub make the calls of their rounds in any order. Between two parties nothing is lost,
repeated, reordered or delivered elsewhere: what the one has flushed for the other is what the other has
received, what it has fetched and not consumed, and what is still on its way.
-/

namespace AuthenticatedMpc

open RoundBuffer

/-- A call that a party has made, and the reply. -/
structure Made where
  party : PartyId
  call : RoundCall
  reply : RoundReply

def RoundReply.isError : RoundReply → Bool
  | .result (.error _) => true
  | _ => false

/-- Whether a call of one of the two parties has returned an error. -/
def Made.failedFor (p q : PartyId) (made : Made) : Bool :=
  (made.party == p || made.party == q) && made.reply.isError

/-- Makes one call after the other, up to the first that is one to stop at. -/
def Hub.playUntil (stop : Made → Bool) (hub : Hub) : List (PartyId × RoundCall) → List Made × Hub
  | [] => ([], hub)
  | (party, call) :: rest =>
    let (reply, after) := hub.call party call
    if stop ⟨party, call, reply⟩ then ([], hub)
    else
      let (log, last) := after.playUntil stop rest
      (⟨party, call, reply⟩ :: log, last)

/-! ## What was flushed and what was received -/

/-- What a party has queued for another and not flushed yet, and what it has flushed. -/
structure Outgoing where
  queued : List Payload := []
  flushed : List Payload := []

def Outgoing.after (p q : PartyId) (outgoing : Outgoing) (made : Made) : Outgoing :=
  if made.party = p then
    match made.call with
    | .send peer payload =>
      if peer = q then { outgoing with queued := outgoing.queued ++ [payload] } else outgoing
    | .broadcast payload => { outgoing with queued := outgoing.queued ++ [payload] }
    | .flush => ⟨[], outgoing.flushed ++ outgoing.queued⟩
    | .receive _ | .endRound => outgoing
  else outgoing

def outgoing (p q : PartyId) (log : List Made) : Outgoing := log.foldl (Outgoing.after p q) {}

def Made.received? (p q : PartyId) (made : Made) : Option Payload :=
  if made.party = q ∧ made.call = .receive p then
    match made.reply with
    | .result (.ok payload) => payload
    | _ => none
  else none

def received (p q : PartyId) (log : List Made) : List Payload := log.filterMap (Made.received? p q)

namespace Hub

def queued (hub : Hub) (p q : PartyId) : List Payload :=
  ((hub.buffers[p]?).map fun buffer => buffer.queued q).getD []

/-- What a party has yet to receive from another: what it has fetched and not consumed, and what is on
its way. -/
def undelivered (hub : Hub) (p q : PartyId) : List Payload :=
  ((hub.buffers[q]?).map fun buffer => buffer.pending p).getD [] ++
    (hub.mesh.queue p q).flatMap Packet.messages

end Hub

/-! ## One call -/

namespace RoundCall

variable {phase : Phase} {n : Nat} {me : PartyId} {out held : PartyId → List Payload}
  {fetched : PartyId → Bool} {call : RoundCall} {talk : List Signal} {reply : RoundReply}
  {buffer : RoundBuffer}

theorem Effect.outgoing_after (h : Effect phase n me out held fetched call talk reply buffer)
    {q : PartyId} (hq : q < n) (hne : q ≠ me) (hreply : reply.isError = false) {sum : Outgoing}
    (hsum : sum.queued = out q) :
    sum.after me q ⟨me, call, reply⟩ =
      ⟨buffer.queued q, sum.flushed ++ (sentTo q talk).flatMap Packet.messages⟩ := by
  obtain ⟨_, flushed⟩ := sum
  subst hsum
  rw [Outgoing.after, if_pos rfl]
  cases h with
  | send peer payload hpeer =>
    rw [queued_of hq]
    rcases eq_or_ne peer q with rfl | hpq
    · simp [sentTo]
    · simp [sentTo, hpq, hpq.symm]
  | broadcast payload => simp [queued_of hq, hne, sentTo]
  | flush => rw [queued_of hq, flatMap_sentTo_flush hq]
  | next | first | endRound | waiting => simp [queued_of hq, sentTo]
  | failed => cases hreply

theorem Effect.received_append (h : Effect phase n me out held fetched call talk reply buffer)
    {p : PartyId} (hp : p < n) (hreply : reply.isError = false) :
    held p ++ (receivedFrom p talk).flatMap Packet.messages =
      (Made.received? p me ⟨me, call, reply⟩).toList ++ buffer.pending p := by
  cases h with
  | send | broadcast | waiting => simp [pending_of hp, Made.received?, receivedFrom]
  | endRound hheld => simp [pending_of hp, Made.received?, receivedFrom, hheld p hp]
  | flush => simp [pending_of hp, Made.received?, receivedFrom]
  | next peer message rest hheld =>
    rcases eq_or_ne peer p with rfl | hne
    · simp [pending_of hp, Made.received?, receivedFrom, hheld]
    · simp [pending_of hp, Made.received?, receivedFrom, hne, hne.symm]
  | first peer message rest hheld hpeer =>
    rcases eq_or_ne peer p with rfl | hne
    · simp [pending_of hp, Made.received?, receivedFrom, hheld]
    · simp [pending_of hp, Made.received?, receivedFrom, hne, hne.symm]
  | failed => cases hreply

end RoundCall

namespace Hub

variable {n : Nat} {hub after : Hub} {me p q : PartyId} {call : RoundCall} {reply : RoundReply}
  {log : List Made}

/-- A call has its effect on the buffer of its party and, by what it says and hears, on the mesh. -/
theorem Ready.exists_effect (h : hub.Ready n) (hme : me < n) (hcall : hub.call me call = (reply, after)) :
    ∃ phase out held fetched talk buffer,
      hub.buffers[me]? = some (of phase n out held fetched) ∧ out me = [] ∧
      (∀ q, fetched q = false → held q = []) ∧
      call.Effect phase n me out held fetched talk reply buffer ∧
      after.buffers = hub.buffers.set me buffer ∧ hub.mesh.Exchanged n me talk after.mesh := by
  obtain ⟨phase, _, hbuffer, out, held, fetched, rfl, hown, hfresh⟩ := h.buffer me hme
  obtain ⟨talk, _, buffer, mesh, heffect, hcall', hexchanged⟩ := h.acts hme hbuffer hown hfresh call
  obtain ⟨rfl, rfl⟩ := Prod.mk.inj (hcall'.symm.trans hcall)
  exact ⟨phase, out, held, fetched, talk, buffer, hbuffer, hown, hfresh, heffect, rfl, hexchanged⟩

theorem Ready.call_eq_of_le (h : hub.Ready n) (hme : n ≤ me) :
    hub.call me call = (.waiting, hub) := by
  have hnone : hub.buffers[me]? = none := List.getElem?_eq_none (h.length.trans_le hme)
  simp only [Hub.call, hnone]

theorem Ready.of_call (h : hub.Ready n) (hcall : hub.call me call = (reply, after)) :
    after.Ready n := by
  by_cases hme : me < n
  · obtain ⟨phase, out, held, fetched, talk, buffer, -, hown, hfresh, heffect, hbuffers, hexchanged⟩ :=
      h.exists_effect hme hcall
    refine ⟨hexchanged.connected, fun i hi => (hexchanged.isOpen_eq i).trans (h.isOpen i hi),
      by rw [hbuffers, List.length_set, h.length], fun i hi => ?_⟩
    rw [hbuffers]
    rcases eq_or_ne i me with rfl | hne
    · exact ⟨phase, buffer, List.getElem?_set_self (h.length.symm ▸ hi), heffect.fits hown hfresh⟩
    · rw [List.getElem?_set_ne hne.symm]
      exact h.buffer i hi
  · obtain ⟨-, rfl⟩ := Prod.mk.inj ((h.call_eq_of_le (Nat.le_of_not_lt hme)).symm.trans hcall)
    exact h

/-- What was flushed is what was received and what is undelivered. -/
structure Accounts (p q : PartyId) (log : List Made) (hub : Hub) : Prop where
  queued : (outgoing p q log).queued = hub.queued p q
  flushed : (outgoing p q log).flushed = received p q log ++ hub.undelivered p q

theorem accounts_start (phases : List Phase) {p q : PartyId} (hp : p < phases.length)
    (hq : q < phases.length) : (start phases).Accounts p q [] where
  queued := by
    simp [outgoing, Hub.queued, start, hp, RoundBuffer.queued, RoundBuffer.start, hq]
  flushed := by
    simp [outgoing, received, undelivered, start, hq, pending, RoundBuffer.start, hp,
      Mesh.queue_connect]

theorem outgoing_append_singleton (made : Made) :
    outgoing p q (log ++ [made]) = (outgoing p q log).after p q made := List.foldl_concat ..

theorem received_append_singleton (made : Made) :
    received p q (log ++ [made]) = received p q log ++ (made.received? p q).toList := by
  simp only [received, List.filterMap_append, List.filterMap_cons, List.filterMap_nil]
  cases made.received? p q <;> rfl

theorem Accounts.of_other (haccounts : hub.Accounts p q log) (h : hub.Ready n) (hp : p ≠ me)
    (hq : q ≠ me) (hcall : hub.call me call = (reply, after)) :
    after.Accounts p q (log ++ [⟨me, call, reply⟩]) := by
  have houtgoing : outgoing p q (log ++ [⟨me, call, reply⟩]) = outgoing p q log := by
    rw [outgoing_append_singleton, Outgoing.after, if_neg hp.symm]
  have hreceived : received p q (log ++ [⟨me, call, reply⟩]) = received p q log := by
    rw [received_append_singleton, Made.received?, if_neg fun h => hq h.1.symm]
    exact List.append_nil _
  by_cases hme : me < n
  · obtain ⟨_, _, _, _, _, buffer, -, -, -, -, hbuffers, hexchanged⟩ := h.exists_effect hme hcall
    refine ⟨?_, ?_⟩
    · rw [houtgoing, haccounts.queued, Hub.queued, Hub.queued, hbuffers,
        List.getElem?_set_ne hp.symm]
    · rw [houtgoing, hreceived, haccounts.flushed, undelivered, undelivered, hbuffers,
        List.getElem?_set_ne hq.symm, hexchanged.others p q hp hq]
  · obtain ⟨-, rfl⟩ := Prod.mk.inj ((h.call_eq_of_le (Nat.le_of_not_lt hme)).symm.trans hcall)
    exact ⟨houtgoing ▸ haccounts.queued, houtgoing ▸ hreceived ▸ haccounts.flushed⟩

theorem Accounts.of_sender (haccounts : hub.Accounts p q log) (h : hub.Ready n) (hp : p < n)
    (hq : q < n) (hne : p ≠ q) (hcall : hub.call p call = (reply, after))
    (hreply : reply.isError = false) : after.Accounts p q (log ++ [⟨p, call, reply⟩]) := by
  obtain ⟨phase, out, held, fetched, talk, buffer, hbuffer, -, -, heffect, hbuffers, hexchanged⟩ :=
    h.exists_effect hp hcall
  have hqueued : (outgoing p q log).queued = out q := by
    rw [haccounts.queued, Hub.queued, hbuffer, Option.map_some, Option.getD_some, queued_of hq]
  have houtgoing : outgoing p q (log ++ [⟨p, call, reply⟩]) = ⟨buffer.queued q,
      (outgoing p q log).flushed ++ (sentTo q talk).flatMap Packet.messages⟩ := by
    rw [outgoing_append_singleton]
    exact heffect.outgoing_after hq hne.symm hreply hqueued
  have hreceived : received p q (log ++ [⟨p, call, reply⟩]) = received p q log := by
    rw [received_append_singleton, Made.received?, if_neg fun h => hne h.1]
    exact List.append_nil _
  have hafter : after.buffers[p]? = some buffer := by
    rw [hbuffers, List.getElem?_set_self (h.length.symm ▸ hp)]
  refine ⟨?_, ?_⟩
  · rw [houtgoing, Hub.queued, hafter, Option.map_some, Option.getD_some]
  · rw [houtgoing, hreceived, haccounts.flushed, undelivered, undelivered, hbuffers,
      List.getElem?_set_ne hne, hexchanged.said q hne.symm, List.flatMap_append, List.append_assoc,
      List.append_assoc]

theorem Accounts.of_receiver (haccounts : hub.Accounts p q log) (h : hub.Ready n) (hp : p < n)
    (hq : q < n) (hne : p ≠ q) (hcall : hub.call q call = (reply, after))
    (hreply : reply.isError = false) : after.Accounts p q (log ++ [⟨q, call, reply⟩]) := by
  obtain ⟨phase, out, held, fetched, talk, buffer, hbuffer, -, -, heffect, hbuffers, hexchanged⟩ :=
    h.exists_effect hq hcall
  have houtgoing : outgoing p q (log ++ [⟨q, call, reply⟩]) = outgoing p q log := by
    rw [outgoing_append_singleton, Outgoing.after, if_neg hne.symm]
  have hbefore : hub.undelivered p q =
      held p ++ (receivedFrom p talk).flatMap Packet.messages ++
        (after.mesh.queue p q).flatMap Packet.messages := by
    rw [undelivered, hbuffer, Option.map_some, Option.getD_some, pending_of hp,
      ← hexchanged.heard p hne, List.flatMap_append, List.append_assoc]
  have hafter : after.undelivered p q =
      buffer.pending p ++ (after.mesh.queue p q).flatMap Packet.messages := by
    rw [undelivered, hbuffers, List.getElem?_set_self (h.length.symm ▸ hq), Option.map_some,
      Option.getD_some]
  refine ⟨?_, ?_⟩
  · rw [houtgoing, haccounts.queued, Hub.queued, Hub.queued, hbuffers,
      List.getElem?_set_ne hne.symm]
  · rw [houtgoing, haccounts.flushed, hbefore, heffect.received_append hp hreply,
      received_append_singleton, hafter]
    simp only [List.append_assoc]

/-- Whoever makes a call, the accounts of two parties stay right as long as neither has failed. -/
theorem Accounts.of_call (haccounts : hub.Accounts p q log) (h : hub.Ready n) (hp : p < n)
    (hq : q < n) (hne : p ≠ q) (hcall : hub.call me call = (reply, after))
    (hok : Made.failedFor p q ⟨me, call, reply⟩ = false) :
    after.Accounts p q (log ++ [⟨me, call, reply⟩]) := by
  rcases eq_or_ne me p with rfl | hmp
  · exact haccounts.of_sender h hp hq hne hcall (by simpa [Made.failedFor] using hok)
  rcases eq_or_ne me q with rfl | hmq
  · exact haccounts.of_receiver h hp hq hne hcall (by simpa [Made.failedFor] using hok)
  · exact haccounts.of_other h hmp.symm hmq.symm hcall

theorem Accounts.of_playUntil (haccounts : hub.Accounts p q log) (h : hub.Ready n) (hp : p < n)
    (hq : q < n) (hne : p ≠ q) (calls : List (PartyId × RoundCall)) :
    (hub.playUntil (Made.failedFor p q) calls).2.Accounts p q
      (log ++ (hub.playUntil (Made.failedFor p q) calls).1) := by
  induction calls generalizing hub log with
  | nil => rwa [playUntil, List.append_nil]
  | cons first rest ih =>
    obtain ⟨party, call⟩ := first
    obtain ⟨⟨reply, after⟩, hcall⟩ : ∃ result, hub.call party call = result := ⟨_, rfl⟩
    simp only [playUntil, hcall]
    split
    · rwa [List.append_nil]
    · next hok =>
      have hafter := haccounts.of_call h hp hq hne hcall (by simpa using hok)
      have hrest := ih hafter (h.of_call hcall)
      rwa [List.append_assoc] at hrest

end Hub

/-- In whatever order parties make the calls of their rounds, until one of two parties sees an error the
one receives a prefix of what the other has flushed for it; the rest was fetched and is not consumed
yet, or is still on its way. -/
theorem Hub.received_prefix_flushed {phases : List Phase} {p q : PartyId} (hp : p < phases.length)
    (hq : q < phases.length) (hne : p ≠ q) (calls : List (PartyId × RoundCall)) :
    let run := (Hub.start phases).playUntil (Made.failedFor p q) calls
    received p q run.1 <+: (outgoing p q run.1).flushed ∧
      (outgoing p q run.1).flushed = received p q run.1 ++ run.2.undelivered p q := by
  have haccounts := (accounts_start phases hp hq).of_playUntil (ready_start phases) hp hq hne calls
  exact ⟨⟨_, haccounts.flushed.symm⟩, haccounts.flushed⟩

/-- Of four payloads in two packets, among them an empty one, the first party's peer has received two
when it ends a round too early. -/
theorem Hub.received_prefix_flushed_three :
    let calls : List (PartyId × RoundCall) :=
      [(1, .receive 0), (0, .send 1 [1]), (0, .broadcast [2]), (0, .send 1 []), (2, .broadcast [3]),
        (0, .flush), (1, .receive 0), (0, .broadcast [4]), (0, .endRound), (0, .flush), (1, .receive 0),
        (1, .endRound), (1, .receive 0)]
    let run := (Hub.start (List.replicate 3 (.circuit 7))).playUntil (Made.failedFor 0 1) calls
    received 0 1 run.1 = [[1], [2]] ∧ (outgoing 0 1 run.1).flushed = [[1], [2], [], [4]] ∧
      received 0 1 run.1 <+: (outgoing 0 1 run.1).flushed ∧
      (outgoing 0 1 run.1).flushed = received 0 1 run.1 ++ run.2.undelivered 0 1 := by
  intro calls run
  refine ⟨by decide, by decide, ?_⟩
  exact Hub.received_prefix_flushed (by decide) (by decide) (by decide) calls

end AuthenticatedMpc
