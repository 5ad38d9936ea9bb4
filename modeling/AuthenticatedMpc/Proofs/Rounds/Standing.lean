import AuthenticatedMpc.Proofs.Rounds.Conversation
import AuthenticatedMpc.Proofs.Runs.Chronicle
import AuthenticatedMpc.Proofs.Runs.Vigilance

/-!
# Where a party stands in its exchanges

Whatever the transport delivers, a party that goes on has made whole exchanges. Within an exchange it
has sent its packet to some of its peers and has heard some of theirs.
-/

namespace AuthenticatedMpc

/-- The party has said and heard what belongs to these exchanges. -/
structure Exchanged (me : Party) (exchanges : List (PartyId → Packet)) (now : List Move) : Prop where
  sentTo : ∀ q ∈ me.peers, sentTo q (talkOf now) = exchanges.map (· me.id)
  receivedFrom : ∀ q ∈ me.peers, receivedFrom q (talkOf now) = exchanges.map (· q)

/-- After these exchanges, the party has sent its own packet to some peers and has heard the packets of
some. -/
structure Standing (me : Party) (exchanges : List (PartyId → Packet)) (own : Packet)
    (sent : PartyId → Bool) (heard : PartyId → Option Packet) (chronicle : Chronicle)
    (now : List Move) : Prop where
  sentTo : ∀ q ∈ me.peers,
    sentTo q (talkOf now) = exchanges.map (· me.id) ++ if sent q then [own] else []
  receivedFrom : ∀ q ∈ me.peers,
    receivedFrom q (talkOf now) = exchanges.map (· q) ++ (heard q).toList
  chronicle_eq : Chronicle.ofMoves now = chronicle

/-- After these exchanges, the party has said at most its own packet. -/
def Saying (me : Party) (exchanges : List (PartyId → Packet)) (own : Packet) (now : List Move) :
    Prop :=
  ∀ q ∈ me.peers, AuthenticatedMpc.sentTo q (talkOf now) <+: exchanges.map (· me.id) ++ [own]

section Exchanged

variable {me : Party} {exchanges more : List (PartyId → Packet)} {past now : List Move}
  {event : Option Event}

theorem Exchanged.inner (h : Exchanged me exchanges past) :
    Exchanged me exchanges (past ++ [Move.inner event]) :=
  ⟨by simpa using h.sentTo, by simpa using h.receivedFrom⟩

theorem Exchanged.saying (h : Exchanged me exchanges now) (own : Packet) :
    Saying me exchanges own now := fun q hq => h.sentTo q hq ▸ List.prefix_append ..

/-- A conversation adds its exchanges. -/
theorem Exchanged.conversation (h : Exchanged me exchanges past)
    (hnow : talkOf now = talkOf past ++ conversation me more) :
    Exchanged me (exchanges ++ more) now where
  sentTo q hq := by
    rw [hnow, sentTo_append, h.sentTo q hq, sentTo_conversation hq, List.map_append]
  receivedFrom q hq := by
    rw [hnow, receivedFrom_append, h.receivedFrom q hq, receivedFrom_conversation hq,
      List.map_append]

theorem Exchanged.standing (h : Exchanged me exchanges now) (own : Packet) :
    Standing me exchanges own (fun _ => false) (fun _ => none) (.ofMoves now) now :=
  ⟨fun q hq => (h.sentTo q hq).trans (List.append_nil _).symm,
    fun q hq => (h.receivedFrom q hq).trans (List.append_nil _).symm, rfl⟩

theorem exchanged_nil : Exchanged me [] [] := ⟨fun _ _ => rfl, fun _ _ => rfl⟩

end Exchanged

namespace Standing

variable {me : Party} {exchanges : List (PartyId → Packet)} {own packet : Packet}
  {sent : PartyId → Bool} {heard : PartyId → Option Packet} {chronicle : Chronicle}
  {past now : List Move} {q : PartyId} {cause : NetworkError}

theorem saying (h : Standing me exchanges own sent heard chronicle now) :
    Saying me exchanges own now := by
  intro q hq
  rw [h.sentTo q hq]
  split
  · exact List.prefix_refl _
  · rw [List.append_nil]
    exact List.prefix_append ..

theorem congr {sent' : PartyId → Bool} {heard' : PartyId → Option Packet}
    (h : Standing me exchanges own sent heard chronicle now)
    (hsent : ∀ q ∈ me.peers, sent q = sent' q) (hheard : ∀ q ∈ me.peers, heard q = heard' q) :
    Standing me exchanges own sent' heard' chronicle now :=
  { h with
    sentTo := fun q hq => hsent q hq ▸ h.sentTo q hq
    receivedFrom := fun q hq => hheard q hq ▸ h.receivedFrom q hq }

theorem inner (h : Standing me exchanges own sent heard chronicle past) (event : Option Event) :
    Standing me exchanges own sent heard (chronicle.note (.inner event))
      (past ++ [Move.inner event]) :=
  ⟨by simpa using h.sentTo, by simpa using h.receivedFrom, by simp [h.chronicle_eq]⟩

theorem silent (h : Standing me exchanges own sent heard chronicle past) :
    Standing me exchanges own sent heard chronicle (past ++ [Move.inner none]) :=
  h.inner none

theorem send (h : Standing me exchanges own sent heard chronicle past) (hq : sent q = false) :
    Standing me exchanges own (Function.update sent q true) heard chronicle
      (past ++ [.sent q own (.ok ())]) where
  sentTo x hx := by
    rw [talkOf_sent, sentTo_append, h.sentTo x hx, sentTo_sent]
    rcases eq_or_ne x q with rfl | hne
    · simp [hq, AuthenticatedMpc.sentTo]
    · simp [hne, hne.symm, AuthenticatedMpc.sentTo]
  receivedFrom x hx := by
    rw [talkOf_sent, receivedFrom_append, h.receivedFrom x hx]
    exact List.append_nil _
  chronicle_eq := by simp [h.chronicle_eq, Chronicle.note]

theorem send_error (h : Standing me exchanges own sent heard chronicle past) :
    Standing me exchanges own sent heard chronicle (past ++ [.sent q packet (.error cause)]) :=
  ⟨by simpa using h.sentTo, by simpa using h.receivedFrom,
    by simp [h.chronicle_eq, Chronicle.note]⟩

theorem receive (h : Standing me exchanges own sent heard chronicle past) (hq : heard q = none) :
    Standing me exchanges own sent (Function.update heard q (some packet)) chronicle
      (past ++ [.received q (.ok packet)]) where
  sentTo x hx := by
    rw [talkOf_received, sentTo_append, h.sentTo x hx]
    exact List.append_nil _
  receivedFrom x hx := by
    rw [talkOf_received, receivedFrom_append, h.receivedFrom x hx, receivedFrom_received]
    rcases eq_or_ne x q with rfl | hne
    · simp [hq, AuthenticatedMpc.receivedFrom]
    · simp [hne, hne.symm, AuthenticatedMpc.receivedFrom]
  chronicle_eq := by simp [h.chronicle_eq, Chronicle.note]

theorem receive_error (h : Standing me exchanges own sent heard chronicle past) :
    Standing me exchanges own sent heard chronicle (past ++ [.received q (.error cause)]) :=
  ⟨by simpa using h.sentTo, by simpa using h.receivedFrom,
    by simp [h.chronicle_eq, Chronicle.note]⟩

theorem exchanged (h : Standing me exchanges own (fun _ => false) (fun _ => none) chronicle now) :
    Exchanged me exchanges now :=
  ⟨fun q hq => (h.sentTo q hq).trans (List.append_nil _),
    fun q hq => (h.receivedFrom q hq).trans (List.append_nil _)⟩

theorem exchanged_append (h : Standing me exchanges own (fun _ => true) heard chronicle now)
    {packets : PartyId → Packet} (hown : packets me.id = own)
    (hheard : ∀ q ∈ me.peers, heard q = some (packets q)) :
    Exchanged me (exchanges ++ [packets]) now where
  sentTo q hq := by simp [h.sentTo q hq, hown]
  receivedFrom q hq := by simp [h.receivedFrom q hq, hheard q hq]

end Standing
end AuthenticatedMpc
