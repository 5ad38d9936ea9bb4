import AuthenticatedMpc.Proofs.Rounds.Exchange

/-!
# Conversations

When all parties run in step, what they say and hear is a sequence of exchanges, the same for all of
them. A party that waits in an exchange has said all that it has to say in it.
-/

namespace AuthenticatedMpc

/-- Exchanges in order, as a party sees them. An exchange is given by the packet of each party. -/
def conversation (me : Party) (exchanges : List (PartyId → Packet)) : List Signal :=
  exchanges.flatMap fun packets => exchange me (packets me.id) packets

variable {me : Party} {exchanges : List (PartyId → Packet)} {q : PartyId} {packet : Packet}
  {rest : List Signal}

theorem conversation_append (front back : List (PartyId → Packet)) :
    conversation me (front ++ back) = conversation me front ++ conversation me back :=
  List.flatMap_append

theorem receivedFrom_conversation (hq : q ∈ me.peers) :
    receivedFrom q (conversation me exchanges) = exchanges.map (· q) := by
  induction exchanges with
  | nil => rfl
  | cons packets exchanges ih =>
    rw [conversation, List.flatMap_cons, receivedFrom_append, ← conversation, ih,
      receivedFrom_exchange, if_pos hq]
    rfl

theorem sentTo_conversation (hq : q ∈ me.peers) :
    sentTo q (conversation me exchanges) = exchanges.map (· me.id) := by
  induction exchanges with
  | nil => rfl
  | cons packets exchanges ih =>
    rw [conversation, List.flatMap_cons, sentTo_append, ← conversation, ih, sentTo_exchange,
      if_pos hq]
    rfl

theorem mem_peers_of_sent (h : .sent q packet ∈ conversation me exchanges) : q ∈ me.peers := by
  simp only [conversation, exchange, List.mem_flatMap, List.mem_append, List.mem_map,
    Signal.sent.injEq, reduceCtorEq, and_false, exists_false, or_false] at h
  obtain ⟨_, _, _, hq, rfl, -⟩ := h
  exact hq

theorem mem_peers_of_received (h : .received q packet ∈ conversation me exchanges) :
    q ∈ me.peers := by
  simp only [conversation, exchange, List.mem_flatMap, List.mem_append, List.mem_map,
    Signal.received.injEq, reduceCtorEq, and_false, exists_false, false_or] at h
  obtain ⟨_, _, _, hq, rfl, -⟩ := h
  exact hq

theorem receivedFrom_conversation_of_notMem (hq : q ∉ me.peers) :
    receivedFrom q (conversation me exchanges) = [] := by
  induction exchanges with
  | nil => rfl
  | cons packets exchanges ih =>
    rw [conversation, List.flatMap_cons, receivedFrom_append, ← conversation, ih,
      receivedFrom_exchange, if_neg hq]
    rfl

theorem closed_notMem_conversation : .closed ∉ conversation me exchanges := by
  simp [conversation, exchange]

/-- What a party does after a conversation: it may end its streams. -/
def ending (closes : Bool) : List Signal := if closes then [.closed] else []

variable {closes : Bool}

@[simp] theorem receivedFrom_ending : receivedFrom q (ending closes) = [] := by
  cases closes <;> rfl

@[simp] theorem sentTo_ending : sentTo q (ending closes) = [] := by
  cases closes <;> rfl

theorem eq_closed_of_mem_ending {signal : Signal} (h : signal ∈ ending closes) :
    signal = .closed := by
  cases closes with
  | false => cases h
  | true => exact List.mem_singleton.mp h

theorem suffix_append {α : Type} {rest front back : List α} (h : rest <:+ front ++ back) :
    rest <:+ back ∨ ∃ first, first <:+ front ∧ first ≠ [] ∧ rest = first ++ back := by
  obtain ⟨before, h⟩ := h
  obtain ⟨first, rfl, hrest⟩ | ⟨middle, -, rfl⟩ := List.append_eq_append_iff.mp h
  · by_cases hnil : first = []
    · exact .inl (by simp [hrest, hnil])
    · exact .inr ⟨first, List.suffix_append .., hnil, hrest⟩
  · exact .inl (List.suffix_append ..)

/-- A party that waits for a peer has as many packets to send as it will await from that peer once
this one is there. -/
theorem exists_later_of_suffix (h : .received q packet :: rest <:+ conversation me exchanges ++
    ending closes) :
    ∃ later : List (PartyId → Packet), later.length < exchanges.length ∧
      receivedFrom q rest = later.map (· q) ∧
      ∀ x ∈ me.peers, sentTo x rest = later.map (· me.id) := by
  induction exchanges with
  | nil => cases eq_closed_of_mem_ending (h.subset (List.mem_cons_self ..))
  | cons packets exchanges ih =>
    rw [conversation, List.flatMap_cons, ← conversation, List.append_assoc] at h
    obtain h | ⟨first, hfirst, hne, heq⟩ := suffix_append h
    · obtain ⟨later, hlater, htalk⟩ := ih h
      exact ⟨later, hlater.trans (Nat.lt_succ_self _), htalk⟩
    obtain hfirst | ⟨sends, hsends, hsome, rfl⟩ := suffix_append hfirst
    · obtain ⟨peers, hpeers, rfl⟩ := List.suffix_map_iff.mp hfirst
      obtain ⟨peer, peers, rfl⟩ := List.exists_cons_of_ne_nil (mt List.map_eq_nil_iff.mpr hne)
      rw [List.map_cons, List.cons_append] at heq
      obtain ⟨hsignal, rfl⟩ := List.cons.inj heq
      obtain ⟨rfl, -⟩ := Signal.received.inj hsignal
      obtain ⟨hnotin, hnodup⟩ := List.nodup_cons.mp (Party.nodup_peers.sublist hpeers.sublist)
      have hq : q ∈ me.peers := hpeers.subset (List.mem_cons_self ..)
      refine ⟨exchanges, Nat.lt_succ_self _, ?_, fun x hx => ?_⟩
      · rw [receivedFrom_append, receivedFrom_append, receivedFrom_map_received hnodup,
          if_neg hnotin, receivedFrom_conversation hq, receivedFrom_ending]
        exact List.append_nil _
      · rw [sentTo_append, sentTo_append, sentTo_map_received, sentTo_conversation hx,
          sentTo_ending]
        exact List.append_nil _
    · obtain ⟨peers, -, rfl⟩ := List.suffix_map_iff.mp hsends
      obtain ⟨peer, peers, rfl⟩ := List.exists_cons_of_ne_nil (mt List.map_eq_nil_iff.mpr hsome)
      cases heq

theorem eq_nil_of_suffix (h : .closed :: rest <:+ conversation me exchanges ++ ending closes) :
    rest = [] := by
  obtain h | ⟨first, hfirst, hne, heq⟩ := suffix_append h
  · cases closes with
    | false => cases List.suffix_nil.mp h
    | true =>
      obtain h | h := List.suffix_cons_iff.mp h
      · exact (List.cons.inj h).2
      · cases List.suffix_nil.mp h
  · obtain ⟨signal, first, rfl⟩ := List.exists_cons_of_ne_nil hne
    obtain ⟨rfl, -⟩ := List.cons.inj heq
    exact absurd (hfirst.subset (List.mem_cons_self ..)) closed_notMem_conversation

theorem mem_peers_of_suffix_sent
    (h : .sent q packet :: rest <:+ conversation me exchanges ++ ending closes) :
    q ∈ me.peers := by
  obtain hmem | hmem := List.mem_append.mp (h.subset (List.mem_cons_self ..))
  · exact mem_peers_of_sent hmem
  · cases eq_closed_of_mem_ending hmem

theorem mem_peers_of_suffix_received
    (h : .received q packet :: rest <:+ conversation me exchanges ++ ending closes) :
    q ∈ me.peers := by
  obtain hmem | hmem := List.mem_append.mp (h.subset (List.mem_cons_self ..))
  · exact mem_peers_of_received hmem
  · cases eq_closed_of_mem_ending hmem

end AuthenticatedMpc
