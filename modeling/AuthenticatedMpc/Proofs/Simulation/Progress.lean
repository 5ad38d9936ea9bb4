import AuthenticatedMpc.Proofs.Rounds.Together
import AuthenticatedMpc.Proofs.Simulation.Mesh
import AuthenticatedMpc.Simulation.System

/-!
# Parties in step, in every order of their moves

Programs that one conversation takes to their ends come there over the mesh in every order of their
moves. What is in a queue, and what its sender has yet to say, is at all times what its receiver has
yet to hear. A party that waits for a peer that waits as well is behind that peer; so some party can
always move.
-/

namespace AuthenticatedMpc

variable {σ α T : Type}

namespace System

/-- The states that a system can come to, whichever party moves. -/
inductive Reachable (port : PartyId → Transport T) (start : System σ α T) : System σ α T → Prop
  | refl : Reachable port start start
  | step {system system' : System σ α T} {party : PartyId} {move : Move} {state : σ}
      (before : Reachable port start system)
      (hmove : system.moveAt? port party = some (move, state, system')) :
      Reachable port start system'

theorem moveAt?_eq_some_iff {port : PartyId → Transport T} {system system' : System σ α T}
    {party : PartyId} {move : Move} {state : σ} :
    system.moveAt? port party = some (move, state, system') ↔
      ∃ actor next medium, system.actors[party]? = some actor ∧ state = actor.state ∧
        actor.program.next? (port party) actor.state system.medium = some (move, next, medium) ∧
        system' = ⟨system.actors.set party next, medium⟩ := by
  unfold moveAt?
  cases system.actors[party]? with
  | none => simp
  | some actor =>
    dsimp only
    cases hnext : actor.program.next? (port party) actor.state system.medium with
    | none => simp [hnext]
    | some result => grind

end System

/-- What the parties have yet to say and hear in a conversation, after which they may end their
streams. -/
structure Progress (table : Table) (exchanges : List (PartyId → Packet)) (closes : Bool)
    (outcome : Fin table.parties → Except Error α) (final : Fin table.parties → σ)
    (inv : Fin table.parties → σ → Prop) (R : σ → σ → Prop) (system : System σ α Mesh)
    (rest : Fin table.parties → List Signal) : Prop where
  length : system.actors.length = table.parties
  connected : system.medium.Connected table.parties
  actor : ∀ i : Fin table.parties, ∃ actor, system.actors[(i : PartyId)]? = some actor ∧
    actor.program.Ends actor.state (rest i) (outcome i) (final i) ∧
    actor.program.Stays (inv i) R actor.state (rest i)
  suffix : ∀ i, rest i <:+ conversation (table.party i) exchanges ++ ending closes
  isOpen : ∀ i : Fin table.parties, rest i ≠ [] → system.medium.isOpen i = true
  queue : ∀ i j : Fin table.parties, i ≠ j →
    system.medium.queue i j ++ sentTo j (rest i) = receivedFrom i (rest j)

namespace Progress

variable {table : Table} {exchanges : List (PartyId → Packet)} {closes : Bool}
  {outcome : Fin table.parties → Except Error α} {final : Fin table.parties → σ}
  {inv : Fin table.parties → σ → Prop} {R : σ → σ → Prop}
  {system system' : System σ α Mesh} {rest : Fin table.parties → List Signal}

theorem update (h : Progress table exchanges closes outcome final inv R system rest)
    {i : Fin table.parties} {next : Actor σ α} {talk : List Signal} {mesh : Mesh}
    (hends : next.program.Ends next.state talk (outcome i) (final i))
    (hstays : next.program.Stays (inv i) R next.state talk) (hsuffix : talk <:+ rest i)
    (hconnected : mesh.Connected table.parties)
    (hopen : ∀ j : Fin table.parties, j ≠ i ∨ talk ≠ [] →
      mesh.isOpen j = system.medium.isOpen j)
    (hqueue : ∀ j k : Fin table.parties, j ≠ k →
      mesh.queue j k ++ sentTo k (Function.update rest i talk j) =
        receivedFrom j (Function.update rest i talk k)) :
    Progress table exchanges closes outcome final inv R ⟨system.actors.set i next, mesh⟩
      (Function.update rest i talk) where
  length := (List.length_set ..).trans h.length
  connected := hconnected
  actor j := by
    rcases eq_or_ne j i with rfl | hne
    · have hlt : (j : Nat) < system.actors.length := by
        rw [h.length]
        exact j.isLt
      exact ⟨next, List.getElem?_set_self hlt, by rwa [Function.update_self],
        by rwa [Function.update_self]⟩
    · obtain ⟨actor, hactor, hactorEnds, hactorStays⟩ := h.actor j
      refine ⟨actor, ?_, by rwa [Function.update_of_ne hne], by rwa [Function.update_of_ne hne]⟩
      rwa [List.getElem?_set_ne (by rwa [Ne, Fin.val_inj, eq_comm])]
  suffix j := by
    rcases eq_or_ne j i with rfl | hne
    · rw [Function.update_self]
      exact hsuffix.trans (h.suffix j)
    · rw [Function.update_of_ne hne]
      exact h.suffix j
  isOpen j hj := by
    rcases eq_or_ne j i with rfl | hne
    · rw [Function.update_self] at hj
      rw [hopen j (.inr hj)]
      exact h.isOpen j fun hnil => hj (List.suffix_nil.mp (hnil ▸ hsuffix))
    · rw [Function.update_of_ne hne] at hj
      rw [hopen j (.inl hne)]
      exact h.isOpen j hj
  queue := hqueue

theorem send (h : Progress table exchanges closes outcome final inv R system rest)
    {i : Fin table.parties} {peer : PartyId} {packet : Packet} {talk : List Signal}
    (htalk : rest i = .sent peer packet :: talk) :
    ∃ mesh, system.medium.send i peer packet = (.ok (), mesh) ∧ ∀ next : Actor σ α,
      next.program.Ends next.state talk (outcome i) (final i) →
      next.program.Stays (inv i) R next.state talk →
      Progress table exchanges closes outcome final inv R ⟨system.actors.set i next, mesh⟩
        (Function.update rest i talk) := by
  have hsuffix := h.suffix i
  rw [htalk] at hsuffix
  obtain ⟨hpeer, hne⟩ := Table.mem_peers.mp (mem_peers_of_suffix_sent hsuffix)
  have hopen := h.isOpen i (by simp [htalk])
  obtain ⟨mesh, hsend, hconnected, hopen', hqueue⟩ :=
    h.connected.send i.isLt hpeer hne hopen packet
  refine ⟨mesh, hsend, fun next hends hstays => h.update hends hstays
    (htalk ▸ List.suffix_cons ..) hconnected (fun j _ => hopen' j) fun j k hjk => ?_⟩
  have hold := h.queue j k hjk
  rw [hqueue]
  rcases eq_or_ne j i with rfl | hji
  · rw [htalk, sentTo_sent] at hold
    rw [Function.update_self, Function.update_of_ne hjk.symm, ← hold]
    by_cases hk : peer = k
    · rw [if_pos ⟨rfl, hk.symm⟩, if_pos hk, List.append_assoc, List.singleton_append]
    · rw [if_neg fun heq => hk heq.2.symm, if_neg hk]
  · rw [if_neg fun heq => hji (Fin.ext heq.1), Function.update_of_ne hji, hold]
    rcases eq_or_ne k i with rfl | hki
    · rw [Function.update_self, htalk, receivedFrom_sent]
    · rw [Function.update_of_ne hki]

theorem receive (h : Progress table exchanges closes outcome final inv R system rest)
    {i : Fin table.parties} {peer : PartyId} {packet : Packet} {talk : List Signal}
    (htalk : rest i = .received peer packet :: talk) {reply : Except NetworkError Packet}
    {mesh : Mesh} (hreceive : system.medium.receive i peer = some (reply, mesh)) :
    reply = .ok packet ∧ ∀ next : Actor σ α,
      next.program.Ends next.state talk (outcome i) (final i) →
      next.program.Stays (inv i) R next.state talk →
      Progress table exchanges closes outcome final inv R ⟨system.actors.set i next, mesh⟩
        (Function.update rest i talk) := by
  have hsuffix := h.suffix i
  rw [htalk] at hsuffix
  obtain ⟨hpeer, hne⟩ := Table.mem_peers.mp (mem_peers_of_suffix_received hsuffix)
  obtain ⟨sender, rfl⟩ : ∃ j : Fin table.parties, ↑j = peer := ⟨⟨peer, hpeer⟩, rfl⟩
  have hold := h.queue sender i fun heq => hne (congrArg _ heq)
  rw [htalk, receivedFrom_received, if_pos rfl] at hold
  cases hwaiting : system.medium.queue sender i with
  | nil =>
    -- The peer has yet to send the packet, so its stream is open and nothing is received.
    rw [hwaiting, List.nil_append] at hold
    have hopen := h.isOpen sender fun hnil => by simp [hnil, sentTo] at hold
    rw [h.connected.receive_eq_none hpeer hne hwaiting hopen] at hreceive
    cases hreceive
  | cons first waiting =>
    rw [hwaiting, List.cons_append] at hold
    obtain ⟨rfl, hbehind⟩ := List.cons.inj hold
    obtain ⟨mesh', hreceive', hconnected, hopen, hqueue⟩ :=
      h.connected.receive i.isLt hpeer hne hwaiting
    obtain ⟨rfl, rfl⟩ := Prod.mk.inj (Option.some.inj (hreceive'.symm.trans hreceive))
    refine ⟨rfl, fun next hends hstays => h.update hends hstays (htalk ▸ List.suffix_cons ..)
      hconnected (fun j _ => hopen j) fun j k hjk => ?_⟩
    rw [hqueue]
    by_cases hedge : j = sender ∧ k = i
    · obtain ⟨rfl, rfl⟩ := hedge
      rw [if_pos ⟨rfl, rfl⟩, Function.update_self, Function.update_of_ne hjk, hbehind]
    · rw [if_neg fun heq => hedge ⟨Fin.ext heq.1, Fin.ext heq.2⟩]
      have hfit := h.queue j k hjk
      rcases eq_or_ne j i with rfl | hji
      · rw [Function.update_self, Function.update_of_ne hjk.symm, ← hfit, htalk, sentTo_received]
      · rw [Function.update_of_ne hji, hfit]
        rcases eq_or_ne k i with rfl | hki
        · have hsender : ¬(sender : PartyId) = j := fun heq => hedge ⟨(Fin.ext heq).symm, rfl⟩
          rw [Function.update_self, htalk, receivedFrom_received, if_neg hsender]
        · rw [Function.update_of_ne hki]

theorem close (h : Progress table exchanges closes outcome final inv R system rest)
    {i : Fin table.parties} {talk : List Signal} (htalk : rest i = .closed :: talk) {next : Actor σ α}
    (hends : next.program.Ends next.state talk (outcome i) (final i))
    (hstays : next.program.Stays (inv i) R next.state talk) :
    Progress table exchanges closes outcome final inv R
      ⟨system.actors.set i next, system.medium.close i⟩ (Function.update rest i talk) := by
  have hsuffix := h.suffix i
  rw [htalk] at hsuffix
  obtain rfl := eq_nil_of_suffix hsuffix
  refine h.update hends hstays (htalk ▸ List.suffix_cons ..) h.connected.close (fun j hj =>
    Mesh.isOpen_close_of_ne (by simpa [Fin.val_inj] using hj)) fun j k hjk => ?_
  rw [Mesh.queue_close]
  have hold := h.queue j k hjk
  rcases eq_or_ne j i with rfl | hji
  · rw [Function.update_self, Function.update_of_ne hjk.symm, ← hold, htalk, sentTo_closed]
  · rw [Function.update_of_ne hji, hold]
    rcases eq_or_ne k i with rfl | hki
    · rw [Function.update_self, htalk, receivedFrom_closed]
    · rw [Function.update_of_ne hki]

theorem changes (h : Progress table exchanges closes outcome final inv R system rest)
    {i : Fin table.parties} {move : Move} {state : σ}
    (hmove : system.moveAt? Mesh.port i = some (move, state, system')) :
    ∃ next, system'.actors[(i : PartyId)]? = some next ∧
      (next.state = state ∨ R state next.state) := by
  obtain ⟨actor, next, mesh, hactor, rfl, hnext, rfl⟩ := System.moveAt?_eq_some_iff.mp hmove
  obtain ⟨_, hactor', -, hstays⟩ := h.actor i
  cases hactor.symm.trans hactor'
  have hlt : (i : Nat) < system.actors.length := (List.getElem?_eq_some_iff.mp hactor).1
  exact ⟨next, List.getElem?_set_self hlt, hstays.next? hnext⟩

/-- Whatever party moves, the queues and what is left to say and hear still fit. -/
theorem step (h : Progress table exchanges closes outcome final inv R system rest) {party : PartyId}
    {move : Move} {state : σ}
    (hmove : system.moveAt? Mesh.port party = some (move, state, system')) :
    ∃ rest', Progress table exchanges closes outcome final inv R system' rest' := by
  obtain ⟨actor, next, mesh, hactor, rfl, hnext, rfl⟩ := System.moveAt?_eq_some_iff.mp hmove
  have hlt : party < table.parties := by
    rw [← h.length]
    exact (List.getElem?_eq_some_iff.mp hactor).1
  obtain ⟨i, rfl⟩ : ∃ i : Fin table.parties, ↑i = party := ⟨⟨party, hlt⟩, rfl⟩
  obtain ⟨_, hactor', hends, hstays⟩ := h.actor i
  cases hactor.symm.trans hactor'
  obtain ⟨program, s⟩ := actor
  cases program with
  | pure _ | fail _ | never => cases hnext
  | step event update next =>
    cases hnext
    refine ⟨_, h.update hends hstays.2.2 (List.suffix_refl _) h.connected (fun _ _ => rfl) ?_⟩
    rw [Function.update_eq_self]
    exact h.queue
  | send peer packet next =>
    obtain ⟨talk, htalk, hends⟩ := hends
    obtain ⟨mesh', hsend, hprogress⟩ := h.send htalk
    simp only [Program.next?, Mesh.port, hsend, Option.some.injEq, Prod.mk.injEq] at hnext
    obtain ⟨-, rfl, rfl⟩ := hnext
    exact ⟨_, hprogress _ hends (hstays.2 _ _ _ htalk)⟩
  | receive peer next =>
    obtain ⟨packet, talk, htalk, hends⟩ := hends
    rw [Program.next?] at hnext
    split at hnext
    · cases hnext
    · next reply mesh' hreceive =>
      obtain ⟨rfl, hprogress⟩ := h.receive htalk hreceive
      cases hnext
      exact ⟨_, hprogress _ hends (hstays.2 _ _ _ htalk)⟩
  | close next =>
    obtain ⟨talk, htalk, hends⟩ := hends
    cases hnext
    exact ⟨_, h.close htalk hends (hstays.2 _ htalk)⟩

theorem ended_or_waiting (h : Progress table exchanges closes outcome final inv R system rest)
    {i : Fin table.parties} (hstuck : system.moveAt? Mesh.port i = none) :
    (rest i = [] ∧ system.actors[(i : PartyId)]? = some ⟨.ofExcept (outcome i), final i⟩) ∨
      ∃ (j : Fin table.parties) (packet : Packet) (talk : List Signal), j ≠ i ∧
        rest i = .received j packet :: talk ∧ system.medium.queue j i = [] := by
  obtain ⟨⟨program, s⟩, hactor, hends, -⟩ := h.actor i
  simp only [System.moveAt?, hactor] at hstuck
  cases program with
  | pure _ | fail _ =>
    obtain ⟨hrest, houtcome, rfl⟩ := hends
    rw [houtcome]
    exact .inl ⟨hrest, hactor⟩
  | never => exact hends.elim
  | step _ _ _ | send _ _ _ | close _ => simp [Program.next?] at hstuck
  | receive peer next =>
    obtain ⟨packet, talk, htalk, -⟩ := hends
    have hsuffix := h.suffix i
    rw [htalk] at hsuffix
    obtain ⟨hpeer, hne⟩ := Table.mem_peers.mp (mem_peers_of_suffix_received hsuffix)
    refine .inr ⟨⟨peer, hpeer⟩, packet, talk, fun heq => hne (congrArg Fin.val heq), htalk, ?_⟩
    cases hqueue : system.medium.queue peer i with
    | nil => rfl
    | cons first waiting =>
      obtain ⟨mesh, hreceive, -⟩ := h.connected.receive i.isLt hpeer hne hqueue
      simp [Program.next?, Mesh.port, hreceive] at hstuck

/-- Not all parties that have not ended can wait: each would wait for one that is behind it. -/
theorem not_waiting (h : Progress table exchanges closes outcome final inv R system rest)
    (hstuck : ∀ i : Fin table.parties, system.moveAt? Mesh.port i = none)
    {i j : Fin table.parties} {packet : Packet} {talk : List Signal} (hne : j ≠ i)
    (htalk : rest i = .received j packet :: talk) (hqueue : system.medium.queue j i = []) :
    False := by
  have hsuffix := h.suffix i
  rw [htalk] at hsuffix
  obtain ⟨later, hlater, hreceived, -⟩ := exists_later_of_suffix hsuffix
  induction hbound : exchanges.length - later.length using Nat.strong_induction_on
    generalizing i j packet talk later with
  | _ bound ih =>
    have hfit := h.queue j i hne
    rw [hqueue, List.nil_append, htalk, receivedFrom_received, if_pos rfl, hreceived] at hfit
    obtain ⟨hnil, -⟩ | ⟨k, packet', talk', hne', htalk', hqueue'⟩ := h.ended_or_waiting (hstuck j)
    · simp [hnil, sentTo] at hfit
    have hsuffix' := h.suffix j
    rw [htalk'] at hsuffix'
    obtain ⟨later', hlater', hreceived', hsent'⟩ := exists_later_of_suffix hsuffix'
    rw [htalk', sentTo_received, hsent' i (Table.val_mem_peers.mpr hne.symm)] at hfit
    have hlength := congrArg List.length hfit
    simp only [List.length_map, List.length_cons] at hlength
    exact ih _ (by omega) hne' htalk' hqueue' hsuffix' later' hlater' hreceived' rfl

/-- When no party can move, all have ended. -/
theorem ended_of_stuck (h : Progress table exchanges closes outcome final inv R system rest)
    (hstuck : ∀ i : Fin table.parties, system.moveAt? Mesh.port i = none)
    (i : Fin table.parties) :
    system.actors[(i : PartyId)]? = some ⟨.ofExcept (outcome i), final i⟩ := by
  obtain ⟨-, hactor⟩ | ⟨j, packet, talk, hne, htalk, hqueue⟩ := h.ended_or_waiting (hstuck i)
  · exact hactor
  · exact (h.not_waiting hstuck hne htalk hqueue).elim

theorem start {p : Fin table.parties → Program σ α} {s : Fin table.parties → σ}
    (hends : ∀ i, (p i).Ends (s i) (conversation (table.party i) exchanges ++ ending closes)
      (outcome i) (final i))
    (hstays : ∀ i, (p i).Stays (inv i) R (s i)
      (conversation (table.party i) exchanges ++ ending closes)) :
    Progress table exchanges closes outcome final inv R
      ⟨List.ofFn fun i => ⟨p i, s i⟩, .connect table.parties⟩
      fun i => conversation (table.party i) exchanges ++ ending closes where
  length := List.length_ofFn
  connected := Mesh.connected_connect _
  actor i := ⟨⟨p i, s i⟩, by simp, hends i, hstays i⟩
  suffix _ := List.suffix_refl _
  isOpen i _ := Mesh.isOpen_connect i.isLt
  queue i j hne := by
    rw [Mesh.queue_connect, List.nil_append, sentTo_append, receivedFrom_append,
      sentTo_conversation (Table.val_mem_peers.mpr hne.symm),
      receivedFrom_conversation (Table.val_mem_peers.mpr hne), sentTo_ending,
      receivedFrom_ending]
    rfl

theorem reachable {start : System σ α Mesh}
    (h : Progress table exchanges closes outcome final inv R start rest)
    (hreach : System.Reachable Mesh.port start system) :
    ∃ rest, Progress table exchanges closes outcome final inv R system rest := by
  induction hreach with
  | refl => exact ⟨rest, h⟩
  | step _ hmove ih =>
    obtain ⟨_, h⟩ := ih
    exact h.step hmove

end Progress
end AuthenticatedMpc
