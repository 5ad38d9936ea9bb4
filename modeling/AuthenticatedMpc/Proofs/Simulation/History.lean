import AuthenticatedMpc.Proofs.Runs.Vigilance
import AuthenticatedMpc.Proofs.Simulation.Progress

/-!
# Histories

A history keeps all moves of each party. The parties move in any order, and a network may be gone at
any time. Whatever happens, a party has received from another the first of the packets that were sent
to it, and the others are in the queue between them.
-/

namespace AuthenticatedMpc

/-! ## Meshes that networks may leave -/

namespace Mesh

variable {mesh mesh' : Mesh} {n : Nat} {me peer party : PartyId} {packet : Packet}

/-- There are `n` parties, with a queue from each to each. -/
structure Wired (n : Nat) (mesh : Mesh) : Prop where
  parties_eq : mesh.parties = n
  station : ∀ party < n, ∃ station, mesh.stations[party]? = some station ∧ station.incoming.length = n

theorem wired_connect (n : Nat) : (connect n).Wired n where
  parties_eq := List.length_replicate
  station _ h := ⟨_, List.getElem?_replicate_of_lt h, List.length_replicate⟩

theorem Wired.modifyStation (h : mesh.Wired n) {update : Station → Station}
    (hupdate : ∀ station, (update station).incoming.length = station.incoming.length) :
    (mesh.modifyStation party update).Wired n where
  parties_eq := (List.length_modify ..).trans h.parties_eq
  station q hq := by
    obtain ⟨station, hstation, hincoming⟩ := h.station q hq
    unfold Mesh.modifyStation
    rw [List.getElem?_modify, hstation]
    by_cases hparty : party = q
    · exact ⟨update station, by simp [hparty], (hupdate station).trans hincoming⟩
    · exact ⟨station, by simp [hparty], hincoming⟩

theorem Wired.modifyQueue (h : mesh.Wired n) (update : List Packet → List Packet) :
    (mesh.modifyQueue me peer update).Wired n :=
  h.modifyStation fun _ => List.length_modify ..

theorem Wired.queue_modifyQueue (h : mesh.Wired n) (hme : me < n) (hpeer : peer < n)
    (update : List Packet → List Packet) (source target : PartyId) :
    (mesh.modifyQueue me peer update).queue source target =
      if source = me ∧ target = peer then update (mesh.queue source target)
      else mesh.queue source target := by
  obtain ⟨station, hstation, hincoming⟩ := h.station peer hpeer
  exact Mesh.queue_modifyQueue mesh hstation (hincoming ▸ hme) update source target

/-- A send that succeeds appends a packet to one queue; one that fails changes no queue. -/
theorem Wired.send (h : mesh.Wired n) (hme : me < n) {reply : Except NetworkError Unit}
    (hsend : mesh.send me peer packet = (reply, mesh')) :
    mesh'.Wired n ∧ ∀ source target, mesh'.queue source target =
      match reply with
      | .ok () => if source = me ∧ target = peer then mesh.queue source target ++ [packet]
        else mesh.queue source target
      | .error _ => mesh.queue source target := by
  have hcounted : (mesh.modifyStation me fun station =>
      { station with count := station.count.countSent packet }).Wired n :=
    h.modifyStation fun _ => rfl
  have hqueue : ∀ source target, (mesh.modifyStation me fun station =>
      { station with count := station.count.countSent packet }).queue source target =
        mesh.queue source target := queue_modifyStation mesh me _ fun _ => rfl
  unfold Mesh.send at hsend
  split at hsend
  · next hknown =>
    split at hsend
    · dsimp only at hsend
      split at hsend
      · cases hsend
        refine ⟨hcounted.modifyQueue _, fun source target => ?_⟩
        rw [hcounted.queue_modifyQueue hme (h.parties_eq ▸ hknown.1), hqueue]
      · cases hsend
        exact ⟨hcounted, hqueue⟩
    · cases hsend
      exact ⟨h, fun _ _ => rfl⟩
  · cases hsend
    exact ⟨h, fun _ _ => rfl⟩

/-- A receive that succeeds takes a packet from the front of one queue; one that fails changes no
queue. -/
theorem Wired.receive (h : mesh.Wired n) (hme : me < n) {reply : Except NetworkError Packet}
    (hreceive : mesh.receive me peer = some (reply, mesh')) :
    mesh'.Wired n ∧ ∀ source target, mesh.queue source target =
      match reply with
      | .ok packet => if source = peer ∧ target = me then packet :: mesh'.queue source target
        else mesh'.queue source target
      | .error _ => mesh'.queue source target := by
  unfold Mesh.receive at hreceive
  split at hreceive
  · next hknown =>
    split at hreceive
    · next packet rest hqueue =>
      cases hreceive
      have hcounted : (mesh.modifyStation me fun station =>
          { station with count := station.count.countReceived packet }).Wired n :=
        h.modifyStation fun _ => rfl
      refine ⟨hcounted.modifyQueue _, fun source target => ?_⟩
      rw [hcounted.queue_modifyQueue (h.parties_eq ▸ hknown.1) hme, queue_modifyStation]
      · dsimp only
        split
        · next heq => rw [heq.1, heq.2, hqueue, List.tail_cons]
        · rfl
      · exact fun _ => rfl
    · split at hreceive
      · cases hreceive
      · cases hreceive
        exact ⟨h, fun _ _ => rfl⟩
  · cases hreceive
    exact ⟨h, fun _ _ => rfl⟩

theorem Wired.send_talk (h : mesh.Wired n) (hme : me < n) {reply : Except NetworkError Unit}
    (hsend : mesh.send me peer packet = (reply, mesh')) :
    mesh'.Wired n ∧ ∀ i j, mesh'.queue i j =
      mesh.queue i j ++ if i = me then sentTo j (talkOf [.sent peer packet reply]) else [] := by
  obtain ⟨hwired, hqueue⟩ := h.send hme hsend
  refine ⟨hwired, fun i j => ?_⟩
  rw [hqueue]
  cases reply with
  | error cause =>
    have hsent : sentTo j (talkOf [.sent peer packet (.error cause)]) = [] := rfl
    rw [hsent, ite_self, List.append_nil]
  | ok =>
    have hsent : sentTo j (talkOf [.sent peer packet (.ok ())]) = if j = peer then [packet] else [] :=
      sentTo_sent.trans (if_congr eq_comm rfl rfl)
    rw [hsent]
    by_cases hi : i = me <;> by_cases hj : j = peer <;> simp [hi, hj]

theorem Wired.receive_talk (h : mesh.Wired n) (hme : me < n) {reply : Except NetworkError Packet}
    (hreceive : mesh.receive me peer = some (reply, mesh')) :
    mesh'.Wired n ∧ ∀ i j, mesh.queue i j =
      (if j = me then receivedFrom i (talkOf [.received peer reply]) else []) ++ mesh'.queue i j := by
  obtain ⟨hwired, hqueue⟩ := h.receive hme hreceive
  refine ⟨hwired, fun i j => ?_⟩
  rw [hqueue]
  cases reply with
  | error cause =>
    have hreceived : receivedFrom i (talkOf [.received peer (.error cause)]) = [] := rfl
    rw [hreceived, ite_self, List.nil_append]
  | ok packet =>
    have hreceived : receivedFrom i (talkOf [.received peer (.ok packet)]) =
        if i = peer then [packet] else [] :=
      receivedFrom_received.trans (if_congr eq_comm rfl rfl)
    rw [hreceived]
    by_cases hi : i = peer <;> by_cases hj : j = me <;> simp [hi, hj]

end Mesh

/-! ## Histories -/

namespace System

variable {σ α : Type}

/-- The states that a system on a mesh can come to, and the moves of each party so far. Whichever party
moves, and whosever network is taken away. -/
inductive History (start : System σ α Mesh) : System σ α Mesh → (PartyId → List Move) → Prop
  | refl : History start start fun _ => []
  | move {system system' : System σ α Mesh} {moves : PartyId → List Move} {party : PartyId}
      {move : Move} {state : σ} (before : History start system moves)
      (hmove : system.moveAt? Mesh.port party = some (move, state, system')) :
      History start system' (Function.update moves party (moves party ++ [move]))
  | leave {system : System σ α Mesh} {moves : PartyId → List Move}
      (before : History start system moves) (party : PartyId) :
      History start { system with medium := system.medium.disconnect party } moves

theorem History.exists_stuck {start system : System σ α Mesh} {moves : PartyId → List Move}
    (h : History start system moves) (hreach : Reachable Mesh.port start system) :
    ∃ system' moves', History start system' moves' ∧ Reachable Mesh.port start system' ∧
      ∀ party, system'.moveAt? Mesh.port party = none := by
  obtain ⟨actors, hactors⟩ : ∃ actors, system.actors = actors := ⟨_, rfl⟩
  induction actors using Advances.wf.induction generalizing system moves with
  | _ actors ih =>
    by_cases hstuck : ∀ party, system.moveAt? Mesh.port party = none
    · exact ⟨system, moves, h, hreach, hstuck⟩
    · obtain ⟨party, hmoves⟩ := not_forall.mp hstuck
      obtain ⟨⟨move, state, system'⟩, hmove⟩ := Option.ne_none_iff_exists'.mp hmoves
      exact ih _ (hactors ▸ advances_of_moveAt? hmove) (h.move hmove) (hreach.step hmove) rfl

/-- The moves of the parties are paths, and what was sent was received or is on its way. -/
structure Kept (start system : System σ α Mesh) (moves : PartyId → List Move) : Prop where
  wired : system.medium.Wired start.actors.length
  length : system.actors.length = start.actors.length
  path : ∀ {i a b}, start.actors[i]? = some a → system.actors[i]? = some b → Path a (moves i) b
  queue : ∀ i < start.actors.length, ∀ j < start.actors.length, i ≠ j →
    receivedFrom i (talkOf (moves j)) ++ system.medium.queue i j = sentTo j (talkOf (moves i))

namespace Kept

variable {start system system' : System σ α Mesh} {moves : PartyId → List Move} {party : PartyId}
  {move : Move} {state : σ}

theorem refl (hmedium : start.medium = .connect start.actors.length) :
    Kept start start fun _ => [] where
  wired := hmedium ▸ Mesh.wired_connect _
  length := rfl
  path ha hb := by
    cases ha.symm.trans hb
    exact .refl _
  queue i _ j _ _ := by
    rw [hmedium, Mesh.queue_connect]
    rfl

theorem update (h : Kept start system moves) {actor next : Actor σ α} {mesh : Mesh}
    (hactor : system.actors[party]? = some actor) (hstep : Step actor move next)
    (hwired : mesh.Wired start.actors.length)
    (hsent : ∀ i < start.actors.length, ∀ j < start.actors.length, i ≠ j →
      (if j = party then receivedFrom i (talkOf [move]) else []) ++ mesh.queue i j =
        system.medium.queue i j ++ if i = party then sentTo j (talkOf [move]) else []) :
    Kept start ⟨system.actors.set party next, mesh⟩
      (Function.update moves party (moves party ++ [move])) where
  wired := hwired
  length := (List.length_set ..).trans h.length
  path {i a b} ha hb := by
    rcases eq_or_ne i party with rfl | hne
    · rw [List.getElem?_set_self (List.getElem?_eq_some_iff.mp hactor).1] at hb
      cases hb
      rw [Function.update_self]
      exact (h.path ha hactor).trans (.head hstep (.refl _))
    · rw [List.getElem?_set_ne hne.symm] at hb
      rw [Function.update_of_ne hne]
      exact h.path ha hb
  queue i hi j hj hne := by
    have hreceived : receivedFrom i (talkOf (Function.update moves party (moves party ++ [move]) j)) =
        receivedFrom i (talkOf (moves j)) ++
          if j = party then receivedFrom i (talkOf [move]) else [] := by
      rcases eq_or_ne j party with rfl | hj
      · rw [Function.update_self, if_pos rfl, talkOf_append, receivedFrom_append]
      · rw [Function.update_of_ne hj, if_neg hj, List.append_nil]
    have hsaid : sentTo j (talkOf (Function.update moves party (moves party ++ [move]) i)) =
        sentTo j (talkOf (moves i)) ++ if i = party then sentTo j (talkOf [move]) else [] := by
      rcases eq_or_ne i party with rfl | hi
      · rw [Function.update_self, if_pos rfl, talkOf_append, sentTo_append]
      · rw [Function.update_of_ne hi, if_neg hi, List.append_nil]
    rw [hreceived, hsaid, List.append_assoc, hsent i hi j hj hne, ← h.queue i hi j hj hne,
      List.append_assoc]

theorem quiet (h : Kept start system moves) {actor next : Actor σ α} {mesh : Mesh}
    (hactor : system.actors[party]? = some actor) (hstep : Step actor move next)
    (hwired : mesh.Wired start.actors.length)
    (hqueue : ∀ i j, mesh.queue i j = system.medium.queue i j)
    (hreceived : ∀ i, receivedFrom i (talkOf [move]) = []) (hsent : ∀ j, sentTo j (talkOf [move]) = []) :
    Kept start ⟨system.actors.set party next, mesh⟩
      (Function.update moves party (moves party ++ [move])) :=
  h.update hactor hstep hwired fun i _ j _ _ => by
    rw [hreceived, hsent, hqueue, ite_self, ite_self, List.nil_append, List.append_nil]

theorem step (h : Kept start system moves)
    (hmove : system.moveAt? Mesh.port party = some (move, state, system')) :
    Kept start system' (Function.update moves party (moves party ++ [move])) := by
  obtain ⟨actor, next, mesh, hactor, rfl, hnext, rfl⟩ := System.moveAt?_eq_some_iff.mp hmove
  have hparty : party < start.actors.length := by
    rw [← h.length]
    exact (List.getElem?_eq_some_iff.mp hactor).1
  have hstep := Step.of_next? hnext
  obtain ⟨program, s⟩ := actor
  cases program with
  | pure _ | fail _ | never => cases hnext
  | step event update next =>
    cases hnext
    exact h.quiet hactor hstep h.wired (fun _ _ => rfl) (fun _ => rfl) fun _ => rfl
  | send peer packet next =>
    cases hsend : system.medium.send party peer packet with
    | mk reply mesh' =>
      simp only [Program.next?, Mesh.port, hsend, Option.some.injEq, Prod.mk.injEq] at hnext
      obtain ⟨rfl, rfl, rfl⟩ := hnext
      obtain ⟨hwired, hqueue⟩ := h.wired.send_talk hparty hsend
      refine h.update hactor hstep hwired fun i _ j _ _ => ?_
      rw [hqueue, receivedFrom_talkOf_sent, ite_self, List.nil_append]
  | receive peer next =>
    simp only [Program.next?] at hnext
    split at hnext
    · cases hnext
    · next reply mesh hreceive =>
      simp only [Option.some.injEq, Prod.mk.injEq] at hnext
      obtain ⟨rfl, rfl, rfl⟩ := hnext
      obtain ⟨hwired, hqueue⟩ := h.wired.receive_talk hparty hreceive
      refine h.update hactor hstep hwired fun i _ j _ _ => ?_
      rw [hqueue, sentTo_talkOf_received, ite_self, List.append_nil]
  | close next =>
    cases hnext
    exact h.quiet hactor hstep (h.wired.modifyStation fun _ => rfl) (Mesh.queue_close _ _) (fun _ => rfl)
      fun _ => rfl

theorem leave (h : Kept start system moves) (party : PartyId) :
    Kept start { system with medium := system.medium.disconnect party } moves :=
  { h with
    wired := h.wired.modifyStation fun _ => rfl
    queue := by simpa using h.queue }

/-- What was received is the first of what was sent. -/
theorem prefix_of_ne (h : Kept start system moves) {i j : PartyId} (hi : i < start.actors.length)
    (hj : j < start.actors.length) (hne : i ≠ j) :
    receivedFrom i (talkOf (moves j)) <+: sentTo j (talkOf (moves i)) :=
  ⟨_, h.queue i hi j hj hne⟩

end Kept

theorem History.kept {start system : System σ α Mesh} {moves : PartyId → List Move}
    (h : History start system moves) (hmedium : start.medium = .connect start.actors.length) :
    Kept start system moves := by
  induction h with
  | refl => exact .refl hmedium
  | move _ hmove ih => exact ih.step hmove
  | leave _ party ih => exact ih.leave party

/-- Parties that keep their contracts as long as they receive what parties send that keep theirs do so
all the time. -/
theorem History.meets {start system : System σ α Mesh} {moves : PartyId → List Move}
    {c : PartyId → Contract σ α} (h : History start system moves)
    (hmedium : start.medium = .connect start.actors.length)
    (hassumes : ∀ i < start.actors.length, ∀ now,
      (∀ q < start.actors.length, q ≠ i → ∃ past s, (c q).during past s ∧
        receivedFrom q (talkOf now) <+: sentTo i (talkOf past)) → (c i).assumes now)
    (hstart : ∀ (i : PartyId) (actor : Actor σ α), start.actors[i]? = some actor →
      actor.program.Meets (c i) [] actor.state)
    (i : PartyId) (actor : Actor σ α) (hactor : system.actors[i]? = some actor) :
    actor.program.Meets (c i) (moves i) actor.state := by
  induction h generalizing i actor with
  | refl => exact hstart i actor hactor
  | leave _ _ ih => exact ih i actor hactor
  | @move system _ moves party move _ before hmove ih =>
    have hkept := (before.kept hmedium).step hmove
    obtain ⟨mover, next, mesh, hmover, rfl, hnext, rfl⟩ := System.moveAt?_eq_some_iff.mp hmove
    have hparty := (List.getElem?_eq_some_iff.mp hmover).1
    rcases eq_or_ne i party with rfl | hne
    · rw [List.getElem?_set_self hparty] at hactor
      cases hactor
      rw [(before.kept hmedium).length] at hparty
      have hnow := hassumes i hparty (moves i ++ [move]) fun q hq hne => by
        -- Nothing has changed for the sender, who has kept its contract so far.
        have hlt : q < system.actors.length := (before.kept hmedium).length ▸ hq
        have hsender := (ih q _ (List.getElem?_eq_getElem hlt)).during
        have hprefix := hkept.prefix_of_ne hq hparty hne
        rw [Function.update_self, Function.update_of_ne hne] at hprefix
        exact ⟨_, _, hsender, hprefix⟩
      rw [Function.update_self]
      exact (ih i mover hmover).step (Step.of_next? hnext) hnow
    · rw [List.getElem?_set_ne hne.symm] at hactor
      rw [Function.update_of_ne hne]
      exact ih i actor hactor

end System

end AuthenticatedMpc
