import AuthenticatedMpc.Circuit.Batch
import AuthenticatedMpc.Proofs.Rounds.Buffer

/-!
# Exchanges between the parties

A gate that talks broadcasts one message in its first round and takes one message of every peer in
its second. Run alone on a bench it makes one exchange: a packet for every peer, then a packet from
every peer.
-/

namespace AuthenticatedMpc

variable {W : Type}

def exchange (me : Party) (packet : Packet) (packets : PartyId → Packet) : List Signal :=
  me.peers.map (.sent · packet) ++ me.peers.map fun q => .received q (packets q)

namespace Party

variable {me : Party}

theorem mem_peers {q : PartyId} : q ∈ me.peers ↔ q < me.parties ∧ q ≠ me.id := by
  simp [peers, peersOf]

theorem nodup_peers : me.peers.Nodup := List.nodup_range.filter _

end Party

theorem filterMap_ite_eq {α : Type} {q : PartyId} {parties : List PartyId} (h : parties.Nodup)
    (f : PartyId → α) :
    (parties.filterMap fun party => if party = q then some (f party) else none) =
      if q ∈ parties then [f q] else [] := by
  induction parties with
  | nil => rfl
  | cons party parties ih =>
    obtain ⟨hnotin, hnodup⟩ := List.nodup_cons.mp h
    rcases eq_or_ne party q with rfl | hne
    · simp [hnotin, ih hnodup]
    · simp [hne, hne.symm, ih hnodup]

theorem receivedFrom_map_received {q : PartyId} {parties : List PartyId} (h : parties.Nodup)
    (packets : PartyId → Packet) :
    receivedFrom q (parties.map fun q => .received q (packets q)) =
      if q ∈ parties then [packets q] else [] := by
  rw [receivedFrom, List.filterMap_map]
  exact filterMap_ite_eq h packets

theorem sentTo_map_sent {q : PartyId} {parties : List PartyId} (h : parties.Nodup)
    (packets : PartyId → Packet) :
    sentTo q (parties.map fun q => .sent q (packets q)) =
      if q ∈ parties then [packets q] else [] := by
  rw [sentTo, List.filterMap_map]
  exact filterMap_ite_eq h packets

theorem sentTo_map_received (q : PartyId) (parties : List PartyId) (packets : PartyId → Packet) :
    sentTo q (parties.map fun q => .received q (packets q)) = [] := by
  simp [sentTo]

theorem receivedFrom_exchange {me : Party} {packet : Packet} {packets : PartyId → Packet}
    {q : PartyId} :
    receivedFrom q (exchange me packet packets) = if q ∈ me.peers then [packets q] else [] := by
  have hsent : receivedFrom q (me.peers.map (.sent · packet)) = [] := by
    simp [receivedFrom]
  rw [exchange, receivedFrom_append, hsent, receivedFrom_map_received Party.nodup_peers,
    List.nil_append]

theorem sentTo_exchange {me : Party} {packet : Packet} {packets : PartyId → Packet} {q : PartyId} :
    sentTo q (exchange me packet packets) = if q ∈ me.peers then [packet] else [] := by
  rw [exchange, sentTo_append, sentTo_map_sent Party.nodup_peers fun _ => packet,
    sentTo_map_received, List.append_nil]

namespace RoundBuffer

/-- What is done to the parties of a list, the first of them first. -/
theorem ite_mem_cons {α : Type} {q : PartyId} {peers : List PartyId} (f g : PartyId → α) (a : α)
    (hf : f q = a) :
    (fun x => if x ∈ q :: peers then f x else g x) =
      fun x => if x ∈ peers then f x else Function.update g q a x := by
  funext x
  rcases eq_or_ne x q with rfl | hne
  · simp [hf]
  · simp [hne]

theorem ite_mem_cons_update {α : Type} {q : PartyId} {peers : List PartyId} (hq : q ∉ peers)
    (f g : PartyId → α) (a : α) :
    (fun x => if x ∈ q :: peers then Function.update f q a x else g x) =
      fun x => if x ∈ peers then f x else Function.update g q a x := by
  funext x
  rcases eq_or_ne x q with rfl | hne
  · simp [hq]
  · simp [hne]

theorem mem_cons_or {q : PartyId} {peers : List PartyId} (fetched : PartyId → Bool) :
    (fun x => decide (x ∈ q :: peers) || fetched x) =
      fun x => decide (x ∈ peers) || Function.update fetched q true x := by
  funext x
  rcases eq_or_ne x q with rfl | hne
  · simp
  · simp [hne]

variable {phase : Phase} {n : Nat} {out held : PartyId → List Payload} {fetched : PartyId → Bool}
  {b : RoundBuffer} {talk : List Signal}

def ship : Program RoundBuffer Unit := do
  flush
  endRound

theorem ends_ship :
    ship.Ends (of phase n out held fetched) talk (.ok ()) b ↔
      talk = ((List.range n).filter fun q => out q ≠ []).map (fun q => .sent q ⟨phase, out q⟩) ∧
        (∀ q < n, held q = []) ∧ b = start phase n := by
  rw [ship, Program.ends_bind_ok, start_eq_of]
  simp only [ends_flush]
  constructor
  · rintro ⟨_, _, _, _, rfl, ⟨rfl, -, rfl⟩, h⟩
    obtain ⟨rfl, hheld, rfl⟩ := ends_endRound.mp h
    exact ⟨List.append_nil _, hheld, rfl⟩
  · rintro ⟨rfl, hheld, rfl⟩
    exact ⟨(), _, _, [], (List.append_nil _).symm, ⟨rfl, trivial, rfl⟩,
      ends_endRound.mpr ⟨rfl, hheld, rfl⟩⟩

theorem ends_ship_posted {me : Party} {messages : List Payload} (hmessages : messages ≠ []) :
    ship.Ends (of phase me.parties (fun q => if q = me.id then [] else messages) held fetched) talk
        (.ok ()) b ↔
      talk = me.peers.map (.sent · ⟨phase, messages⟩) ∧ (∀ q < me.parties, held q = []) ∧
        b = start phase me.parties := by
  have hfilter : ((List.range me.parties).filter fun q =>
      (if q = me.id then [] else messages) ≠ []) = me.peers :=
    List.filter_congr fun q _ => by by_cases hq : q = me.id <;> simp [hq, hmessages]
  have hmap : me.peers.map (fun q => Signal.sent q ⟨phase, if q = me.id then [] else messages⟩) =
      me.peers.map (.sent · ⟨phase, messages⟩) :=
    List.map_congr_left fun q hq => by rw [if_neg (Party.mem_peers.mp hq).2]
  rw [ends_ship, hfilter, hmap]

theorem ends_ship_silent :
    ship.Ends (of phase n (fun _ => []) held fetched) talk (.ok ()) b ↔
      talk = [] ∧ (∀ q < n, held q = []) ∧ b = start phase n := by
  rw [ends_ship, List.filter_eq_nil_iff.mpr (by simp), List.map_nil]

theorem ends_ship_start : ship.Ends (start phase n) [] (.ok ()) (start phase n) := by
  have hship : ship.Ends (of phase n (fun _ => []) (fun _ => []) fun _ => false) [] (.ok ())
      (start phase n) := ends_ship_silent.mpr ⟨rfl, fun _ _ => rfl, rfl⟩
  rwa [← start_eq_of] at hship

end RoundBuffer

namespace Desk

variable {phase : Phase} {n : Nat} {out held : PartyId → List Payload} {fetched : PartyId → Bool}
  {me : Party} {desk desk' : Desk W} {talk : List Signal}

theorem ends_broadcast {payload : Payload} {o : Except Error Unit} :
    (broadcast me payload).Ends { desk with rounds := .of phase n out held fetched } talk o desk' ↔
      talk = [] ∧ o = .ok () ∧ desk' = { desk with
        rounds := .of phase n (fun q => if q = me.id then out q else out q ++ [payload]) held
          fetched } := by
  rw [broadcast, Program.ends_zoom]
  constructor
  · rintro ⟨b, rfl, h⟩
    obtain ⟨rfl, rfl, rfl⟩ := RoundBuffer.ends_broadcast.mp h
    exact ⟨rfl, rfl, rfl⟩
  · rintro ⟨rfl, rfl, rfl⟩
    exact ⟨_, rfl, RoundBuffer.ends_broadcast.mpr ⟨rfl, rfl, rfl⟩⟩

theorem ends_receive_fresh {q : PartyId} (hq : q < n) (hme : q ≠ me.id) (hheld : held q = [])
    (hfetched : fetched q = false) {message : Payload} :
    (receive me q).Ends { desk with rounds := .of phase n out held fetched } talk
        (.ok message) desk' ↔
      ∃ rest, talk = [.received q ⟨phase, message :: rest⟩] ∧ desk' = { desk with
        rounds := .of phase n out (Function.update held q rest)
          (Function.update fetched q true) } := by
  rw [receive, Program.ends_zoom]
  constructor
  · rintro ⟨b, rfl, h⟩
    obtain ⟨rest, rfl, rfl⟩ := (RoundBuffer.ends_receive_fresh hq hme hheld hfetched).mp h
    exact ⟨rest, rfl, rfl⟩
  · rintro ⟨rest, rfl, rfl⟩
    exact ⟨_, rfl, (RoundBuffer.ends_receive_fresh hq hme hheld hfetched).mpr ⟨rest, rfl, rfl⟩⟩

theorem ends_receive_fetched {q : PartyId} (hq : q < n) (hme : q ≠ me.id)
    (hfetched : fetched q = true) {message : Payload} :
    (receive me q).Ends { desk with rounds := .of phase n out held fetched } talk
        (.ok message) desk' ↔
      talk = [] ∧ ∃ rest, held q = message :: rest ∧ desk' = { desk with
        rounds := .of phase n out (Function.update held q rest) fetched } := by
  rw [receive, Program.ends_zoom]
  constructor
  · rintro ⟨b, rfl, h⟩
    obtain ⟨rfl, rest, hheld, rfl⟩ := (RoundBuffer.ends_receive_fetched hq hme hfetched).mp h
    exact ⟨rfl, rest, hheld, rfl⟩
  · rintro ⟨rfl, rest, hheld, rfl⟩
    exact ⟨_, rfl, (RoundBuffer.ends_receive_fetched hq hme hfetched).mpr ⟨rfl, rest, hheld, rfl⟩⟩

theorem ends_gather_fresh {read : PartyId → Payload → Except Error Element} {peers : List PartyId}
    (hpeers : ∀ q ∈ peers, q < n ∧ q ≠ me.id) (hnodup : peers.Nodup)
    (hheld : ∀ q ∈ peers, held q = []) (hfetched : ∀ q ∈ peers, fetched q = false)
    {total sum : Element} :
    (gather me read peers total).Ends { desk with rounds := .of phase n out held fetched } talk
        (.ok sum) desk' ↔
      ∃ (payload : PartyId → Payload) (rest : PartyId → List Payload) (value : PartyId → Element),
        talk = peers.map (fun q => .received q ⟨phase, payload q :: rest q⟩) ∧
        (∀ q ∈ peers, read q (payload q) = .ok (value q)) ∧
        sum = (peers.map value).foldl me.modulus.add total ∧
        desk' = { desk with
          rounds := .of phase n out (fun q => if q ∈ peers then rest q else held q)
            fun q => decide (q ∈ peers) || fetched q } := by
  induction peers generalizing total talk held fetched with
  | nil => simp [gather]
  | cons q peers ih =>
    obtain ⟨⟨hq, hme⟩, hpeers⟩ := List.forall_mem_cons.mp hpeers
    obtain ⟨hnotin, hnodup⟩ := List.nodup_cons.mp hnodup
    obtain ⟨hheldq, hheld⟩ := List.forall_mem_cons.mp hheld
    obtain ⟨hfetchedq, hfetched⟩ := List.forall_mem_cons.mp hfetched
    have hne : ∀ x ∈ peers, x ≠ q := fun x hx h => hnotin (h ▸ hx)
    have hupdate : ∀ x ∈ peers, Function.update fetched q true x = false := fun x hx => by
      rw [Function.update_of_ne (hne x hx), hfetched x hx]
    have hempty : ∀ rest, ∀ x ∈ peers, Function.update held q rest x = [] := fun rest x hx => by
      rw [Function.update_of_ne (hne x hx), hheld x hx]
    rw [gather, Program.ends_bind_ok]
    constructor
    · rintro ⟨message, _, _, back, rfl, hreceive, h⟩
      obtain ⟨rest₀, rfl, rfl⟩ := (ends_receive_fresh hq hme hheldq hfetchedq).mp hreceive
      obtain ⟨value₀, hread, h⟩ := Program.ends_ofExcept_bind_ok.mp h
      obtain ⟨payload, rest, value, rfl, hvalues, rfl, rfl⟩ :=
        (ih hpeers hnodup (hempty rest₀) hupdate).mp h
      refine ⟨Function.update payload q message, Function.update rest q rest₀,
        Function.update value q value₀, ?_, ?_, ?_, ?_⟩
      · simp only [List.map_cons, Function.update_self, List.singleton_append]
        refine congrArg _ (List.map_congr_left fun x hx => ?_)
        simp only [Function.update_of_ne (hne x hx)]
      · refine List.forall_mem_cons.mpr ⟨by simpa using hread, fun x hx => ?_⟩
        simp only [Function.update_of_ne (hne x hx), hvalues x hx]
      · have hmap : peers.map (Function.update value q value₀) = peers.map value :=
          List.map_congr_left fun x hx => Function.update_of_ne (hne x hx) ..
        rw [List.map_cons, hmap, Function.update_self, List.foldl_cons]
      · rw [RoundBuffer.mem_cons_or, RoundBuffer.ite_mem_cons_update hnotin]
    · rintro ⟨payload, rest, value, rfl, hvalues, rfl, rfl⟩
      obtain ⟨hvalue, hvalues⟩ := List.forall_mem_cons.mp hvalues
      refine ⟨payload q, _, [_], _, rfl,
        (ends_receive_fresh hq hme hheldq hfetchedq).mpr ⟨rest q, rfl, rfl⟩,
        Program.ends_ofExcept_bind_ok.mpr ⟨value q, hvalue,
          (ih hpeers hnodup (hempty _) hupdate).mpr ⟨payload, rest, value, rfl, hvalues, rfl, ?_⟩⟩⟩
      rw [RoundBuffer.mem_cons_or, RoundBuffer.ite_mem_cons _ _ (rest q) rfl]

/-- The desk after a message of every peer was read, with what is left of the packets. -/
def afterReading (desk : Desk W) (me : Party) (phase : Phase) (rest : PartyId → List Payload) :
    Desk W :=
  { desk with
    rounds := .of phase me.parties (fun _ => []) (fun q => if q ∈ me.peers then rest q else [])
      fun q => decide (q ∈ me.peers) }

/-- Adding up the contributions of all peers at the start of a round. -/
theorem ends_gather {read : PartyId → Payload → Except Error Element} {total sum : Element} :
    (gather me read me.peers total).Ends { desk with rounds := .start phase me.parties } talk
        (.ok sum) desk' ↔
      ∃ (payload : PartyId → Payload) (rest : PartyId → List Payload) (value : PartyId → Element),
        talk = me.peers.map (fun q => .received q ⟨phase, payload q :: rest q⟩) ∧
        (∀ q ∈ me.peers, read q (payload q) = .ok (value q)) ∧
        sum = (me.peers.map value).foldl me.modulus.add total ∧
        desk' = desk.afterReading me phase rest := by
  rw [RoundBuffer.start_eq_of, ends_gather_fresh (fun _ => Party.mem_peers.mp) Party.nodup_peers
    (fun _ _ => rfl) fun _ _ => rfl]
  simp only [Bool.or_false]
  rfl

/-- Adding up the contributions of peers whose packets are there takes the next message of each. -/
theorem ends_gather_held {read : PartyId → Payload → Except Error Element} {peers : List PartyId}
    (hpeers : ∀ q ∈ peers, q < n ∧ q ≠ me.id) (hnodup : peers.Nodup)
    (hfetched : ∀ q ∈ peers, fetched q = true) {payload : PartyId → Payload}
    {rest : PartyId → List Payload} (hheld : ∀ q ∈ peers, held q = payload q :: rest q)
    {value : PartyId → Element} (hread : ∀ q ∈ peers, read q (payload q) = .ok (value q))
    {total : Element} :
    (gather me read peers total).Ends { desk with rounds := .of phase n out held fetched } []
      (.ok ((peers.map value).foldl me.modulus.add total))
      { desk with
        rounds := .of phase n out (fun q => if q ∈ peers then rest q else held q) fetched } := by
  induction peers generalizing total held with
  | nil => exact ⟨rfl, rfl, by simp⟩
  | cons q peers ih =>
    obtain ⟨⟨hq, hme⟩, hpeers⟩ := List.forall_mem_cons.mp hpeers
    obtain ⟨hnotin, hnodup⟩ := List.nodup_cons.mp hnodup
    obtain ⟨hfetchedq, hfetched⟩ := List.forall_mem_cons.mp hfetched
    obtain ⟨hheldq, hheld⟩ := List.forall_mem_cons.mp hheld
    obtain ⟨hreadq, hread⟩ := List.forall_mem_cons.mp hread
    have hupdate : ∀ x ∈ peers, Function.update held q (rest q) x = payload x :: rest x :=
      fun x hx => by rw [Function.update_of_ne (ne_of_mem_of_not_mem hx hnotin), hheld x hx]
    rw [gather, RoundBuffer.ite_mem_cons _ _ (rest q) rfl]
    have hreceive : (receive me q).Ends
        { desk with rounds := .of phase n out held fetched } [] (.ok (payload q))
        { desk with rounds := .of phase n out (Function.update held q (rest q)) fetched } :=
      (ends_receive_fetched hq hme hfetchedq).mpr ⟨rfl, rest q, hheldq, rfl⟩
    refine hreceive.bind ?_
    rw [hreadq]
    exact ih hpeers hnodup hfetched hupdate hread

theorem ends_gather_fetched {read : PartyId → Payload → Except Error Element}
    {payload : PartyId → Payload} {rest : PartyId → List Payload} {value : PartyId → Element}
    (hread : ∀ q ∈ me.peers, read q (payload q) = .ok (value q)) {total : Element} :
    (gather me read me.peers total).Ends
      (desk.afterReading me phase fun q => payload q :: rest q) []
      (.ok ((me.peers.map value).foldl me.modulus.add total)) (desk.afterReading me phase rest) := by
  have hgather := @ends_gather_held W phase me.parties (fun _ => [])
    (fun q => if q ∈ me.peers then payload q :: rest q else []) (fun q => decide (q ∈ me.peers)) me
    desk read me.peers (fun _ => Party.mem_peers.mp) Party.nodup_peers (fun _ => decide_eq_true)
    payload rest (fun _ hq => if_pos hq) value hread total
  have hheld : (fun q => if q ∈ me.peers then rest q
      else if q ∈ me.peers then payload q :: rest q else []) =
      fun q => if q ∈ me.peers then rest q else [] := by
    funext q
    split <;> rfl
  rw [hheld] at hgather
  exact hgather

end Desk

namespace Bench

variable {G : Type} [Gate G W] {me : Party} {phase : Phase} {gate gate' : G} {desk : Desk W}
  {bench : Bench G W} {talk : List Signal} {round : Nat}

theorem ends_evaluateAt {place : Nat} {bench bench' : Bench G W}
    (hslot : bench.slots[place]? = some ⟨gate, false⟩) :
    (evaluateAt me round place).Ends bench talk (.ok ()) bench' ↔
      ∃ gate' status desk', (Gate.evaluate me round gate).Ends bench.desk talk
          (.ok (gate', status)) desk' ∧
        bench' = put place gate' status { bench with desk := desk' } := by
  rw [evaluateAt, Program.ends_get_bind, hslot, Program.ends_mark_bind, Program.ends_bind_ok]
  constructor
  · rintro ⟨⟨gate', status⟩, middle, front, back, rfl, hgate, rfl, -, rfl⟩
    obtain ⟨desk', rfl, hgate⟩ := Program.ends_zoom.mp hgate
    exact ⟨gate', status, desk', by rwa [List.append_nil], rfl⟩
  · rintro ⟨gate', status, desk', hgate, rfl⟩
    exact ⟨(gate', status), _, talk, [], (List.append_nil _).symm,
      Program.ends_zoom.mpr ⟨desk', rfl, hgate⟩, rfl, rfl, rfl⟩

theorem ends_evaluateAt_done {place : Nat} {bench bench' : Bench G W}
    (hslot : bench.slots[place]? = some ⟨gate, true⟩) {o : Except Error Unit} :
    (evaluateAt me round place).Ends bench talk o bench' ↔
      talk = [] ∧ o = .ok () ∧ bench' = bench := by
  rw [evaluateAt, Program.ends_get_bind, hslot]
  exact Iff.rfl

theorem runRound_eq : (runRound me round : Program (Bench G W) Unit) = (do
    let bench ← Program.get
    evaluatePlaces me round (List.range bench.slots.length)
    RoundBuffer.ship.zoom roundsPart) := by
  have hship : (RoundBuffer.ship.zoom roundsPart : Program (Bench G W) Unit) = (do
      RoundBuffer.flush.zoom roundsPart
      RoundBuffer.endRound.zoom roundsPart) := Program.zoom_bind ..
  rw [hship, runRound]

theorem ends_runRound_single :
    (runRound me round).Ends ⟨[⟨gate, false⟩], desk⟩ talk (.ok ()) bench ↔
      ∃ gate' status desk' rounds front back, talk = front ++ back ∧
        (Gate.evaluate me round gate).Ends desk front (.ok (gate', status)) desk' ∧
        RoundBuffer.ship.Ends desk'.rounds back (.ok ()) rounds ∧
        bench = ⟨[⟨gate', decide (status = .done)⟩], { desk' with rounds }⟩ := by
  rw [runRound_eq, Program.ends_get_bind, Program.ends_bind_ok]
  constructor
  · rintro ⟨_, _, front, back, rfl, hplaces, h⟩
    obtain ⟨_, _, front, _, rfl, hplace, rfl, -, rfl⟩ := Program.ends_bind_ok.mp hplaces
    obtain ⟨gate', status, desk', hgate, rfl⟩ := (ends_evaluateAt rfl).mp hplace
    obtain ⟨rounds, rfl, hship⟩ := Program.ends_zoom.mp h
    exact ⟨gate', status, desk', rounds, front, back, by rw [List.append_nil], hgate, hship, rfl⟩
  · rintro ⟨gate', status, desk', rounds, front, back, rfl, hgate, hship, rfl⟩
    have hplace : (evaluateAt me round 0).Ends (⟨[⟨gate, false⟩], desk⟩ : Bench G W) front (.ok ())
        (put 0 gate' status ⟨[⟨gate, false⟩], desk'⟩) :=
      (ends_evaluateAt rfl).mpr ⟨gate', status, desk', hgate, rfl⟩
    refine ⟨(), put 0 gate' status ⟨[⟨gate, false⟩], desk'⟩, front, back, rfl, ?_,
      Program.ends_zoom.mpr ⟨rounds, rfl, hship⟩⟩
    rw [← List.append_nil front]
    exact hplace.bind ⟨rfl, rfl, rfl⟩

theorem ends_runRounds_done {limit rounds : Nat} (h : bench.isDone = true) {bench' : Bench G W} :
    (runRounds me (limit + 1) round).Ends bench talk (.ok rounds) bench' ↔
      talk = [] ∧ rounds = round ∧ bench' = bench := by
  rw [runRounds, Program.ends_get_bind, if_pos h, Program.ends_pure, Except.ok.injEq]

theorem ends_runRounds_succ {limit rounds : Nat} (h : bench.isDone = false) {bench' : Bench G W} :
    (runRounds me (limit + 1) round).Ends bench talk (.ok rounds) bench' ↔
      ∃ middle front back, talk = front ++ back ∧
        (runRound me round).Ends bench front (.ok ()) middle ∧
        (runRounds me limit (round + 1)).Ends middle back (.ok rounds) bench' := by
  rw [runRounds, Program.ends_get_bind, if_neg (by simp [h]), Program.ends_bind_ok]
  exact ⟨fun ⟨_, h⟩ => h, fun h => ⟨(), h⟩⟩

section Exchange

variable {payload : Payload} {Good : (PartyId → Payload) → G → Prop}

theorem ends_runRound_post
    (hpost : Gate.evaluate me 0 gate = do
      Desk.broadcast me payload
      pure (gate, .moreRounds)) :
    (runRound me 0).Ends ⟨[⟨gate, false⟩], { desk with rounds := .start phase me.parties }⟩ talk
        (.ok ()) bench ↔
      talk = me.peers.map (.sent · ⟨phase, [payload]⟩) ∧
        bench = ⟨[⟨gate, false⟩], { desk with rounds := .start phase me.parties }⟩ := by
  rw [ends_runRound_single, hpost]
  simp only [RoundBuffer.start_eq_of, Program.ends_bind_ok, Desk.ends_broadcast,
    Program.ends_pure]
  constructor
  · rintro ⟨_, _, _, rounds, _, back, rfl, ⟨_, _, _, _, rfl, ⟨rfl, -, rfl⟩, rfl, hvalue, rfl⟩,
      hship, rfl⟩
    cases hvalue
    obtain ⟨rfl, -, rfl⟩ :=
      (RoundBuffer.ends_ship_posted (List.cons_ne_nil payload [])).mp hship
    exact ⟨rfl, by rw [RoundBuffer.start_eq_of]; rfl⟩
  · rintro ⟨rfl, rfl⟩
    refine ⟨gate, .moreRounds, _, _, [], _, rfl, ⟨(), _, [], [], rfl, ⟨rfl, trivial, rfl⟩, rfl,
      rfl, rfl⟩,
      (RoundBuffer.ends_ship_posted (List.cons_ne_nil payload [])).mpr ⟨rfl, fun _ _ => rfl, rfl⟩, ?_⟩
    rw [RoundBuffer.start_eq_of]
    rfl

theorem ends_runRound_read
    (hread : ∀ heard gate' status desk',
      (Gate.evaluate me 1 gate).Ends { desk with rounds := .start phase me.parties } heard
          (.ok (gate', status)) desk' ↔
        ∃ (answer : PartyId → Payload) (rest : PartyId → List Payload),
          heard = me.peers.map (fun q => .received q ⟨phase, answer q :: rest q⟩) ∧
          Good answer gate' ∧ status = .done ∧ desk' = desk.afterReading me phase rest) :
    (runRound me 1).Ends ⟨[⟨gate, false⟩], { desk with rounds := .start phase me.parties }⟩ talk
        (.ok ()) bench ↔
      ∃ answer gate', talk = me.peers.map (fun q => .received q ⟨phase, [answer q]⟩) ∧
        Good answer gate' ∧
        bench = ⟨[⟨gate', true⟩], { desk with rounds := .start phase me.parties }⟩ := by
  rw [ends_runRound_single]
  simp only [hread]
  constructor
  · rintro ⟨gate', _, _, rounds, _, back, rfl, ⟨answer, rest, rfl, hgood, rfl, rfl⟩, hship, rfl⟩
    obtain ⟨rfl, hrest, rfl⟩ := RoundBuffer.ends_ship_silent.mp hship
    refine ⟨answer, gate', ?_, hgood, rfl⟩
    rw [List.append_nil]
    refine List.map_congr_left fun q hq => ?_
    have hq' := hrest q (Party.mem_peers.mp hq).1
    rw [if_pos hq] at hq'
    rw [hq']
  · rintro ⟨answer, gate', rfl, hgood, rfl⟩
    exact ⟨gate', .done, _, _, _, [], (List.append_nil _).symm,
      ⟨answer, fun _ => [], rfl, hgood, rfl, rfl⟩,
      RoundBuffer.ends_ship_silent.mpr ⟨rfl, fun _ _ => ite_self _, rfl⟩, rfl⟩

/-- A single gate that broadcasts in its first round and is done after reading one message of every
peer in its second: the batch is one exchange, in which every packet holds one message. -/
theorem ends_process_exchange
    (hpost : Gate.evaluate me 0 gate = do
      Desk.broadcast me payload
      pure (gate, .moreRounds))
    (hread : ∀ heard gate' status desk',
      (Gate.evaluate me 1 gate).Ends { desk with rounds := .start phase me.parties } heard
          (.ok (gate', status)) desk' ↔
        ∃ (answer : PartyId → Payload) (rest : PartyId → List Payload),
          heard = me.peers.map (fun q => .received q ⟨phase, answer q :: rest q⟩) ∧
          Good answer gate' ∧ status = .done ∧ desk' = desk.afterReading me phase rest)
    {rounds : Nat} :
    (process me).Ends ⟨[⟨gate, false⟩], { desk with rounds := .start phase me.parties }⟩ talk
        (.ok rounds) bench ↔
      rounds = 2 ∧ ∃ answer gate',
        talk = exchange me ⟨phase, [payload]⟩ (fun q => ⟨phase, [answer q]⟩) ∧
        Good answer gate' ∧
        bench = ⟨[⟨gate', true⟩], { desk with rounds := .start phase me.parties }⟩ := by
  rw [process, show roundLimit = (2 ^ 64 - 3) + 1 + 1 + 1 from rfl,
    ends_runRounds_succ rfl]
  simp only [ends_runRound_post hpost]
  constructor
  · rintro ⟨_, _, back, rfl, ⟨rfl, rfl⟩, h⟩
    obtain ⟨_, _, back, rfl, hround, h⟩ := (ends_runRounds_succ rfl).mp h
    obtain ⟨answer, gate', rfl, hgood, rfl⟩ := (ends_runRound_read hread).mp hround
    obtain ⟨rfl, rfl, rfl⟩ := (ends_runRounds_done rfl).mp h
    exact ⟨rfl, answer, gate', by rw [List.append_nil, exchange], hgood, rfl⟩
  · rintro ⟨rfl, answer, gate', rfl, hgood, rfl⟩
    refine ⟨_, _, _, rfl, ⟨rfl, rfl⟩, (ends_runRounds_succ rfl).mpr ⟨_, _, [],
      (List.append_nil _).symm, (ends_runRound_read hread).mpr ⟨answer, gate', rfl, hgood, rfl⟩,
      (ends_runRounds_done rfl).mpr ⟨rfl, rfl, rfl⟩⟩⟩

end Exchange

end Bench
end AuthenticatedMpc
