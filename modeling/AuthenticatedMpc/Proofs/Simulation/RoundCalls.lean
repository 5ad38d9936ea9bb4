import AuthenticatedMpc.Proofs.Rounds.Exchange
import AuthenticatedMpc.Proofs.Simulation.Driving
import AuthenticatedMpc.Simulation.Hub

/-!
# The calls of a round

What one call does: what it says and hears, what it returns, and what the buffer holds after it. A call
that fails may have fetched a packet or cleared the inbox, but queues and sends nothing.
-/

namespace AuthenticatedMpc

open RoundBuffer

/-- Nothing is queued for the party itself, and nothing is held from parties not heard in the round. -/
def RoundBuffer.Fits (phase : Phase) (n : Nat) (me : PartyId) (buffer : RoundBuffer) : Prop :=
  ∃ out held fetched, buffer = of phase n out held fetched ∧ out me = [] ∧
    ∀ q, fetched q = false → held q = []

/-- What a call of a party leads to from a buffer: what it says and hears, its reply, and the buffer
after it. -/
inductive RoundCall.Effect (phase : Phase) (n : Nat) (me : PartyId)
    (out held : PartyId → List Payload) (fetched : PartyId → Bool) :
    RoundCall → List Signal → RoundReply → RoundBuffer → Prop
  | send (peer : PartyId) (payload : Payload) (hpeer : peer ≠ me) :
      Effect phase n me out held fetched (.send peer payload) [] (.result (.ok none))
        (of phase n (Function.update out peer (out peer ++ [payload])) held fetched)
  | broadcast (payload : Payload) :
      Effect phase n me out held fetched (.broadcast payload) [] (.result (.ok none))
        (of phase n (fun q => if q = me then out q else out q ++ [payload]) held fetched)
  | flush :
      Effect phase n me out held fetched .flush
        (((List.range n).filter fun q => out q ≠ []).map fun q => .sent q ⟨phase, out q⟩)
        (.result (.ok none)) (of phase n (fun _ => []) held fetched)
  /-- The packet of the peer has come before. -/
  | next (peer : PartyId) (message : Payload) (rest : List Payload) (hheld : held peer = message :: rest) :
      Effect phase n me out held fetched (.receive peer) [] (.result (.ok (some message)))
        (of phase n out (Function.update held peer rest) fetched)
  /-- The packet of the peer comes. -/
  | first (peer : PartyId) (message : Payload) (rest : List Payload) (hheld : held peer = [])
      (hpeer : peer < n ∧ peer ≠ me) :
      Effect phase n me out held fetched (.receive peer) [.received peer ⟨phase, message :: rest⟩]
        (.result (.ok (some message)))
        (of phase n out (Function.update held peer rest) (Function.update fetched peer true))
  | endRound (hheld : ∀ q < n, held q = []) :
      Effect phase n me out held fetched .endRound [] (.result (.ok none))
        (of phase n out (fun _ => []) fun _ => false)
  | waiting (peer : PartyId) :
      Effect phase n me out held fetched (.receive peer) [] .waiting (of phase n out held fetched)
  | failed (call : RoundCall) (heard : List Signal) (error : Error) (held' : PartyId → List Payload)
      (fetched' : PartyId → Bool) (hheard : ∀ signal ∈ heard, ∃ peer packet,
        signal = .received peer packet ∧ peer < n ∧ peer ≠ me)
      (hfetched : ∀ q, fetched' q = false → held' q = []) :
      Effect phase n me out held fetched call heard (.result (.error error))
        (of phase n out held' fetched')

/-- A packet goes to each party for which something is queued, and holds all of it. -/
theorem flatMap_sentTo_flush {phase : Phase} {n : Nat} {out : PartyId → List Payload} {q : PartyId}
    (hq : q < n) :
    (sentTo q (((List.range n).filter fun q => out q ≠ []).map
      fun q => .sent q ⟨phase, out q⟩)).flatMap Packet.messages = out q := by
  rw [sentTo_map_sent (List.nodup_range.filter _) fun q => ⟨phase, out q⟩]
  by_cases hout : out q = []
  · simp [hout]
  · simp [hout, hq]

namespace RoundCall

variable {phase : Phase} {n : Nat} {me : PartyId} {out held : PartyId → List Payload}
  {fetched : PartyId → Bool} {call : RoundCall} {talk : List Signal} {reply : RoundReply}
  {buffer : RoundBuffer}

theorem Effect.fits (h : Effect phase n me out held fetched call talk reply buffer)
    (hown : out me = []) (hfetched : ∀ q, fetched q = false → held q = []) :
    buffer.Fits phase n me := by
  cases h with
  | send peer payload hpeer =>
    exact ⟨_, held, fetched, rfl, by rwa [Function.update_of_ne hpeer.symm], hfetched⟩
  | broadcast payload => exact ⟨_, held, fetched, rfl, by rwa [if_pos rfl], hfetched⟩
  | flush => exact ⟨_, held, fetched, rfl, rfl, hfetched⟩
  | next peer message rest hheld =>
    refine ⟨out, _, fetched, rfl, hown, fun q hq => ?_⟩
    rcases eq_or_ne q peer with rfl | hne
    · rw [hfetched q hq] at hheld
      cases hheld
    · rw [Function.update_of_ne hne, hfetched q hq]
  | first peer message rest hheld hpeer =>
    refine ⟨out, _, _, rfl, hown, fun q hq => ?_⟩
    rcases eq_or_ne q peer with rfl | hne
    · rw [Function.update_self] at hq
      cases hq
    · rw [Function.update_of_ne hne] at hq ⊢
      exact hfetched q hq
  | endRound => exact ⟨out, _, _, rfl, hown, fun _ _ => rfl⟩
  | waiting peer => exact ⟨out, held, fetched, rfl, hown, hfetched⟩
  | failed _ _ _ held' fetched' _ hfetched' => exact ⟨out, held', fetched', rfl, hown, hfetched'⟩

theorem Effect.isExchange (h : Effect phase n me out held fetched call talk reply buffer)
    (hown : out me = []) : ∀ signal ∈ talk, signal.IsExchange n me := by
  cases h with
  | send | broadcast | next | endRound | waiting => exact nofun
  | flush =>
    intro signal hmem
    obtain ⟨q, hq, rfl⟩ := List.mem_map.mp hmem
    obtain ⟨hlt, hout⟩ := List.mem_filter.mp hq
    refine ⟨List.mem_range.mp hlt, ?_⟩
    rintro rfl
    exact of_decide_eq_true hout hown
  | first peer message rest hheld hpeer => exact List.forall_mem_singleton.mpr hpeer
  | failed call heard error held' fetched' hheard =>
    intro signal hmem
    obtain ⟨peer, packet, rfl, hpeer⟩ := hheard signal hmem
    exact hpeer

/-! ## Every call has such an effect -/

theorem ends_program_send {peer : PartyId} {payload : Payload} :
    (peer < n ∧ peer ≠ me ∧ ((send peer payload).program me).Ends (of phase n out held fetched) []
        (.ok none) (of phase n (Function.update out peer (out peer ++ [payload])) held fetched)) ∨
      ∃ error, ((send peer payload).program me).Ends (of phase n out held fetched) [] (.error error)
        (of phase n out held fetched) := by
  by_cases hpeer : peer < n ∧ peer ≠ me
  · have hpost : (of phase n out held fetched).post peer payload =
        of phase n (Function.update out peer (out peer ++ [payload])) held fetched := by
      simp only [post, of, map_range_modify]
    have hsend : (RoundBuffer.send me peer payload).Ends (of phase n out held fetched) [] (.ok ())
        (of phase n (Function.update out peer (out peer ++ [payload])) held fetched) := by
      rw [RoundBuffer.send, Program.ends_get_bind, if_pos (isPeer_of.mpr hpeer), ← hpost]
      exact ⟨rfl, rfl, rfl⟩
    exact .inl ⟨hpeer.1, hpeer.2, hsend.bind ⟨rfl, rfl, rfl⟩⟩
  · have hsend : (RoundBuffer.send me peer payload).Ends (of phase n out held fetched) []
        (.error (.setup (.cannotSend peer))) (of phase n out held fetched) := by
      rw [RoundBuffer.send, Program.ends_get_bind, if_neg (mt isPeer_of.mp hpeer)]
      exact ⟨rfl, rfl, rfl⟩
    exact .inr ⟨_, hsend.bind_error⟩

theorem ends_program_endRound :
    ((∀ q < n, held q = []) ∧ (endRound.program me).Ends (of phase n out held fetched) [] (.ok none)
        (of phase n out (fun _ => []) fun _ => false)) ∨
      ∃ error, (endRound.program me).Ends (of phase n out held fetched) [] (.error error)
        (of phase n out (fun _ => []) fun _ => false) := by
  by_cases hheld : ∀ q < n, held q = []
  · exact .inl ⟨hheld, (ends_endRound.mpr ⟨rfl, hheld, rfl⟩).bind ⟨rfl, rfl, rfl⟩⟩
  · obtain ⟨peer, count, hend⟩ := ends_endRound_surplus hheld
    exact .inr ⟨_, hend.bind_error⟩

theorem ends_program_receive_refused {peer : PartyId} (hpeer : ¬(peer < n ∧ peer ≠ me)) :
    ((receive peer).program me).Ends (of phase n out held fetched) []
      (.error (.setup (.cannotReceive peer))) (of phase n out held fetched) := by
  have hreceive : (RoundBuffer.receive me peer).Ends (of phase n out held fetched) []
      (.error (.setup (.cannotReceive peer))) (of phase n out held fetched) := by
    rw [RoundBuffer.receive, Program.ends_get_bind, if_neg (mt isPeer_of.mp hpeer)]
    exact ⟨rfl, rfl, rfl⟩
  exact hreceive.bind_error

theorem ends_program_receive_wrongPhase {peer : PartyId} {packet : Packet}
    (hpeer : peer < n ∧ peer ≠ me) (hfetched : fetched peer = false) (hphase : packet.phase ≠ phase) :
    ((receive peer).program me).Ends (of phase n out held fetched) [.received peer packet]
      (.error (.desynchronized (.wrongPhase peer packet.phase phase)))
      (of phase n out held fetched) :=
  (ends_receive_wrongPhase hpeer.1 hpeer.2 hfetched hphase).bind_error

theorem ends_program_receive {peer : PartyId} {held' : PartyId → List Payload}
    {fetched' : PartyId → Bool} (hpeer : peer < n ∧ peer ≠ me)
    (hfetch : (fetch peer).Ends (of phase n out held fetched) talk (.ok ())
      (of phase n out held' fetched')) :
    (∃ message rest, held' peer = message :: rest ∧
        ((receive peer).program me).Ends (of phase n out held fetched) talk (.ok (some message))
          (of phase n out (Function.update held' peer rest) fetched')) ∨
      held' peer = [] ∧ ∃ error, ((receive peer).program me).Ends (of phase n out held fetched) talk
        (.error error) (of phase n out held' fetched') := by
  cases hheld : held' peer with
  | nil => exact .inr ⟨rfl, _, (ends_receive_empty hpeer.1 hpeer.2 hheld hfetch).bind_error⟩
  | cons message rest =>
    have hreceive : (RoundBuffer.receive me peer).Ends (of phase n out held fetched) talk
        (.ok message) (of phase n out (Function.update held' peer rest) fetched') :=
      (ends_receive hpeer.1 hpeer.2).mpr ⟨_, hfetch, rest, (pending_of hpeer.1).trans hheld, by
        rw [consume_of, hheld, List.tail_cons]⟩
    refine .inl ⟨message, rest, rfl, ?_⟩
    rw [← List.append_nil talk]
    exact hreceive.bind ⟨rfl, rfl, rfl⟩

end RoundCall

/-! ## The calls of a hub -/

namespace Hub

/-- All parties are connected, and every buffer fits its party. -/
structure Ready (n : Nat) (hub : Hub) : Prop where
  connected : hub.mesh.Connected n
  isOpen : ∀ i < n, hub.mesh.isOpen i = true
  length : hub.buffers.length = n
  buffer : ∀ i < n, ∃ phase buffer, hub.buffers[i]? = some buffer ∧ buffer.Fits phase n i

theorem ready_start (phases : List Phase) : (start phases).Ready phases.length where
  connected := Mesh.connected_connect _
  isOpen _ h := Mesh.isOpen_connect h
  length := List.length_map ..
  buffer i h := by
    refine ⟨phases[i], .start phases[i] phases.length, ?_, fun _ => [], fun _ => [], fun _ => false,
      start_eq_of, rfl, fun _ _ => rfl⟩
    simp only [start, List.getElem?_map, List.getElem?_eq_getElem h, Option.map_some]

variable {n : Nat} {hub : Hub} {me : PartyId} {call : RoundCall} {talk : List Signal}
  {buffer buffer' : RoundBuffer} {o : Except Error (Option Payload)} {phase : Phase}
  {out held : PartyId → List Payload} {fetched : PartyId → Bool}

/-- A call whose program ends after a talk that the queues support returns its outcome. -/
theorem Ready.call_of_ends (h : hub.Ready n) (hme : me < n) (hbuffer : hub.buffers[me]? = some buffer)
    (hends : (call.program me).Ends buffer talk o buffer')
    (htalk : ∀ signal ∈ talk, signal.IsExchange n me)
    (hqueue : ∀ q, q ≠ me → receivedFrom q talk <+: hub.mesh.queue q me) :
    ∃ mesh, hub.call me call = (.result o, ⟨mesh, hub.buffers.set me buffer'⟩) ∧
      hub.mesh.Exchanged n me talk mesh := by
  obtain ⟨mesh, hdrives, hexchanged⟩ :=
    (Actor.talks_of_ends hends).exists_drives h.connected hme (h.isOpen me hme) htalk hqueue
  obtain ⟨seen, hrun⟩ := hdrives.run_eq (fun _ _ => ([] : List Unit)) []
  refine ⟨mesh, ?_, hexchanged⟩
  simp only [Hub.call, hbuffer]
  dsimp only at hrun
  rw [hrun]
  cases o <;> rfl

theorem Ready.call_receive_waits (h : hub.Ready n) {peer : PartyId} (hpeer : peer < n ∧ peer ≠ me)
    (hbuffer : hub.buffers[me]? = some (of phase n out held fetched)) (hfetched : fetched peer = false)
    (hqueue : hub.mesh.queue peer me = []) : hub.call me (.receive peer) = (.waiting, hub) := by
  have hnone : hub.mesh.receive me peer = none :=
    h.connected.receive_eq_none hpeer.1 hpeer.2 hqueue (h.isOpen peer hpeer.1)
  have hpeer' : (of phase n out held fetched).isPeer me peer = true := isPeer_of.mpr hpeer
  have hfresh : (of phase n out held fetched).hasFetched peer = false :=
    (hasFetched_of hpeer.1).trans hfetched
  simp only [Hub.call, hbuffer, RoundCall.program, RoundBuffer.receive, fetch, bind, Program.bind,
    Program.get, Program.run, Program.await, id_eq, hpeer', hfresh, if_true, Bool.false_eq_true, if_false,
    Mesh.port, hnone]

/-- A call of a party has an effect on its buffer and, by what it says and hears, on the mesh. -/
def Acts (n : Nat) (hub : Hub) (me : PartyId) (phase : Phase) (out held : PartyId → List Payload)
    (fetched : PartyId → Bool) (call : RoundCall) : Prop :=
  ∃ talk reply buffer mesh, call.Effect phase n me out held fetched talk reply buffer ∧
    hub.call me call = (reply, ⟨mesh, hub.buffers.set me buffer⟩) ∧
    hub.mesh.Exchanged n me talk mesh

theorem Ready.acts_of_ends (h : hub.Ready n) (hme : me < n)
    (hbuffer : hub.buffers[me]? = some (of phase n out held fetched)) (hown : out me = [])
    (hends : (call.program me).Ends (of phase n out held fetched) talk o buffer)
    (heffect : call.Effect phase n me out held fetched talk (.result o) buffer)
    (hqueue : ∀ q, q ≠ me → receivedFrom q talk <+: hub.mesh.queue q me) :
    hub.Acts n me phase out held fetched call := by
  obtain ⟨mesh, hcall, hexchanged⟩ :=
    h.call_of_ends hme hbuffer hends (heffect.isExchange hown) hqueue
  exact ⟨talk, .result o, buffer, mesh, heffect, hcall, hexchanged⟩

theorem Ready.acts_receive_fresh (h : hub.Ready n) (hme : me < n)
    (hbuffer : hub.buffers[me]? = some (of phase n out held fetched)) (hown : out me = [])
    (hfresh : ∀ q, fetched q = false → held q = []) {peer : PartyId} (hpeer : peer < n ∧ peer ≠ me)
    (hfetched : fetched peer = false) {packet : Packet} {later : List Packet}
    (hqueue : hub.mesh.queue peer me = packet :: later) :
    hub.Acts n me phase out held fetched (.receive peer) := by
  have hheld := hfresh peer hfetched
  have hheard : ∀ q, q ≠ me → receivedFrom q [.received peer packet] <+: hub.mesh.queue q me := by
    intro q _
    rw [receivedFrom_received]
    split
    · next heq =>
      rw [← heq, hqueue]
      exact (List.prefix_cons_inj packet).mpr List.nil_prefix
    · exact List.nil_prefix
  have hpacket : ∀ signal ∈ [Signal.received peer packet], ∃ q packet,
      signal = .received q packet ∧ q < n ∧ q ≠ me :=
    List.forall_mem_singleton.mpr ⟨peer, packet, rfl, hpeer⟩
  by_cases hphase : packet.phase = phase
  · obtain ⟨phase', messages⟩ := packet
    obtain rfl : phase = phase' := hphase.symm
    have hfetch := (@ends_fetch_fresh phase n out held fetched _ _ peer hpeer.1 hheld hfetched).mpr
      ⟨messages, rfl, rfl⟩
    obtain ⟨message, rest, hmessages, hprogram⟩ | ⟨hmessages, error, hprogram⟩ :=
      RoundCall.ends_program_receive hpeer hfetch
    · rw [Function.update_self] at hmessages
      subst hmessages
      rw [Function.update_idem] at hprogram
      exact h.acts_of_ends hme hbuffer hown hprogram (.first peer message rest hheld hpeer) hheard
    · refine h.acts_of_ends hme hbuffer hown hprogram
        (.failed _ _ error _ _ hpacket fun q hq => ?_) hheard
      rcases eq_or_ne q peer with rfl | hne
      · exact hmessages
      · rw [Function.update_of_ne hne] at hq ⊢
        exact hfresh q hq
  · exact h.acts_of_ends hme hbuffer hown
      (RoundCall.ends_program_receive_wrongPhase hpeer hfetched hphase)
      (.failed _ _ _ held fetched hpacket hfresh) hheard

theorem Ready.acts_receive (h : hub.Ready n) (hme : me < n)
    (hbuffer : hub.buffers[me]? = some (of phase n out held fetched)) (hown : out me = [])
    (hfresh : ∀ q, fetched q = false → held q = []) (peer : PartyId) :
    hub.Acts n me phase out held fetched (.receive peer) := by
  have hsilent : ∀ q, q ≠ me → receivedFrom q [] <+: hub.mesh.queue q me :=
    fun q _ => List.nil_prefix
  by_cases hpeer : peer < n ∧ peer ≠ me
  · cases hfetched : fetched peer with
    | true =>
      have hfetch := (@ends_fetch_fetched phase n out held fetched _ _ peer hpeer.1 hfetched _).mpr
        ⟨rfl, rfl, rfl⟩
      obtain ⟨message, rest, hheld, hprogram⟩ | ⟨-, error, hprogram⟩ :=
        RoundCall.ends_program_receive hpeer hfetch
      · exact h.acts_of_ends hme hbuffer hown hprogram (.next peer message rest hheld) hsilent
      · exact h.acts_of_ends hme hbuffer hown hprogram (.failed _ [] error held fetched nofun hfresh)
          hsilent
    | false =>
      cases hqueue : hub.mesh.queue peer me with
      | nil =>
        refine ⟨[], .waiting, _, hub.mesh, .waiting peer, ?_, h.connected.exchanged_nil⟩
        obtain ⟨hlt, hget⟩ := List.getElem?_eq_some_iff.mp hbuffer
        rw [h.call_receive_waits hpeer hbuffer hfetched hqueue, ← hget, List.set_getElem_self]
      | cons packet later =>
        exact h.acts_receive_fresh hme hbuffer hown hfresh hpeer hfetched hqueue
  · exact h.acts_of_ends hme hbuffer hown (RoundCall.ends_program_receive_refused hpeer)
      (.failed _ [] _ held fetched nofun hfresh) hsilent

theorem Ready.acts (h : hub.Ready n) (hme : me < n)
    (hbuffer : hub.buffers[me]? = some (of phase n out held fetched)) (hown : out me = [])
    (hfresh : ∀ q, fetched q = false → held q = []) (call : RoundCall) :
    hub.Acts n me phase out held fetched call := by
  have hsilent : ∀ q, q ≠ me → receivedFrom q [] <+: hub.mesh.queue q me :=
    fun q _ => List.nil_prefix
  cases call with
  | send peer payload =>
    obtain ⟨-, hne, hprogram⟩ | ⟨error, hprogram⟩ := RoundCall.ends_program_send
    · exact h.acts_of_ends hme hbuffer hown hprogram (.send peer payload hne) hsilent
    · exact h.acts_of_ends hme hbuffer hown hprogram (.failed _ [] error held fetched nofun hfresh)
        hsilent
  | broadcast payload =>
    exact h.acts_of_ends hme hbuffer hown ((ends_broadcast.mpr ⟨rfl, rfl, rfl⟩).bind ⟨rfl, rfl, rfl⟩)
      (.broadcast payload) hsilent
  | flush =>
    refine h.acts_of_ends hme hbuffer hown ((ends_flush.mpr ⟨rfl, rfl, rfl⟩).bind ⟨rfl, rfl, rfl⟩)
      ?_ fun q _ => ?_
    · rw [List.append_nil]
      exact .flush
    · simp [receivedFrom]
  | receive peer => exact h.acts_receive hme hbuffer hown hfresh peer
  | endRound =>
    obtain ⟨hheld, hprogram⟩ | ⟨error, hprogram⟩ := RoundCall.ends_program_endRound
    · exact h.acts_of_ends hme hbuffer hown hprogram (.endRound hheld) hsilent
    · exact h.acts_of_ends hme hbuffer hown hprogram (.failed _ [] error _ _ nofun fun _ _ => rfl)
        hsilent

end Hub
end AuthenticatedMpc
