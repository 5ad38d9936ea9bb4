import AuthenticatedMpc.Party.Rounds
import AuthenticatedMpc.Proofs.Runs.Dialogue
import Mathlib.Data.List.Range
import Mathlib.Logic.Function.Basic

/-!
# The messages of a round, party by party

A buffer is given by what it holds for each party. In these terms every operation changes one
function at one party, and the runs of the operations can be read off.
-/

namespace AuthenticatedMpc

theorem map_range_modify {α : Type} (n i : Nat) (f : Nat → α) (g : α → α) :
    ((List.range n).map f).modify i g = (List.range n).map (Function.update f i (g (f i))) := by
  apply List.ext_getElem? fun j => ?_
  rcases eq_or_ne i j with rfl | hne
  · by_cases hlt : i < n <;> simp [hlt]
  · by_cases hlt : j < n <;> simp [hlt, hne, hne.symm]

theorem map_range_set {α : Type} (n i : Nat) (f : Nat → α) (a : α) :
    ((List.range n).map f).set i a = (List.range n).map (Function.update f i a) := by
  apply List.ext_getElem? fun j => ?_
  rcases eq_or_ne i j with rfl | hne
  · by_cases hlt : i < n <;> simp [hlt]
  · by_cases hlt : j < n <;> simp [hlt, hne, hne.symm]

namespace RoundBuffer

def of (phase : Phase) (parties : Nat) (out held : PartyId → List Payload)
    (fetched : PartyId → Bool) : RoundBuffer where
  phase := phase
  outbox := (List.range parties).map out
  inbox := (List.range parties).map held
  fetched := (List.range parties).map fetched

variable {phase : Phase} {n : Nat} {out out' held held' : PartyId → List Payload}
  {fetched fetched' : PartyId → Bool}

theorem of_congr (hout : ∀ q < n, out q = out' q) (hheld : ∀ q < n, held q = held' q)
    (hfetched : ∀ q < n, fetched q = fetched' q) :
    of phase n out held fetched = of phase n out' held' fetched' := by
  unfold of
  congr 1 <;> exact List.map_congr_left fun q hq => by simp_all

theorem start_eq_of : start phase n = of phase n (fun _ => []) (fun _ => []) fun _ => false := by
  simp [start, of, List.map_const']

@[simp] theorem phase_of : (of phase n out held fetched).phase = phase := rfl

@[simp] theorem parties_of : (of phase n out held fetched).parties = n := by simp [of, parties]

theorem queued_of {q : PartyId} (hq : q < n) : (of phase n out held fetched).queued q = out q := by
  simp [of, queued, hq]

theorem pending_of {q : PartyId} (hq : q < n) :
    (of phase n out held fetched).pending q = held q := by
  simp [of, pending, hq]

theorem hasFetched_of {q : PartyId} (hq : q < n) :
    (of phase n out held fetched).hasFetched q = fetched q := by
  simp [of, hasFetched, hq]

theorem isPeer_of {me q : PartyId} :
    (of phase n out held fetched).isPeer me q = true ↔ q < n ∧ q ≠ me := by
  simp [isPeer]

theorem postAll_of (me : PartyId) (payload : Payload) :
    (of phase n out held fetched).postAll me payload =
      of phase n (fun q => if q = me then out q else out q ++ [payload]) held fetched := by
  unfold postAll of
  congr 1
  apply List.ext_getElem? fun j => ?_
  by_cases hlt : j < n <;> simp [hlt]

theorem clearQueue_of (q : PartyId) :
    (of phase n out held fetched).clearQueue q =
      of phase n (Function.update out q []) held fetched := by
  simp only [clearQueue, of, map_range_set]

theorem accept_of (q : PartyId) (messages : List Payload) :
    (of phase n out held fetched).accept q messages =
      of phase n out (Function.update held q (held q ++ messages))
        (Function.update fetched q true) := by
  simp only [accept, of, map_range_set, map_range_modify]

theorem consume_of (q : PartyId) :
    (of phase n out held fetched).consume q =
      of phase n out (Function.update held q (held q).tail) fetched := by
  simp only [consume, of, map_range_modify]

theorem clearInbox_of :
    (of phase n out held fetched).clearInbox =
      of phase n out (fun _ => []) fun _ => false := by
  simp only [clearInbox, of, List.map_map, Function.comp_def]

theorem surplus?_of : (of phase n out held fetched).surplus? = none ↔ ∀ q < n, held q = [] := by
  simp only [surplus?, of, Option.map_eq_none_iff, List.find?_eq_none, Prod.forall,
    List.mem_zipIdx_iff_getElem?, List.getElem?_map, Option.map_eq_some_iff,
    List.getElem?_eq_some_iff]
  constructor
  · intro h q hq
    simpa using h (held q) q ⟨q, by simp [hq], rfl⟩
  · rintro h messages i ⟨q, ⟨hi, hq⟩, hmessages⟩
    rw [List.getElem_range] at hq
    rw [← hmessages, ← hq, h i (by simpa using hi)]
    simp

/-! ## Runs of the operations -/

variable {b : RoundBuffer} {talk : List Signal}

theorem ends_broadcast {me : PartyId} {payload : Payload} {o : Except Error Unit} :
    (broadcast me payload).Ends (of phase n out held fetched) talk o b ↔
      talk = [] ∧ o = .ok () ∧
        b = of phase n (fun q => if q = me then out q else out q ++ [payload]) held fetched := by
  rw [broadcast, Program.ends_modify, postAll_of]

/-- Every party with a queue gets one packet, and nothing stays queued. -/
theorem ends_flushTo {peers : List PartyId} (hpeers : ∀ q ∈ peers, q < n) (hnodup : peers.Nodup)
    {o : Except Error Unit} :
    (flushTo peers).Ends (of phase n out held fetched) talk o b ↔
      talk = (peers.filter fun q => out q ≠ []).map (fun q => .sent q ⟨phase, out q⟩) ∧
        o = .ok () ∧ b = of phase n (fun q => if q ∈ peers then [] else out q) held fetched := by
  induction peers generalizing out talk with
  | nil => simp [flushTo]
  | cons q rest ih =>
    obtain ⟨hq, hrest⟩ := List.forall_mem_cons.mp hpeers
    obtain ⟨hnotin, hnodup⟩ := List.nodup_cons.mp hnodup
    rw [flushTo, Program.ends_get_bind, queued_of hq]
    cases hout : out q with
    | nil =>
      simp only
      rw [ih hrest hnodup, List.filter_cons_of_neg (by simp [hout])]
      have hfun : (fun x => if x ∈ q :: rest then [] else out x) =
          fun x => if x ∈ rest then [] else out x := by
        funext x
        by_cases hx : x = q <;> simp_all
      rw [hfun]
    | cons message messages =>
      simp only [Program.ends_modify_bind, Program.ends_transmit_bind, clearQueue_of, phase_of]
      rw [List.filter_cons_of_pos (by simp [hout]), List.map_cons, hout]
      have hne : ∀ x ∈ rest, x ≠ q := fun x hx h => hnotin (h ▸ hx)
      have hfilter : (rest.filter fun x => Function.update out q [] x ≠ []) =
          rest.filter fun x => out x ≠ [] :=
        List.filter_congr fun x hx => by rw [Function.update_of_ne (hne x hx)]
      have hmap : ∀ l : List PartyId, (∀ x ∈ l, x ∈ rest) →
          l.map (fun x => Signal.sent x ⟨phase, Function.update out q [] x⟩) =
            l.map fun x => Signal.sent x ⟨phase, out x⟩ := fun l hl =>
        List.map_congr_left fun x hx => by rw [Function.update_of_ne (hne x (hl x hx))]
      have hfun : (fun x => if x ∈ q :: rest then [] else out x) =
          fun x => if x ∈ rest then [] else Function.update out q [] x := by
        funext x
        by_cases hx : x = q <;> simp_all
      simp only [ih hrest hnodup, hfilter, hfun]
      rw [hmap _ fun x hx => (List.mem_filter.mp hx).1]
      constructor
      · rintro ⟨_, rfl, rfl, rfl, rfl⟩
        exact ⟨rfl, rfl, rfl⟩
      · rintro ⟨rfl, rfl, rfl⟩
        exact ⟨_, rfl, rfl, rfl, rfl⟩

theorem ends_flush {o : Except Error Unit} :
    flush.Ends (of phase n out held fetched) talk o b ↔
      talk = ((List.range n).filter fun q => out q ≠ []).map (fun q => .sent q ⟨phase, out q⟩) ∧
        o = .ok () ∧ b = of phase n (fun _ => []) held fetched := by
  rw [flush, Program.ends_get_bind, parties_of,
    ends_flushTo (fun _ => List.mem_range.mp) List.nodup_range]
  have hof : of phase n (fun q => if q ∈ List.range n then [] else out q) held fetched =
      of phase n (fun _ => []) held fetched :=
    of_congr (fun q hq => if_pos (List.mem_range.mpr hq)) (fun _ _ => rfl) fun _ _ => rfl
  rw [hof]

theorem ends_endRound :
    endRound.Ends (of phase n out held fetched) talk (.ok ()) b ↔
      talk = [] ∧ (∀ q < n, held q = []) ∧ b = of phase n out (fun _ => []) fun _ => false := by
  rw [endRound, Program.ends_get_bind, Program.ends_modify_bind, clearInbox_of, ← surplus?_of]
  cases hsurplus : (of phase n out held fetched).surplus? <;> simp

theorem ends_endRound_surplus (h : ¬∀ q < n, held q = []) :
    ∃ peer count, endRound.Ends (of phase n out held fetched) []
      (.error (.desynchronized (.tooManyMessages peer count phase)))
      (of phase n out (fun _ => []) fun _ => false) := by
  obtain ⟨⟨peer, count⟩, hsurplus⟩ := Option.ne_none_iff_exists'.mp (mt surplus?_of.mp h)
  refine ⟨peer, count, ?_⟩
  rw [endRound, Program.ends_get_bind, Program.ends_modify_bind, clearInbox_of, hsurplus]
  exact ⟨rfl, rfl, rfl⟩

/-- The packet of a peer is fetched once in a round. -/
theorem ends_fetch_fresh {q : PartyId} (hq : q < n) (hheld : held q = [])
    (hfetched : fetched q = false) :
    (fetch q).Ends (of phase n out held fetched) talk (.ok ()) b ↔
      ∃ messages, talk = [.received q ⟨phase, messages⟩] ∧
        b = of phase n out (Function.update held q messages) (Function.update fetched q true) := by
  have haccept : ∀ messages, (of phase n out held fetched).accept q messages =
      of phase n out (Function.update held q messages) (Function.update fetched q true) := by
    intro messages
    rw [accept_of, hheld, List.nil_append]
  rw [fetch, Program.ends_get_bind, hasFetched_of hq, if_neg (by simp [hfetched]),
    Program.ends_await_bind]
  constructor
  · rintro ⟨⟨phase', messages⟩, rest, rfl, h⟩
    split at h
    · next hphase =>
      obtain ⟨rfl, -, rfl⟩ := h
      obtain rfl : phase' = phase := hphase
      exact ⟨messages, rfl, haccept messages⟩
    · exact absurd h.2.1 nofun
  · rintro ⟨messages, rfl, rfl⟩
    refine ⟨_, [], rfl, ?_⟩
    rw [if_pos phase_of.symm]
    exact ⟨rfl, rfl, (haccept messages).symm⟩

theorem ends_fetch_fetched {q : PartyId} (hq : q < n) (hfetched : fetched q = true)
    {o : Except Error Unit} :
    (fetch q).Ends (of phase n out held fetched) talk o b ↔
      talk = [] ∧ o = .ok () ∧ b = of phase n out held fetched := by
  rw [fetch, Program.ends_get_bind, hasFetched_of hq, if_pos hfetched, Program.ends_pure]

/-- A packet of another phase is an error, and nothing of it is kept. -/
theorem ends_fetch_wrongPhase {q : PartyId} {packet : Packet} (hq : q < n)
    (hfetched : fetched q = false) (hphase : packet.phase ≠ phase) :
    (fetch q).Ends (of phase n out held fetched) [.received q packet]
      (.error (.desynchronized (.wrongPhase q packet.phase phase)))
      (of phase n out held fetched) := by
  rw [fetch, Program.ends_get_bind, hasFetched_of hq, if_neg (by simp [hfetched]),
    Program.ends_await_bind]
  refine ⟨packet, [], rfl, ?_⟩
  rw [phase_of, if_neg hphase]
  exact ⟨rfl, rfl, rfl⟩

theorem ends_receive_wrongPhase {me q : PartyId} {packet : Packet} (hq : q < n) (hme : q ≠ me)
    (hfetched : fetched q = false) (hphase : packet.phase ≠ phase) :
    (receive me q).Ends (of phase n out held fetched) [.received q packet]
      (.error (.desynchronized (.wrongPhase q packet.phase phase)))
      (of phase n out held fetched) := by
  rw [receive, Program.ends_get_bind, if_pos (isPeer_of.mpr ⟨hq, hme⟩)]
  exact (ends_fetch_wrongPhase hq hfetched hphase).bind_error

/-- A receive fetches the packet of the round and takes the first message that is left. -/
theorem ends_receive {me q : PartyId} (hq : q < n) (hme : q ≠ me) {message : Payload} :
    (receive me q).Ends (of phase n out held fetched) talk (.ok message) b ↔
      ∃ middle, (fetch q).Ends (of phase n out held fetched) talk (.ok ()) middle ∧
        ∃ rest, middle.pending q = message :: rest ∧ b = middle.consume q := by
  rw [receive, Program.ends_get_bind, if_pos (isPeer_of.mpr ⟨hq, hme⟩), Program.ends_bind_ok]
  constructor
  · rintro ⟨⟨⟩, middle, front, back, rfl, hfetch, h⟩
    rw [Program.ends_get_bind] at h
    split at h
    · next first rest hpending =>
      obtain ⟨rfl, hmessage, rfl⟩ := h
      cases hmessage
      exact ⟨middle, by rwa [List.append_nil], rest, hpending, rfl⟩
    · exact absurd h.2.1 nofun
  · rintro ⟨middle, hfetch, rest, hpending, rfl⟩
    refine ⟨(), middle, talk, [], (List.append_nil _).symm, hfetch, ?_⟩
    rw [Program.ends_get_bind, hpending]
    exact ⟨rfl, rfl, rfl⟩

theorem ends_receive_empty {me q : PartyId} (hq : q < n) (hme : q ≠ me) (hheld : held' q = [])
    (hfetch : (fetch q).Ends (of phase n out held fetched) talk (.ok ())
      (of phase n out held' fetched')) :
    (receive me q).Ends (of phase n out held fetched) talk
      (.error (.desynchronized (.tooFewMessages q phase))) (of phase n out held' fetched') := by
  rw [receive, Program.ends_get_bind, if_pos (isPeer_of.mpr ⟨hq, hme⟩), ← List.append_nil talk]
  refine hfetch.bind ?_
  rw [Program.ends_get_bind, pending_of hq, hheld]
  exact ⟨rfl, rfl, rfl⟩

theorem ends_receive_fresh {me q : PartyId} (hq : q < n) (hme : q ≠ me) (hheld : held q = [])
    (hfetched : fetched q = false) {message : Payload} :
    (receive me q).Ends (of phase n out held fetched) talk (.ok message) b ↔
      ∃ rest, talk = [.received q ⟨phase, message :: rest⟩] ∧
        b = of phase n out (Function.update held q rest) (Function.update fetched q true) := by
  rw [ends_receive hq hme]
  simp only [ends_fetch_fresh hq hheld hfetched]
  constructor
  · rintro ⟨_, ⟨messages, rfl, rfl⟩, rest, hpending, rfl⟩
    rw [pending_of hq, Function.update_self] at hpending
    subst hpending
    exact ⟨rest, rfl, by simp [consume_of]⟩
  · rintro ⟨rest, rfl, rfl⟩
    exact ⟨_, ⟨message :: rest, rfl, rfl⟩, rest, by simp [pending_of hq], by simp [consume_of]⟩

theorem ends_receive_fetched {me q : PartyId} (hq : q < n) (hme : q ≠ me)
    (hfetched : fetched q = true) {message : Payload} :
    (receive me q).Ends (of phase n out held fetched) talk (.ok message) b ↔
      talk = [] ∧ ∃ rest, held q = message :: rest ∧
        b = of phase n out (Function.update held q rest) fetched := by
  rw [ends_receive hq hme]
  simp only [ends_fetch_fetched hq hfetched]
  constructor
  · rintro ⟨_, ⟨rfl, -, rfl⟩, rest, hpending, rfl⟩
    rw [pending_of hq] at hpending
    exact ⟨rfl, rest, hpending, by rw [consume_of, hpending, List.tail_cons]⟩
  · rintro ⟨rfl, rest, hpending, rfl⟩
    exact ⟨_, ⟨rfl, trivial, rfl⟩, rest, by rwa [pending_of hq],
      by rw [consume_of, hpending, List.tail_cons]⟩

end RoundBuffer
end AuthenticatedMpc
