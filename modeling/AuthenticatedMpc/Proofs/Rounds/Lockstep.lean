import AuthenticatedMpc.Proofs.Rounds.Scripts
import AuthenticatedMpc.Proofs.Simulation.Driving
import Mathlib.Data.List.FinRange

/-!
# Batches of scripted gates

In a round the gates that still run are evaluated in order. Each broadcasts one message unless the round
is its last, and from the second round on each takes one message of every peer. So what the gates take
from a packet, in order, is what the gates of the peer had put into it.
-/

namespace AuthenticatedMpc

variable {W : Type} {count : Nat}

def running (rounds : Fin count → Nat) (round : Nat) : List (Fin count) :=
  (List.finRange count).filter (round < rounds ·)

def slotsAt (rounds : Fin count → Nat) (round : Nat) (gate : Fin count → ScriptedGate W)
    (places : List (Fin count)) : List (Slot (ScriptedGate W)) :=
  places.map fun k => ⟨gate k, decide (rounds k ≤ round)⟩

theorem slotsAt_update {rounds : Fin count → Nat} {round : Nat} {gate : Fin count → ScriptedGate W}
    {k : Fin count} {places : List (Fin count)} (hk : k ∉ places) (gate₁ : ScriptedGate W) :
    slotsAt rounds round (Function.update gate k gate₁) (k :: places) =
      ⟨gate₁, decide (rounds k ≤ round)⟩ :: slotsAt rounds round gate places := by
  rw [slotsAt, List.map_cons, Function.update_self]
  refine congrArg _ (List.map_congr_left fun q hq => ?_)
  rw [Function.update_of_ne (ne_of_mem_of_not_mem hq hk)]

namespace ScriptedGate

/-- What a gate with this number of rounds will do from a round on. -/
def Ready (me : Party) (due : List PartyId) (rounds round : Nat) (gate : ScriptedGate W) : Prop :=
  ∀ last, rounds = round + last + 1 → gate.script.Lasts me due (last != 0) last

/-- What a round makes of a gate: it has had one turn if the round was one of its own. -/
def Steps (me : Party) (due : List PartyId) (told : PartyId → Payload) (rounds round : Nat)
    (gate gate' : ScriptedGate W) (turn : GateTurn) : Prop :=
  if round < rounds then
    gate'.turns = gate.turns ++ [turn] ∧ turn.Fits round (decide (round + 1 < rounds)) due told ∧
      gate'.Ready me me.peers rounds (round + 1)
  else gate' = gate

end ScriptedGate

section Round

variable {me : Party} {phase : Phase} {round : Nat} {rounds : Fin count → Nat}
  {gate : Fin count → ScriptedGate W} {due : List PartyId} {desk : Desk W}

theorem ScriptedGate.exists_evaluate {gate : ScriptedGate W} {rounds : Nat} (hround : round < rounds)
    (hready : gate.Ready me due rounds round) (hdue : ∀ q ∈ due, q ∈ me.peers) (hnodup : due.Nodup)
    {said : List Payload} {supply rest : PartyId → List Payload} {fetched : PartyId → Bool}
    {told : PartyId → Payload} (hsupply : ∀ q ∈ due, supply q = told q :: rest q)
    (hrounds : desk.rounds = .stocked me phase said supply fetched) :
    ∃ talk gate' status turn desk',
      (Gate.evaluate me round gate).Ends desk talk (.ok (gate', status)) desk' ∧
      decide (status = .done) = decide (rounds ≤ round + 1) ∧
      gate.Steps me due told rounds round gate' turn ∧
      desk'.rounds = .stocked me phase (said ++ turn.said)
        (fun q => if q ∈ due then rest q else supply q) (fun q => decide (q ∈ due) || fetched q) ∧
      Fetches me phase supply (fun q => decide (q ∈ due) && !fetched q) talk := by
  obtain ⟨last, rfl⟩ : ∃ last, rounds = round + last + 1 := Nat.exists_eq_add_of_lt hround
  obtain ⟨talk, turn, next, status, desk', hplay, hrounds', hfits, hremains, hfetches⟩ :=
    GateScript.exists_play (hready last rfl) hdue hnodup hsupply round hrounds
  have hends : (Gate.evaluate me round gate).Ends desk (talk ++ [])
      (.ok (⟨next, gate.turns ++ [turn]⟩, status)) desk' := hplay.bind ⟨rfl, rfl, rfl⟩
  rw [List.append_nil] at hends
  have hspeaks : (last != 0) = decide (round + 1 < round + last + 1) := by
    cases last <;> simp
  refine ⟨talk, _, status, turn, desk', hends, ?_, ?_, hrounds', hfetches⟩
  · cases last with
    | zero =>
      obtain rfl : status = .done := hremains
      simp
    | succ last =>
      obtain rfl : status = .moreRounds := hremains.1
      simp
  · rw [ScriptedGate.Steps, if_pos hround, ← hspeaks]
    refine ⟨rfl, hfits, fun last' hlast' => ?_⟩
    obtain rfl : last = last' + 1 := by omega
    exact hremains.2

theorem Fetches.append {supply supply' : PartyId → List Payload} {first second : PartyId → Bool}
    {talk talk' : List Signal} (h : Fetches me phase supply first talk)
    (h' : Fetches me phase supply' second talk') (hsecond : ∀ q, second q = false) :
    Fetches me phase supply first (talk ++ talk') where
  isReceived signal hmem := (List.mem_append.mp hmem).elim (h.isReceived signal) (h'.isReceived signal)
  receivedFrom_eq q := by
    rw [receivedFrom_append, h.receivedFrom_eq, h'.receivedFrom_eq, hsecond, if_neg Bool.false_ne_true,
      List.append_nil]

theorem ScriptedGate.steps_update {places : List (Fin count)} {k : Fin count} (hk : k ∉ places)
    {gate' : Fin count → ScriptedGate W} {turn : Fin count → GateTurn}
    {told : PartyId → Fin count → Payload} {gate₁ : ScriptedGate W} {turn₁ : GateTurn}
    (hfirst : (gate k).Steps me due (told · k) (rounds k) round gate₁ turn₁)
    (hrest : ∀ q ∈ places, (gate q).Steps me due (told · q) (rounds q) round (gate' q) (turn q)) :
    ∀ q ∈ k :: places, (gate q).Steps me due (told · q) (rounds q) round
      (Function.update gate' k gate₁ q) (Function.update turn k turn₁ q) := by
  refine List.forall_mem_cons.mpr
    ⟨by rwa [Function.update_self, Function.update_self], fun q hq => ?_⟩
  have hne := ne_of_mem_of_not_mem hq hk
  rw [Function.update_of_ne hne, Function.update_of_ne hne]
  exact hrest q hq

/-- A pass over gates takes one message of every peer for each gate that still runs. -/
theorem exists_pass {places : List (Fin count)} (hplaces : places.Nodup)
    (hready : ∀ k, (gate k).Ready me due (rounds k) round) (hdue : ∀ q ∈ due, q ∈ me.peers)
    (hnodup : due.Nodup) (told : PartyId → Fin count → Payload) {said : List Payload}
    {supply : PartyId → List Payload} {fetched : PartyId → Bool}
    (hsupply : ∀ q ∈ due, supply q = (places.filter (round < rounds ·)).map (told q))
    (hrounds : desk.rounds = .stocked me phase said supply fetched) :
    ∃ (talk : List Signal) (gate' : Fin count → ScriptedGate W) (turn : Fin count → GateTurn)
      (desk' : Desk W) (supply' : PartyId → List Payload) (fetched' : PartyId → Bool),
      Pass me round (slotsAt rounds round gate places) desk talk
        (slotsAt rounds (round + 1) gate' places) desk' ∧
      (∀ k ∈ places, (gate k).Steps me due (told · k) (rounds k) round (gate' k) (turn k)) ∧
      desk'.rounds = .stocked me phase
        (said ++ (places.filter (round < rounds ·)).flatMap fun k => (turn k).said) supply' fetched' ∧
      (∀ q, if q ∈ due then supply' q = [] else fetched' q = fetched q) ∧
      Fetches me phase supply
        (fun q => decide (q ∈ due) && !fetched q && !(places.filter (round < rounds ·)).isEmpty) talk := by
  induction places generalizing desk said supply fetched with
  | nil =>
    refine ⟨[], gate, fun _ => ⟨0, [], []⟩, desk, supply, fetched, .nil desk, nofun,
      by simpa using hrounds, fun q => ?_, nofun, fun q => by simp [receivedFrom]⟩
    split
    · next hq => exact hsupply q hq
    · rfl
  | cons k places ih =>
    obtain ⟨hk, hplaces⟩ := List.nodup_cons.mp hplaces
    by_cases hround : round < rounds k
    · rw [List.filter_cons_of_pos (by simpa using hround)] at hsupply
      obtain ⟨talk, gate₁, status, turn₁, desk₁, hends, hstatus, hsteps, hrounds₁, hfetches⟩ :=
        ScriptedGate.exists_evaluate hround (hready k) hdue hnodup hsupply hrounds
      have hsupply₁ : ∀ q ∈ due, (if q ∈ due then (places.filter (round < rounds ·)).map (told q)
          else supply q) = (places.filter (round < rounds ·)).map (told q) := fun q hq => if_pos hq
      obtain ⟨talk', gate', turn, desk', supply', fetched', hpass, hall, hrounds', hleft, hfetches'⟩ :=
        ih hplaces hsupply₁ hrounds₁
      refine ⟨talk ++ talk', Function.update gate' k gate₁, Function.update turn k turn₁, desk',
        supply', fetched', ?_, ?_, ?_, ?_, ?_⟩
      · have hslot : decide (rounds k ≤ round) = false := decide_eq_false (Nat.not_le_of_lt hround)
        rw [slotsAt_update hk, slotsAt, List.map_cons, hslot, ← hstatus]
        exact .evaluate hends hpass
      · exact ScriptedGate.steps_update hk hsteps hall
      · rw [hrounds', List.append_assoc, List.filter_cons_of_pos (by simpa using hround),
          List.flatMap_cons, Function.update_self]
        congr 3
        refine List.flatMap_congr fun q hq => ?_
        rw [Function.update_of_ne (ne_of_mem_of_not_mem (List.mem_of_mem_filter hq) hk)]
      · intro q
        have hq := hleft q
        split
        · next hmem => rwa [if_pos hmem] at hq
        · next hmem => rwa [if_neg hmem, decide_eq_false hmem, Bool.false_or] at hq
      · have hnone : ∀ q, (decide (q ∈ due) && !(decide (q ∈ due) || fetched q) &&
            !(places.filter (round < rounds ·)).isEmpty) = false := fun q => by
          cases decide (q ∈ due) <;> simp
        have hsome : (!((k :: places).filter (round < rounds ·)).isEmpty) = true := by
          rw [List.filter_cons_of_pos (by simpa using hround)]
          rfl
        simp only [hsome, Bool.and_true]
        exact hfetches.append hfetches' hnone
    · rw [List.filter_cons_of_neg (by simpa using hround)] at hsupply ⊢
      obtain ⟨talk, gate', turn, desk', supply', fetched', hpass, hall, hrounds', hleft, hfetches⟩ :=
        ih hplaces hsupply hrounds
      have hsteps : (gate k).Steps me due (told · k) (rounds k) round (gate k) (turn k) := by
        rw [ScriptedGate.Steps, if_neg hround]
      have hall' := ScriptedGate.steps_update hk hsteps hall
      rw [Function.update_eq_self] at hall'
      refine ⟨talk, Function.update gate' k (gate k), turn, desk', supply', fetched', ?_, hall',
        hrounds', hleft, hfetches⟩
      have hle := Nat.le_of_not_lt hround
      rw [slotsAt_update hk, slotsAt, List.map_cons, decide_eq_true hle,
        decide_eq_true (Nat.le_succ_of_le hle)]
      exact .skip hpass

end Round

/-! ## A round of a batch -/

def parcel (phase : Phase) (messages : List Payload) : List Packet :=
  if messages = [] then [] else [⟨phase, messages⟩]

section Shipped

variable {me : Party} {phase : Phase} {messages : List Payload} {q : PartyId}

theorem receivedFrom_shipped :
    receivedFrom q ((parcel phase messages).flatMap fun packet => me.peers.map (.sent · packet)) = [] := by
  unfold parcel
  split <;> simp [receivedFrom]

theorem sentTo_shipped (hq : q ∈ me.peers) :
    sentTo q ((parcel phase messages).flatMap fun packet => me.peers.map (.sent · packet)) =
      parcel phase messages := by
  unfold parcel
  split
  · rfl
  · simp [sentTo_map_sent Party.nodup_peers fun _ => ⟨phase, messages⟩, hq]

theorem Fetches.sentTo_eq {supply : PartyId → List Payload} {due : PartyId → Bool}
    {talk : List Signal} (h : Fetches me phase supply due talk) : sentTo q talk = [] := by
  refine List.filterMap_eq_nil_iff.mpr fun signal hmem => ?_
  obtain ⟨_, _, _, rfl⟩ := h.isReceived signal hmem
  rfl

end Shipped

namespace RoundBuffer

variable {me : Party} {phase : Phase} {said : List Payload} {supply : PartyId → List Payload}
  {fetched : PartyId → Bool}

theorem start_eq_stocked (supply : PartyId → List Payload) :
    start phase me.parties = stocked me phase [] supply fun _ => false := by
  simp [start_eq_of, stocked]

theorem ends_ship_stocked (hheld : ∀ q, (if fetched q then supply q else []) = []) :
    ship.Ends (stocked me phase said supply fetched)
      ((parcel phase said).flatMap fun packet => me.peers.map (.sent · packet)) (.ok ())
      (start phase me.parties) := by
  rw [stocked]
  by_cases hsaid : said = []
  · subst hsaid
    simp only [ite_self]
    exact ends_ship_silent.mpr ⟨rfl, fun q _ => hheld q, rfl⟩
  · refine (ends_ship_posted hsaid).mpr ⟨?_, fun q _ => hheld q, rfl⟩
    simp [parcel, hsaid]

end RoundBuffer

section Batch

variable {me : Party} {phase : Phase} {round : Nat} {rounds : Fin count → Nat}
  {gate : Fin count → ScriptedGate W} {due : List PartyId} {desk : Desk W}

/-- In a round a party hears the messages of its peers and says those of its gates that go on. -/
theorem exists_runRound (hready : ∀ k, (gate k).Ready me due (rounds k) round)
    (hdue : ∀ q ∈ due, q ∈ me.peers) (hnodup : due.Nodup) (told : PartyId → Fin count → Payload)
    (hrounds : desk.rounds = .start phase me.parties) :
    ∃ (talk : List Signal) (gate' : Fin count → ScriptedGate W) (turn : Fin count → GateTurn)
      (desk' : Desk W),
      (Bench.runRound me round).Ends ⟨slotsAt rounds round gate (List.finRange count), desk⟩ talk
        (.ok ()) ⟨slotsAt rounds (round + 1) gate' (List.finRange count), desk'⟩ ∧
      (∀ k, (gate k).Steps me due (told · k) (rounds k) round (gate' k) (turn k)) ∧
      desk'.rounds = .start phase me.parties ∧
      (∀ signal ∈ talk, signal.IsExchange me.parties me.id) ∧
      (∀ q ∈ me.peers, receivedFrom q talk =
        if q ∈ due then parcel phase ((running rounds round).map (told q)) else []) ∧
      ∀ q ∈ me.peers, sentTo q talk =
        parcel phase ((running rounds round).flatMap fun k => (turn k).said) := by
  rw [RoundBuffer.start_eq_stocked fun q => (running rounds round).map (told q)] at hrounds
  obtain ⟨talk, gate', turn, desk', supply', fetched', hpass, hsteps, hrounds', hleft, hfetches⟩ :=
    exists_pass (List.nodup_finRange count) hready hdue hnodup told (fun _ _ => rfl) hrounds
  change Fetches me phase (fun q => (running rounds round).map (told q))
    (fun q => decide (q ∈ due) && !false && !(running rounds round).isEmpty) talk at hfetches
  have hheld : ∀ q, (if fetched' q then supply' q else []) = [] := by
    intro q
    have hq := hleft q
    split at hq
    · rw [hq, ite_self]
    · rw [hq, if_neg Bool.false_ne_true]
  have hround := hpass.ends_runRound (hrounds' ▸ RoundBuffer.ends_ship_stocked hheld)
  refine ⟨_, gate', turn, _, hround, fun k => hsteps k (List.mem_finRange k), rfl, ?_, ?_, ?_⟩
  · intro signal hmem
    obtain hheard | hsaid := List.mem_append.mp hmem
    · obtain ⟨q, hq, packet, rfl⟩ := hfetches.isReceived signal hheard
      exact Party.mem_peers.mp hq
    · obtain ⟨packet, -, hsent⟩ := List.mem_flatMap.mp hsaid
      obtain ⟨q, hq, rfl⟩ := List.mem_map.mp hsent
      exact Party.mem_peers.mp hq
  · intro q hq
    rw [receivedFrom_append, hfetches.receivedFrom_eq, receivedFrom_shipped, List.append_nil]
    by_cases hmem : q ∈ due
    · cases hrunning : running rounds round <;> simp [parcel, hmem]
    · rw [if_neg hmem, decide_eq_false hmem]
      rfl
  · intro q hq
    rw [sentTo_append, hfetches.sentTo_eq, sentTo_shipped hq, List.nil_append, List.nil_append]
    rfl

end Batch
end AuthenticatedMpc
