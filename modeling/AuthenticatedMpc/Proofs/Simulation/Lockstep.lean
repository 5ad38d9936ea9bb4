import AuthenticatedMpc.Proofs.Rounds.Lockstep
import AuthenticatedMpc.Proofs.Rounds.Together
import AuthenticatedMpc.Proofs.Simulation.Synchrony
import Mathlib.Data.Finset.Lattice.Fold

/-!
# Batches in lockstep

Messages carry no mark of the gate they belong to. But all parties evaluate the same batch, and a gate
says one message in each round but its last and takes one of every peer in each round but its first. So
a gate hears exactly what the same gate said at its peers, in whatever order the parties move.
-/

namespace AuthenticatedMpc

/-- The turns of one gate of a batch at all parties: it has had one turn in each round from the first
on, has said one message in each but the last, and has heard in each, from each peer, what the gate said
there in the round before. -/
structure InLockstep {parties : Nat} (rounds : Nat) (turns : Fin parties → List GateTurn) : Prop where
  round_eq : ∀ (i : Fin parties) (t : Nat) (turn : GateTurn), (turns i)[t]? = some turn →
    turn.round = t
  length_said : ∀ (i : Fin parties) (t : Nat) (turn : GateTurn), (turns i)[t]? = some turn →
    turn.said.length = (decide (t + 1 < rounds)).toNat
  heardFrom_first : ∀ (i : Fin parties) (turn : GateTurn), (turns i)[0]? = some turn →
    ∀ q, turn.heardFrom q = []
  heardFrom_next : ∀ (i j : Fin parties) (t : Nat) (turn told : GateTurn), j ≠ i →
    (turns i)[t + 1]? = some turn → (turns j)[t]? = some told → turn.heardFrom j = told.said

theorem getElem?_concat_eq_some {α : Type} {l : List α} {a b : α} {t : Nat} :
    (l ++ [a])[t]? = some b ↔ l[t]? = some b ∨ t = l.length ∧ a = b := by
  rw [List.getElem?_append]
  split
  · next hlt => simp [Nat.ne_of_lt hlt]
  · next hle =>
    rw [List.getElem?_eq_none (Nat.le_of_not_lt hle), List.getElem?_singleton]
    have hlast : t - l.length = 0 ↔ t = l.length := by omega
    simp [hlast]

theorem InLockstep.concat {parties rounds round : Nat} {turns : Fin parties → List GateTurn}
    {turn : Fin parties → GateTurn} (h : InLockstep rounds turns)
    (hlength : ∀ i, (turns i).length = round) (hround : ∀ i, (turn i).round = round)
    (hsaid : ∀ i, (turn i).said.length = (decide (round + 1 < rounds)).toNat)
    (hfirst : round = 0 → ∀ i q, (turn i).heardFrom q = [])
    (hnext : ∀ (i j : Fin parties) (told : GateTurn), j ≠ i → (turns j)[round - 1]? = some told →
      (turn i).heardFrom j = told.said) :
    InLockstep rounds fun i => turns i ++ [turn i] where
  round_eq i t now hnow := by
    obtain hnow | ⟨rfl, rfl⟩ := getElem?_concat_eq_some.mp hnow
    · exact h.round_eq i t now hnow
    · exact (hround i).trans (hlength i).symm
  length_said i t now hnow := by
    obtain hnow | ⟨rfl, rfl⟩ := getElem?_concat_eq_some.mp hnow
    · exact h.length_said i t now hnow
    · rw [hlength, hsaid]
  heardFrom_first i now hnow := by
    obtain hnow | ⟨hzero, rfl⟩ := getElem?_concat_eq_some.mp hnow
    · exact h.heardFrom_first i now hnow
    · exact hfirst (hlength i ▸ hzero.symm) i
  heardFrom_next i j t now told hne hnow htold := by
    have hbefore : t + 1 ≤ (turns i).length → (turns j)[t]? = some told := fun hle => by
      obtain htold | ⟨rfl, -⟩ := getElem?_concat_eq_some.mp htold
      · exact htold
      · exact absurd hle (by rw [hlength, hlength]; omega)
    obtain hnow | ⟨hlast, rfl⟩ := getElem?_concat_eq_some.mp hnow
    · exact h.heardFrom_next i j t now told hne hnow
        (hbefore (Nat.le_of_lt (List.getElem?_eq_some_iff.mp hnow).1))
    · refine hnext i j told hne ?_
      rw [← hlength i, ← hlast]
      exact hbefore (Nat.le_of_eq hlast)

variable {W : Type} {count : Nat} {table : Table} {phase : Phase} {rounds : Fin count → Nat}
  {round limit : Nat} {gate gate' : Fin table.parties → Fin count → ScriptedGate W}
  {desk desk' : Fin table.parties → Desk W}

def ScriptedGate.lastSaid (gate : ScriptedGate W) : List Payload :=
  (gate.turns.getLast?.map GateTurn.said).getD []

def lastSaidAt {parties : Nat} (gate : Fin parties → Fin count → ScriptedGate W) (q : PartyId)
    (k : Fin count) : List Payload :=
  if h : q < parties then (gate ⟨q, h⟩ k).lastSaid else []

@[simp]
theorem lastSaidAt_val {parties : Nat} (gate : Fin parties → Fin count → ScriptedGate W)
    (i : Fin parties) (k : Fin count) : lastSaidAt gate i k = (gate i k).lastSaid :=
  dif_pos i.isLt

/-- The message of a gate that has said one in its last turn at some party. -/
def toldAt {parties : Nat} (gate : Fin parties → Fin count → ScriptedGate W) (q : PartyId)
    (k : Fin count) : Payload :=
  ((lastSaidAt gate q k).head?).getD []

def dueIn (table : Table) (round : Nat) (i : Fin table.parties) : List PartyId :=
  if round = 0 then [] else (table.party i).peers

theorem mem_peers_of_mem_dueIn {i : Fin table.parties} {q : PartyId} (h : q ∈ dueIn table round i) :
    q ∈ (table.party i).peers := by
  unfold dueIn at h
  split at h
  · cases h
  · exact h

theorem nodup_dueIn {i : Fin table.parties} : (dueIn table round i).Nodup := by
  unfold dueIn
  split
  · exact List.nodup_nil
  · exact Party.nodup_peers

/-- The gates of all parties between two rounds. -/
structure AtRound (table : Table) (phase : Phase) (rounds : Fin count → Nat) (round : Nat)
    (gate : Fin table.parties → Fin count → ScriptedGate W) (desk : Fin table.parties → Desk W) :
    Prop where
  rounds_eq : ∀ i, (desk i).rounds = .start phase table.parties
  ready : ∀ i k, (gate i k).Ready (table.party i) (dueIn table round i) (rounds k) round
  length : ∀ i k, (gate i k).turns.length = min round (rounds k)
  lockstep : ∀ k, InLockstep (rounds k) fun i => (gate i k).turns

/-- Between two rounds, each party has told every peer what those of its gates have said that go on. -/
def transitAt {parties : Nat} (phase : Phase) (rounds : Fin count → Nat) (round : Nat)
    (gate : Fin parties → Fin count → ScriptedGate W) (sender _peer : PartyId) : List Packet :=
  parcel phase ((running rounds round).flatMap (lastSaidAt gate sender))

def actorAt (table : Table) (rounds : Fin count → Nat) (limit round : Nat)
    (gate : Fin table.parties → Fin count → ScriptedGate W) (desk : Fin table.parties → Desk W)
    (i : Fin table.parties) : Actor (Bench (ScriptedGate W) W) Nat :=
  ⟨Bench.runRounds (table.party i) limit round,
    ⟨slotsAt rounds round (gate i) (List.finRange count), desk i⟩⟩

theorem mem_running {k : Fin count} : k ∈ running rounds round ↔ round < rounds k := by
  simp [running]

theorem flatMap_running_succ {said : Fin count → List Payload}
    (hsaid : ∀ k, rounds k = round + 1 → said k = []) :
    (running rounds round).flatMap said = (running rounds (round + 1)).flatMap said := by
  unfold running
  induction List.finRange count with
  | nil => rfl
  | cons k places ih =>
    rcases Nat.lt_trichotomy (rounds k) (round + 1) with hlt | heq | hgt
    · rwa [List.filter_cons_of_neg (by simpa using Nat.le_of_lt_succ hlt),
        List.filter_cons_of_neg (by simpa using Nat.le_of_lt hlt)]
    · rw [List.filter_cons_of_pos (by simp [heq]), List.filter_cons_of_neg (by simp [heq]),
        List.flatMap_cons, hsaid k heq, ih, List.nil_append]
    · rw [List.filter_cons_of_pos (by simpa using Nat.lt_of_succ_lt hgt),
        List.filter_cons_of_pos (by simpa using hgt), List.flatMap_cons, List.flatMap_cons, ih]

theorem isDone_slotsAt {gate : Fin count → ScriptedGate W} {desk : Desk W} :
    (⟨slotsAt rounds round gate (List.finRange count), desk⟩ : Bench (ScriptedGate W) W).isDone =
      decide (∀ k, rounds k ≤ round) := by
  rw [Bench.isDone, slotsAt, List.all_map, Bool.eq_iff_iff]
  simp

namespace AtRound

theorem lastSaidAt_zero (h : AtRound table phase rounds 0 gate desk) (q : PartyId) (k : Fin count) :
    lastSaidAt gate q k = [] := by
  unfold lastSaidAt
  split
  · next hq =>
    have hturns := List.eq_nil_of_length_eq_zero ((h.length ⟨q, hq⟩ k).trans (Nat.zero_min _))
    simp [ScriptedGate.lastSaid, hturns]
  · rfl

theorem lastSaidAt_eq (h : AtRound table phase rounds round gate desk) (hround : round ≠ 0)
    {k : Fin count} (hk : round < rounds k) (i : Fin table.parties) :
    ∃ turn, (gate i k).turns[round - 1]? = some turn ∧ turn.said = [toldAt gate i k] ∧
      lastSaidAt gate i k = [toldAt gate i k] := by
  have hlength : (gate i k).turns.length = round := by rw [h.length, Nat.min_eq_left (Nat.le_of_lt hk)]
  have hlt : round - 1 < (gate i k).turns.length := by omega
  have hturn := List.getElem?_eq_getElem hlt
  have hsaid := (h.lockstep k).length_said i _ _ hturn
  rw [decide_eq_true (by omega)] at hsaid
  obtain ⟨payload, hpayload⟩ := List.length_eq_one_iff.mp hsaid
  have hlast : lastSaidAt gate i k = [payload] := by
    rw [lastSaidAt_val, ScriptedGate.lastSaid, List.getLast?_eq_getElem?, hlength, hturn, ← hpayload]
    rfl
  have htold : toldAt gate i k = payload := by rw [toldAt, hlast]; rfl
  exact ⟨_, hturn, htold ▸ hpayload, htold ▸ hlast⟩

/-- All parties have gone through one more round. -/
theorem step (h : AtRound table phase rounds round gate desk)
    {turn : Fin table.parties → Fin count → GateTurn}
    (hsteps : ∀ i k, (gate i k).Steps (table.party i) (dueIn table round i) (toldAt gate · k) (rounds k)
      round (gate' i k) (turn i k))
    (hrounds : ∀ i, (desk' i).rounds = .start phase table.parties) :
    AtRound table phase rounds (round + 1) gate' desk' where
  rounds_eq := hrounds
  ready i k last hlast := by
    have hstep := hsteps i k
    rw [ScriptedGate.Steps, if_pos (by omega)] at hstep
    exact hstep.2.2 last hlast
  length i k := by
    have hstep := hsteps i k
    unfold ScriptedGate.Steps at hstep
    split at hstep
    · rw [hstep.1, List.length_append, h.length, List.length_singleton]
      omega
    · rw [hstep, h.length]
      omega
  lockstep k := by
    by_cases hk : round < rounds k
    · have hfits : ∀ i, (gate' i k).turns = (gate i k).turns ++ [turn i k] ∧
          (turn i k).Fits round (decide (round + 1 < rounds k)) (dueIn table round i) (toldAt gate · k) :=
        fun i => by
          have hstep := hsteps i k
          rw [ScriptedGate.Steps, if_pos hk] at hstep
          exact ⟨hstep.1, hstep.2.1⟩
      simp only [fun i => (hfits i).1]
      refine (h.lockstep k).concat (fun i => (h.length i k).trans (Nat.min_eq_left (Nat.le_of_lt hk)))
        (fun i => (hfits i).2.round_eq) (fun i => (hfits i).2.length_said) (fun hzero i q => ?_)
        fun i j before hne hbefore => ?_
      · rw [(hfits i).2.heardFrom_eq, dueIn, if_pos hzero]
        rfl
      · have hround : round ≠ 0 := by
          rintro rfl
          have hlt := (List.getElem?_eq_some_iff.mp hbefore).1
          rw [h.length, Nat.zero_min] at hlt
          exact Nat.not_lt_zero _ hlt
        obtain ⟨turn', hturn', hsaid, -⟩ := h.lastSaidAt_eq hround hk j
        cases hbefore.symm.trans hturn'
        rw [(hfits i).2.heardFrom_eq, dueIn, if_neg hround, if_pos (Table.val_mem_peers.mpr hne), hsaid]
    · have hsame : ∀ i, gate' i k = gate i k := fun i => by
        have hstep := hsteps i k
        rwa [ScriptedGate.Steps, if_neg hk] at hstep
      simp only [hsame]
      exact h.lockstep k

theorem transitAt_zero (h : AtRound table phase rounds 0 gate desk) :
    transitAt phase rounds 0 gate = fun _ _ => [] := by
  funext q _
  have hnone : (running rounds 0).flatMap (lastSaidAt gate q) = [] :=
    List.flatMap_eq_nil_iff.mpr fun k _ => h.lastSaidAt_zero q k
  rw [transitAt, hnone]
  rfl

/-- What is on its way is what the gates that go on are told. -/
theorem transitAt_eq (h : AtRound table phase rounds round gate desk) (i : Fin table.parties)
    {q : PartyId} (hq : q ∈ (table.party i).peers) :
    (if q ∈ dueIn table round i then parcel phase ((running rounds round).map (toldAt gate q)) else []) =
      transitAt phase rounds round gate q i := by
  unfold dueIn
  by_cases hround : round = 0
  · subst hround
    rw [h.transitAt_zero, if_neg (by simp)]
  · have hsame : (running rounds round).flatMap (fun k => [toldAt gate q k]) =
        (running rounds round).flatMap (lastSaidAt gate q) :=
      List.flatMap_congr fun k hk => by
        obtain ⟨_, -, -, hlast⟩ :=
          h.lastSaidAt_eq hround (mem_running.mp hk) ⟨q, (Table.mem_peers.mp hq).1⟩
        exact hlast.symm
    rw [if_neg hround, if_pos hq, List.map_eq_flatMap, hsame, transitAt]

theorem flatMap_said_eq {turn : Fin table.parties → Fin count → GateTurn}
    (hsteps : ∀ i k, (gate i k).Steps (table.party i) (dueIn table round i) (toldAt gate · k) (rounds k)
      round (gate' i k) (turn i k)) (i : Fin table.parties) :
    ((running rounds round).flatMap fun k => (turn i k).said) =
      (running rounds (round + 1)).flatMap (lastSaidAt gate' i) := by
  have hfits : ∀ k, round < rounds k → (gate' i k).turns = (gate i k).turns ++ [turn i k] ∧
      (turn i k).said.length = (decide (round + 1 < rounds k)).toNat := fun k hk => by
    have hstep := hsteps i k
    rw [ScriptedGate.Steps, if_pos hk] at hstep
    exact ⟨hstep.1, hstep.2.1.length_said⟩
  rw [flatMap_running_succ fun k hk => ?_]
  · refine List.flatMap_congr fun k hk => ?_
    rw [lastSaidAt_val, ScriptedGate.lastSaid, (hfits k (Nat.lt_of_succ_lt (mem_running.mp hk))).1]
    simp
  · have hlength := (hfits k (by omega)).2
    rw [decide_eq_false (by omega)] at hlength
    exact List.eq_nil_of_length_eq_zero hlength

/-- In a system in which some gate still runs, all parties can go through one more round. -/
theorem exists_round (h : AtRound table phase rounds round gate desk)
    {system : System (Bench (ScriptedGate W) W) Nat Mesh}
    (hbetween : System.BetweenRounds table.parties (actorAt table rounds (limit + 1) round gate desk)
      (transitAt phase rounds round gate) system)
    (hrunning : ∃ k, round < rounds k) :
    ∃ gate' desk' system', system.LeadsTo system' ∧
      AtRound table phase rounds (round + 1) gate' desk' ∧
      System.BetweenRounds table.parties (actorAt table rounds limit (round + 1) gate' desk')
        (transitAt phase rounds (round + 1) gate') system' := by
  have hround := fun i => exists_runRound (h.ready i) (fun _ => mem_peers_of_mem_dueIn) nodup_dueIn
    (toldAt gate) (h.rounds_eq i)
  choose talk gate' turn desk' hends hsteps hrounds hexchange hheard hsaid using hround
  have htalks : ∀ i, (actorAt table rounds (limit + 1) round gate desk i).Talks (talk i)
      (actorAt table rounds limit (round + 1) gate' desk' i) := fun i => by
    have hdone : ¬ (⟨slotsAt rounds round (gate i) (List.finRange count), desk i⟩ :
        Bench (ScriptedGate W) W).isDone = true := by
      simpa [isDone_slotsAt] using hrunning
    refine .step ?_
    rw [Program.pure_bind, if_neg hdone]
    exact (Actor.talks_of_ends (hends i)).bind _
  have hbefore : ∀ (i : Fin table.parties), ∀ q < table.parties, q ≠ i →
      receivedFrom q (talk i) = transitAt phase rounds round gate q i := fun i q hq hne => by
    have hpeer := Table.mem_peers.mpr ⟨hq, hne⟩
    exact (hheard i q hpeer).trans (h.transitAt_eq i hpeer)
  have hafter : ∀ (i : Fin table.parties), ∀ q < table.parties, q ≠ i →
      sentTo q (talk i) = transitAt phase rounds (round + 1) gate' i q := fun i q hq hne => by
    rw [hsaid i q (Table.mem_peers.mpr ⟨hq, hne⟩), flatMap_said_eq hsteps]
    rfl
  obtain ⟨system', hleads, hbetween'⟩ := hbetween.exists_round htalks hexchange hbefore hafter
  exact ⟨gate', desk', system', hleads, h.step hsteps hrounds, hbetween'⟩

theorem exists_rounds (h : AtRound table phase rounds round gate desk)
    {system : System (Bench (ScriptedGate W) W) Nat Mesh}
    (hbetween : System.BetweenRounds table.parties (actorAt table rounds limit round gate desk)
      (transitAt phase rounds round gate) system) {steps last : Nat}
    (hlast : Finset.univ.sup rounds = last) (hsteps : round + steps = last) (hlimit : steps < limit) :
    ∃ gate' desk' system', system.LeadsTo system' ∧ AtRound table phase rounds last gate' desk' ∧
      System.BetweenRounds table.parties
        (fun i => ⟨.pure last, ⟨slotsAt rounds last (gate' i) (List.finRange count), desk' i⟩⟩)
        (fun _ _ => []) system' := by
  induction steps generalizing round limit gate desk system with
  | zero =>
    subst hsteps
    obtain ⟨limit, rfl⟩ := Nat.exists_eq_succ_of_ne_zero (Nat.ne_of_gt hlimit)
    have hall : ∀ k, rounds k ≤ round := fun k =>
      (Finset.le_sup (Finset.mem_univ k)).trans_eq hlast
    have hended : ∀ i, (actorAt table rounds (limit + 1) round gate desk i).Talks []
        ⟨.pure round, ⟨slotsAt rounds round (gate i) (List.finRange count), desk i⟩⟩ := fun i => by
      refine .step ?_
      rw [Program.pure_bind, if_pos (by simpa [isDone_slotsAt] using hall)]
      exact .refl _
    have hsilent : transitAt phase rounds round gate = fun _ _ => [] := by
      have hnone : running rounds round = [] :=
        List.eq_nil_iff_forall_not_mem.mpr fun k hk =>
          Nat.not_lt_of_le (hall k) (mem_running.mp hk)
      funext _ _
      rw [transitAt, hnone]
      rfl
    rw [hsilent] at hbetween
    obtain ⟨system', hleads, hbetween'⟩ :=
      @System.BetweenRounds.exists_round _ _ _ _ _ _ _ (fun _ _ => []) hbetween _ hended (fun _ => nofun)
        (fun _ _ _ _ => rfl) fun _ _ _ _ => rfl
    exact ⟨gate, desk, system', hleads, h, hbetween'⟩
  | succ steps ih =>
    obtain ⟨limit, rfl⟩ := Nat.exists_eq_succ_of_ne_zero (Nat.ne_zero_of_lt hlimit)
    have hrunning : ∃ k, round < rounds k := by
      obtain ⟨k, -, hk⟩ := Finset.lt_sup_iff.mp (show round < Finset.univ.sup rounds by omega)
      exact ⟨k, hk⟩
    obtain ⟨gate₁, desk₁, system₁, hleads, hnext, hbetween₁⟩ := h.exists_round hbetween hrunning
    obtain ⟨gate', desk', system', hrest, hended⟩ :=
      ih hnext hbetween₁ (by omega) (Nat.lt_of_succ_lt_succ hlimit)
    exact ⟨gate', desk', system', hleads.trans hrest, hended⟩

end AtRound

section Session

variable {rounds : Fin count → UInt64} {script : Fin table.parties → Fin count → GateScript W}
  {bench : Fin table.parties → Bench (ScriptedGate W) W}

/-- A session in which all parties evaluate one batch of gates, each by its own scripts. -/
def batchSession (table : Table) (phase : Phase) (script : Fin table.parties → Fin count → GateScript W)
    (bench : Fin table.parties → Bench (ScriptedGate W) W) :
    System (Bench (ScriptedGate W) W) Nat Mesh where
  actors := List.ofFn fun i =>
    ⟨Bench.process (table.party i),
      (bench i).load (List.ofFn fun k => ⟨script i k, []⟩) phase table.parties⟩
  medium := .connect table.parties

theorem atRound_start (phase : Phase) (bench : Fin table.parties → Bench (ScriptedGate W) W)
    (hrounds : ∀ i k, (script i k).HasRounds (table.party i) (rounds k).toNat) :
    AtRound table phase (fun k => (rounds k).toNat) 0 (fun i k => ⟨script i k, []⟩)
      fun i => { (bench i).desk with rounds := .start phase table.parties } where
  rounds_eq _ := rfl
  ready i k last hlast := by
    obtain ⟨last', hlast', hlasts⟩ := hrounds i k
    obtain rfl : last = last' := by omega
    exact hlasts
  length _ _ := (Nat.zero_min _).symm
  lockstep _ := ⟨nofun, nofun, nofun, nofun⟩

theorem between_batchSession (phase : Phase) (bench : Fin table.parties → Bench (ScriptedGate W) W)
    (hrounds : ∀ i k, (script i k).HasRounds (table.party i) (rounds k).toNat) :
    System.BetweenRounds table.parties
      (actorAt table (fun k => (rounds k).toNat) Bench.roundLimit 0 (fun i k => ⟨script i k, []⟩)
        fun i => { (bench i).desk with rounds := .start phase table.parties })
      (fun _ _ => []) (batchSession table phase script bench) := by
  have hslots : ∀ i, slotsAt (fun k => (rounds k).toNat) 0 (fun k => ⟨script i k, []⟩)
      (List.finRange count) =
        (List.ofFn fun k => (⟨script i k, []⟩ : ScriptedGate W)).map fun gate => ⟨gate, false⟩ := by
    intro i
    rw [slotsAt, List.ofFn_eq_map, List.map_map]
    refine List.map_congr_left fun k _ => ?_
    obtain ⟨last, hlast, -⟩ := hrounds i k
    simp [hlast]
  unfold batchSession actorAt
  simp only [hslots]
  exact System.between_start _

/-- In whatever order the parties of a session move, they go through as many rounds as the longest gate
of the batch has, and the gates run in lockstep. -/
theorem process_lockstep (phase : Phase) (bench : Fin table.parties → Bench (ScriptedGate W) W)
    (hrounds : ∀ i k, (script i k).HasRounds (table.party i) (rounds k).toNat) :
    ∃ gate : Fin table.parties → Fin count → ScriptedGate W,
      (∀ k, (∀ i, (gate i k).turns.length = (rounds k).toNat) ∧
        InLockstep (rounds k).toNat fun i => (gate i k).turns) ∧
      (batchSession table phase script bench).Inevitably fun system =>
        ∀ i : Fin table.parties, ∃ final : Bench (ScriptedGate W) W,
          final.gates = List.ofFn (gate i) ∧ system.actors[(i : PartyId)]? =
            some ⟨.pure (Finset.univ.sup fun k => (rounds k).toNat), final⟩ := by
  obtain ⟨last, hlast⟩ : ∃ last, (Finset.univ.sup fun k => (rounds k).toNat) = last := ⟨_, rfl⟩
  have hle : ∀ k, (rounds k).toNat ≤ last := fun k =>
    (Finset.le_sup (f := fun k => (rounds k).toNat) (Finset.mem_univ k)).trans_eq hlast
  have hlimit : last < Bench.roundLimit := by
    rw [← hlast, Bench.roundLimit, Finset.sup_lt_iff (by decide)]
    exact fun k _ => (rounds k).toNat_lt
  have hstart := atRound_start phase bench hrounds
  have hbetween := between_batchSession phase bench hrounds
  rw [← hstart.transitAt_zero] at hbetween
  obtain ⟨gate, desk, final, hleads, hround, hbetween⟩ :=
    hstart.exists_rounds hbetween hlast (Nat.zero_add _) hlimit
  rw [hlast]
  refine ⟨gate, fun k => ⟨fun i => (hround.length i k).trans (Nat.min_eq_right (hle k)),
    hround.lockstep k⟩, hleads.inevitably hbetween.stuck fun i => ?_⟩
  refine ⟨⟨slotsAt (fun k => (rounds k).toNat) last (gate i) (List.finRange count), desk i⟩, ?_, ?_⟩
  · simp [Bench.gates, slotsAt, List.ofFn_eq_map]
  · simp [hbetween.actors]

/-- Two parties with three gates that have three rounds, one and two; the first gate passes on what it
has heard. -/
theorem process_lockstep_three :
    let table : Table :=
      ⟨2, ⟨.ofNat 7, by decide⟩, fun i => .ofNat (i + 1), by decide, by decide⟩
    let script : Fin 2 → Fin 3 → GateScript Unit := fun i =>
      let peer : PartyId := 1 - i
      ![.broadcast [i.val.toUInt8] (.pause (.receive peer fun payload => .broadcast payload (.pause
          (.receive peer fun _ => .finish)))),
        .finish,
        .broadcast [5] (.pause (.receive peer fun _ => .finish))]
    let bench : Fin 2 → Bench (ScriptedGate Unit) Unit := fun _ =>
      ⟨[], .start (.circuit 0) 2, .empty, ()⟩
    (∀ i k, (script i k).HasRounds (table.party i) ((![3, 1, 2] : Fin 3 → UInt64) k).toNat) ∧
    ∃ gate : Fin 2 → Fin 3 → ScriptedGate Unit,
      (∀ k, (∀ i, (gate i k).turns.length = ((![3, 1, 2] : Fin 3 → UInt64) k).toNat) ∧
        InLockstep ((![3, 1, 2] : Fin 3 → UInt64) k).toNat fun i => (gate i k).turns) ∧
      (batchSession table (.circuit 0) script bench).Inevitably fun system =>
        ∀ i : Fin 2, ∃ final : Bench (ScriptedGate Unit) Unit,
          final.gates = List.ofFn (gate i) ∧
            system.actors[(i : PartyId)]? = some ⟨.pure 3, final⟩ := by
  intro table script bench
  have hpeer : ∀ i : Fin 2, 1 - (i : PartyId) ∈ (table.party i).peers := by decide
  have herase : ∀ i : Fin 2, (table.party i).peers.erase (1 - (i : PartyId)) = [] := by decide
  have hrounds : ∀ i k,
      (script i k).HasRounds (table.party i) ((![3, 1, 2] : Fin 3 → UInt64) k).toNat := by
    intro i k
    match k with
    | 0 =>
      exact ⟨2, rfl, rfl, rfl, rfl, 1, rfl, hpeer i, fun _ => ⟨rfl, herase i, rfl, 0, rfl, hpeer i,
        fun _ => ⟨herase i, rfl, rfl⟩⟩⟩
    | 1 => exact ⟨0, rfl, rfl, rfl, rfl⟩
    | 2 => exact ⟨1, rfl, rfl, rfl, rfl, 0, rfl, hpeer i, fun _ => ⟨herase i, rfl, rfl⟩⟩
  have hlockstep := @process_lockstep Unit 3 table ![3, 1, 2] script (.circuit 0) bench hrounds
  have hmost : (Finset.univ.sup fun k => ((![3, 1, 2] : Fin 3 → UInt64) k).toNat) = 3 := by decide
  rw [hmost] at hlockstep
  exact ⟨hrounds, hlockstep⟩

end Session
end AuthenticatedMpc
