import AuthenticatedMpc.Proofs.Rounds.Operations
import AuthenticatedMpc.Proofs.Rounds.Visiting
import Mathlib.Logic.Basic

/-!
# The life of a gate

In a batch every gate is evaluated once in each round from round zero on, each time as the evaluation
before left it, until it is done for the first time, and then no more. All that a batch does besides is to
ship the messages of its rounds.
-/

namespace AuthenticatedMpc

structure GateCall (G : Type) where
  place : Nat
  round : Nat
  gate : G
  /-- The gate after the evaluation. -/
  after : G
  status : Status

/-- A move of a batch outside of its gates: one that marks nothing, or that sends a packet. -/
def Move.IsQuiet : Move → Prop
  | .inner none | .sent _ _ _ => True
  | _ => False

variable {G W : Type} {calls more : List (GateCall G)} {call : GateCall G} {gate : G}
  {moves front back : List Move}

section Evaluations

variable [Gate G W] {me : Party}

/-- The moves are those of the given evaluations, one after the other, and quiet ones between them. -/
inductive Evaluates (me : Party) : List (GateCall G) → List Move → Prop
  | nil : Evaluates me [] []
  | quiet {calls : List (GateCall G)} {move : Move} {moves : List Move} (hmove : move.IsQuiet)
      (rest : Evaluates me calls moves) : Evaluates me calls (move :: moves)
  | call {call : GateCall G} {calls : List (GateCall G)} {desk desk' : Desk W} {front back : List Move}
      (run : Path ⟨Gate.evaluate me call.round call.gate, desk⟩ front
        ⟨.pure (call.after, call.status), desk'⟩)
      (rest : Evaluates me calls back) :
      Evaluates me (call :: calls)
        (.inner (some (.evaluating desk.rounds.phase call.place call.round)) :: (front ++ back))

namespace Evaluates

theorem append (hfront : Evaluates me calls front) (hback : Evaluates me more back) :
    Evaluates me (calls ++ more) (front ++ back) := by
  induction hfront with
  | nil => exact hback
  | quiet hmove _ ih => exact .quiet hmove ih
  | call run _ ih =>
    rw [List.cons_append, List.cons_append, List.append_assoc]
    exact .call run ih

theorem of_quiet (h : ∀ move ∈ moves, move.IsQuiet) : Evaluates me ([] : List (GateCall G)) moves := by
  induction moves with
  | nil => exact .nil
  | cons move moves ih =>
    obtain ⟨hmove, hmoves⟩ := List.forall_mem_cons.mp h
    exact .quiet hmove (ih hmoves)

end Evaluates
end Evaluations

/-! ## The evaluations of one gate -/

def callsAt (place : Nat) (calls : List (GateCall G)) : List (GateCall G) :=
  calls.filter fun call => call.place = place

theorem callsAt_append (place : Nat) (calls more : List (GateCall G)) :
    callsAt place (calls ++ more) = callsAt place calls ++ callsAt place more :=
  List.filter_append ..

/-- The evaluations of a gate from its first to its last: in the rounds from zero on, each of the gate that
the one before left, and only the last one is done. -/
structure Life (gate : G) (calls : List (GateCall G)) : Prop where
  rounds : calls.map GateCall.round = List.range calls.length
  gates : calls.map GateCall.gate = (gate :: calls.map GateCall.after).dropLast
  statuses : calls.map GateCall.status = List.replicate (calls.length - 1) .moreRounds ++ [.done]

/-- The evaluations of a gate so far, and the slot that they leave. -/
inductive Lives (gate : G) : List (GateCall G) → Slot G → Prop
  | fresh : Lives gate [] ⟨gate, false⟩
  | next {calls : List (GateCall G)} {call : GateCall G} (before : Lives gate calls ⟨call.gate, false⟩)
      (hround : call.round = calls.length) :
      Lives gate (calls ++ [call]) ⟨call.after, decide (call.status = .done)⟩

namespace Lives

variable {slot : Slot G}

theorem rounds_eq (h : Lives gate calls slot) :
    calls.map GateCall.round = List.range calls.length := by
  induction h with
  | fresh => rfl
  | next _ hround ih => simp [ih, hround, List.range_succ]

theorem gates_eq (h : Lives gate calls slot) :
    calls.map GateCall.gate ++ [slot.gate] = gate :: calls.map GateCall.after := by
  induction h with
  | fresh => rfl
  | @next calls call _ _ ih =>
    rw [List.map_append, List.map_append, List.map_singleton, List.map_singleton]
    exact congrArg (· ++ [call.after]) ih

theorem statuses_eq (h : Lives gate calls slot) (hdone : slot.done = false) :
    calls.map GateCall.status = List.replicate calls.length .moreRounds := by
  induction h with
  | fresh => rfl
  | @next calls call _ _ ih =>
    have hstatus : call.status = .moreRounds := by
      cases hcall : call.status with
      | done => simp [hcall] at hdone
      | moreRounds => rfl
    rw [List.map_append, ih rfl, List.map_singleton, hstatus, List.length_append, List.length_singleton,
      List.replicate_succ']

theorem life (h : Lives gate calls slot) (hdone : slot.done = true) : Life gate calls where
  rounds := h.rounds_eq
  gates := by rw [← h.gates_eq, List.dropLast_concat]
  statuses := by
    cases h with
    | fresh => cases hdone
    | @next calls call before _ =>
      have hstatus : call.status = .done := of_decide_eq_true hdone
      rw [List.map_append, before.statuses_eq rfl, List.map_singleton, hstatus, List.length_append,
        List.length_singleton, Nat.add_sub_cancel]

end Lives

/-! ## The evaluations of a batch -/

/-- In a round in which the places before the given one have been visited: every gate that is not done has
been evaluated in each round before, and in this one if it has been visited. -/
structure Visited (gates : List G) (round front : Nat) (calls : List (GateCall G))
    (slots : List (Slot G)) : Prop where
  length_eq : slots.length = gates.length
  place_lt : ∀ call ∈ calls, call.place < gates.length
  lives : ∀ place gate, gates[place]? = some gate → ∃ slot, slots[place]? = some slot ∧
    Lives gate (callsAt place calls) slot ∧
    (slot.done = false → (callsAt place calls).length = if place < front then round + 1 else round)

/-- All gates of a batch have lived, and nothing else was evaluated. -/
structure Lived (gates : List G) (calls : List (GateCall G)) : Prop where
  place_lt : ∀ call ∈ calls, call.place < gates.length
  life : ∀ place gate, gates[place]? = some gate → Life gate (callsAt place calls)

namespace Visited

variable {gates : List G} {round front place : Nat} {slots : List (Slot G)}

theorem start (gates : List G) : Visited gates 0 0 [] (gates.map fun gate => ⟨gate, false⟩) where
  length_eq := List.length_map ..
  place_lt := nofun
  lives place gate hgate := ⟨⟨gate, false⟩, by simp [hgate], .fresh, fun _ => rfl⟩

theorem skip (h : Visited gates round place calls slots)
    (hslot : ∀ gate, slots[place]? ≠ some ⟨gate, false⟩) :
    Visited gates round (place + 1) calls slots where
  length_eq := h.length_eq
  place_lt := h.place_lt
  lives p gate hgate := by
    obtain ⟨slot, hslot', hlives, hcount⟩ := h.lives p gate hgate
    refine ⟨slot, hslot', hlives, fun hdone => ?_⟩
    rw [hcount hdone]
    rcases eq_or_ne p place with rfl | hne
    · obtain ⟨gate', done⟩ := slot
      cases (hdone : done = false)
      exact absurd hslot' (hslot gate')
    · have hlt : p < place + 1 ↔ p < place := by omega
      simp only [hlt]

theorem evaluate (h : Visited gates round place calls slots)
    (hslot : slots[place]? = some ⟨gate, false⟩) (after : G) (status : Status) :
    Visited gates round (place + 1) (calls ++ [⟨place, round, gate, after, status⟩])
      (slots.set place ⟨after, decide (status = .done)⟩) where
  length_eq := by rw [List.length_set, h.length_eq]
  place_lt := by
    obtain ⟨hlt, -⟩ := List.getElem?_eq_some_iff.mp hslot
    refine List.forall_mem_append.mpr ⟨h.place_lt, List.forall_mem_singleton.mpr ?_⟩
    exact Nat.lt_of_lt_of_eq hlt h.length_eq
  lives p gate' hgate := by
    obtain ⟨slot, hslot', hlives, hcount⟩ := h.lives p gate' hgate
    rw [callsAt_append]
    rcases eq_or_ne p place with rfl | hne
    · obtain rfl := Option.some.inj (hslot'.symm.trans hslot)
      have hround : (callsAt p calls).length = round := by
        rw [hcount rfl, if_neg (Nat.lt_irrefl p)]
      have hcall : callsAt p [⟨p, round, gate, after, status⟩] =
          [(⟨p, round, gate, after, status⟩ : GateCall G)] := by
        simp [callsAt]
      obtain ⟨hlt, -⟩ := List.getElem?_eq_some_iff.mp hslot
      refine ⟨_, List.getElem?_set_self hlt, ?_, fun _ => ?_⟩
      · rw [hcall]
        exact @Lives.next G gate' _ ⟨p, round, gate, after, status⟩ hlives hround.symm
      · rw [hcall, List.length_append, List.length_singleton, hround, if_pos (Nat.lt_succ_self p)]
    · have hcall : callsAt p [(⟨place, round, gate, after, status⟩ : GateCall G)] = [] := by
        simp [callsAt, hne.symm]
      have hlt : p < place + 1 ↔ p < place := by omega
      rw [hcall, List.append_nil]
      simp only [hlt]
      exact ⟨slot, by rw [List.getElem?_set_ne hne.symm, hslot'], hlives, hcount⟩

theorem nextRound (h : Visited gates round gates.length calls slots) :
    Visited gates (round + 1) 0 calls slots where
  length_eq := h.length_eq
  place_lt := h.place_lt
  lives place gate hgate := by
    obtain ⟨slot, hslot, hlives, hcount⟩ := h.lives place gate hgate
    obtain ⟨hlt, -⟩ := List.getElem?_eq_some_iff.mp hgate
    refine ⟨slot, hslot, hlives, fun hdone => ?_⟩
    rw [hcount hdone, if_pos hlt, if_neg (Nat.not_lt_zero place)]

theorem lived (h : Visited gates round front calls slots) (hdone : ∀ slot ∈ slots, slot.done = true) :
    Lived gates calls where
  place_lt := h.place_lt
  life place gate hgate := by
    obtain ⟨slot, hslot, hlives, -⟩ := h.lives place gate hgate
    exact hlives.life (hdone slot (List.mem_of_getElem? hslot))

end Visited

/-! ## The runs of a batch -/

section Runs

variable [Gate G W] {me : Party} {gates : List G} {round place : Nat} {slots : List (Slot G)}
  {past now : List Move}

/-- Since the past there were only evaluations, and in this round those of the places before the given
one. -/
def EvaluatedSince (me : Party) (gates : List G) (past : List Move) (round place : Nat) (now : List Move)
    (slots : List (Slot G)) : Prop :=
  ∃ calls moves, now = past ++ moves ∧ Evaluates me calls moves ∧ Visited gates round place calls slots

theorem EvaluatedSince.quiet {move : Move} (h : EvaluatedSince me gates past round place now slots)
    (hmove : move.IsQuiet) : EvaluatedSince me gates past round place (now ++ [move]) slots := by
  obtain ⟨calls, moves, rfl, hevaluates, hvisited⟩ := h
  refine ⟨calls, moves ++ [move], List.append_assoc .., ?_, hvisited⟩
  have hmoves := hevaluates.append (.of_quiet (List.forall_mem_singleton.mpr hmove))
  rwa [List.append_nil] at hmoves

/-- The gate at the next place is evaluated. -/
theorem EvaluatedSince.evaluate {front back : List (Slot G)} {gate after : G} {status : Status}
    {desk desk' : Desk W} {moves : List Move}
    (h : EvaluatedSince me gates past round front.length now (front ++ ⟨gate, false⟩ :: back))
    (hpath : Path ⟨Gate.evaluate me round gate, desk⟩ moves ⟨.pure (after, status), desk'⟩) :
    EvaluatedSince me gates past round (front.length + 1)
      (now ++ [.inner (some (.evaluating desk.rounds.phase front.length round))] ++ moves)
      (front ++ [⟨after, decide (status = .done)⟩] ++ back) := by
  obtain ⟨calls, before, rfl, hevaluates, hvisited⟩ := h
  let call : GateCall G := ⟨front.length, round, gate, after, status⟩
  have hcall : Evaluates me [call]
      (.inner (some (.evaluating desk.rounds.phase front.length round)) :: moves) := by
    have hrun := @Evaluates.call G W _ me call [] desk desk' moves [] hpath .nil
    rwa [List.append_nil] at hrun
  have hslots : (front ++ ⟨gate, false⟩ :: back).set front.length
      ⟨after, decide (status = .done)⟩ = front ++ [⟨after, decide (status = .done)⟩] ++ back := by simp
  refine ⟨calls ++ [call], before ++ .inner _ :: moves, ?_, hevaluates.append hcall, ?_⟩
  · simp
  · rw [← hslots]
    exact hvisited.evaluate (by simp) after status

namespace Bench

theorem visiting_evaluated : Visiting (W := W) (.always fun _ => True) id me round
    fun front back now _ => EvaluatedSince me gates past round front.length now (front ++ back) where
  during _ := trivial
  silent h := h.quiet trivial
  skip {front gate back now desk} := by
    rintro ⟨calls, moves, rfl, hevaluates, hvisited⟩
    refine ⟨calls, moves, rfl, hevaluates, ?_⟩
    rw [List.append_assoc, List.length_append]
    exact hvisited.skip (by simp)
  evaluate {front gate back now desk} h := by
    refine (Program.Meets.of_paths _ _ _).mono (fun _ _ _ => trivial) ?_ (fun _ _ _ _ _ => trivial)
      fun _ _ => trivial
    rintro ⟨after, status⟩ _ desk' - ⟨moves, rfl, hpath⟩
    have hnext := h.evaluate hpath
    rwa [← List.length_singleton, ← List.length_append] at hnext

theorem meets_ship_evaluated {view : RoundBuffer → Bench G W} {rounds : RoundBuffer}
    (h : EvaluatedSince me gates past round slots.length now slots) :
    RoundBuffer.ship.Meets ((Terms.always fun _ => True).contract view fun _ now _ =>
      EvaluatedSince me gates past (round + 1) 0 now slots) now rounds := by
  have hship : RoundBuffer.Shipping ((Terms.always fun _ => True).contract view fun (_ : Unit) now _ =>
      EvaluatedSince me gates past (round + 1) 0 now slots)
      fun _ now _ => EvaluatedSince me gates past round slots.length now slots :=
    ⟨fun _ _ => trivial, fun _ => trivial, fun h => h.quiet trivial, fun h _ => h, fun _ => trivial,
      fun _ _ _ => trivial, fun h _ => h.quiet trivial⟩
  refine hship.meets_ship (fun _ => trivial) (fun h _ => ?_) h
  obtain ⟨calls, moves, rfl, hevaluates, hvisited⟩ := h
  rw [hvisited.length_eq] at hvisited
  exact ⟨calls, moves, rfl, hevaluates, hvisited.nextRound⟩

theorem meets_runRound_evaluated {bench : Bench G W}
    (h : EvaluatedSince me gates past round 0 now bench.slots) :
    (runRound me round).Meets ((Terms.always fun _ => True).contract id fun _ now bench =>
      EvaluatedSince me gates past (round + 1) 0 now bench.slots) now bench := by
  refine visiting_evaluated.meets_runRound (fun slots now desk h => ?_) h
  rw [List.append_nil] at h
  exact meets_ship_evaluated h

/-- In a batch that has ended, all gates have lived. -/
theorem exists_evaluates_process {rounds : Nat} {desk : Desk W} {bench : Bench G W}
    (hpath : Path ⟨process me, ⟨gates.map fun gate => ⟨gate, false⟩, desk⟩⟩ moves
      ⟨.ofExcept (.ok rounds), bench⟩) :
    ∃ calls, Evaluates me calls moves ∧ Lived gates calls ∧ bench.slots.length = gates.length := by
  have hstart : EvaluatedSince me gates [] 0 0 [] (gates.map fun gate => (⟨gate, false⟩ : Slot G)) :=
    ⟨[], [], rfl, .nil, .start gates⟩
  have hprocess : (process me).Meets ((Terms.always fun _ => True).contract id fun rounds now bench =>
      EvaluatedSince me gates [] rounds 0 now bench.slots ∧ bench.isDone = true) []
      ⟨gates.map fun gate => ⟨gate, false⟩, desk⟩ :=
    meets_runRounds (fun round now bench => EvaluatedSince me gates [] round 0 now bench.slots)
      (fun _ => trivial) (fun h => h.quiet trivial) (fun h _ => meets_runRound_evaluated h) hstart
  obtain ⟨-, ⟨calls, _, rfl, hevaluates, hvisited⟩, hdone⟩ := hprocess.path hpath fun _ _ => trivial
  exact ⟨calls, hevaluates, hvisited.lived (List.all_eq_true.mp hdone), hvisited.length_eq⟩

end Bench
end Runs
end AuthenticatedMpc
