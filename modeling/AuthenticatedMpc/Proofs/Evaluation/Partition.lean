import AuthenticatedMpc.Proofs.Circuit.Lifelines
import AuthenticatedMpc.Proofs.Evaluation.Calls
import AuthenticatedMpc.Proofs.Evaluation.Journey

/-!
# A stream in batches

An evaluation takes the gates of its stream in order and in batches, all of the configured size but for the
last one, and every gate of a batch lives in it. An evaluation that fails has taken the gates of the batches
up to the one in which it fails, and no others.
-/

namespace AuthenticatedMpc

/-! ## Cutting a list -/

section Cutting

variable {α : Type} {size count : Nat} {elements : List α}

/-- Consecutive parts of a list, as many as are needed, and all full but perhaps the last one. -/
structure Cut (size : Nat) (elements : List α) (parts : List (List α)) : Prop where
  flatten : parts.flatten = elements
  length : parts.length = (elements.length + size - 1) / size
  bounded : ∀ part ∈ parts, part ≠ [] ∧ part.length ≤ size
  full : ∀ part ∈ parts.dropLast, part.length = size

theorem batchesWithin_nil (size count : Nat) : batchesWithin size count ([] : List α) = [] := by
  cases count <;> simp [batchesWithin]

theorem batchesWithin_succ (hsize : 0 < size) (h : elements ≠ []) :
    batchesWithin size (count + 1) elements =
      elements.take size :: batchesWithin size count (elements.drop size) := by
  rw [batchesWithin]
  split
  · next hnil => exact absurd hnil (by simp [List.take_eq_nil_iff, h, hsize.ne'])
  · rfl

theorem length_batchesWithin (hsize : 0 < size) (h : elements.length ≤ count) :
    (batchesWithin size count elements).length = (elements.length + size - 1) / size := by
  induction count generalizing elements with
  | zero =>
    rw [List.eq_nil_of_length_eq_zero (Nat.le_zero.mp h), batchesWithin_nil, List.length_nil, List.length_nil]
    exact (Nat.div_eq_of_lt (by omega)).symm
  | succ count ih =>
    rcases eq_or_ne elements [] with rfl | hne
    · rw [batchesWithin_nil, List.length_nil, List.length_nil]
      exact (Nat.div_eq_of_lt (by omega)).symm
    · have hpos := List.length_pos_iff.mpr hne
      have hrest := @ih (elements.drop size) (by rw [List.length_drop]; omega)
      rw [batchesWithin_succ hsize hne, List.length_cons, hrest, List.length_drop]
      by_cases hlt : elements.length < size
      · rw [Nat.div_eq_of_lt (by omega), Nat.zero_add]
        exact (Nat.div_eq_of_lt_le (by omega) (by omega)).symm
      · have hsplit : elements.length + size - 1 = elements.length - size + size - 1 + size := by omega
        rw [hsplit, Nat.add_div_right _ hsize]

theorem flatten_take_batchesWithin (hsize : 0 < size) (h : elements.length ≤ count) (k : Nat) :
    ((batchesWithin size count elements).take k).flatten = elements.take (k * size) := by
  induction count generalizing elements k with
  | zero =>
    rw [List.eq_nil_of_length_eq_zero (Nat.le_zero.mp h), batchesWithin_nil, List.take_nil, List.take_nil]
    rfl
  | succ count ih =>
    rcases eq_or_ne elements [] with rfl | hne
    · rw [batchesWithin_nil, List.take_nil, List.take_nil]
      rfl
    · have hpos := List.length_pos_iff.mpr hne
      cases k with
      | zero => simp
      | succ k =>
        have hrest := @ih (elements.drop size) (by rw [List.length_drop]; omega) k
        rw [batchesWithin_succ hsize hne, List.take_succ_cons, List.flatten_cons, hrest, Nat.succ_mul,
          Nat.add_comm, List.take_add]

theorem length_of_mem_dropLast_batchesWithin (hsize : 0 < size) {batch : List α}
    (h : batch ∈ (batchesWithin size count elements).dropLast) : batch.length = size := by
  induction count generalizing elements with
  | zero => cases h
  | succ count ih =>
    rcases eq_or_ne elements [] with rfl | hne
    · rw [batchesWithin_nil] at h
      cases h
    · rw [batchesWithin_succ hsize hne] at h
      cases hrest : batchesWithin size count (elements.drop size) with
      | nil =>
        rw [hrest] at h
        cases h
      | cons next rest =>
        rw [hrest, List.dropLast_cons_cons, ← hrest] at h
        obtain rfl | h := List.mem_cons.mp h
        · -- A batch that is not the last one leaves elements for the next.
          have hdrop : elements.drop size ≠ [] := by
            intro hnil
            rw [hnil, batchesWithin_nil] at hrest
            cases hrest
          rw [ne_eq, List.drop_eq_nil_iff, Nat.not_le] at hdrop
          exact List.length_take_of_le hdrop.le
        · exact ih h

theorem ne_nil_of_mem_batchesWithin {batch : List α} (h : batch ∈ batchesWithin size count elements) :
    batch ≠ [] := by
  induction count generalizing elements with
  | zero => cases h
  | succ count ih =>
    rw [batchesWithin] at h
    split at h
    · cases h
    · next hne =>
      obtain rfl | h := List.mem_cons.mp h
      · exact hne
      · exact ih h

theorem cut_batches (hsize : 0 < size) (elements : List α) : Cut size elements (batches size elements) where
  flatten := flatten_batches hsize elements
  length := length_batchesWithin hsize (Nat.le_refl _)
  bounded _ hpart := ⟨ne_nil_of_mem_batchesWithin hpart, length_le_of_mem_batchesWithin hpart⟩
  full _ hpart := length_of_mem_dropLast_batchesWithin hsize hpart

end Cutting

/-! ## Laps -/

/-- A batch of gates with their evaluations. -/
structure Lap (G : Type) where
  gates : List G
  calls : List (GateCall G)

variable {S G W : Type}

/-- What an evaluation has counted over the given batches. -/
structure Evaluator.CountsBatches (e e' : Evaluator S G W) (parts : List (List G)) : Prop where
  taken : e'.taken = e.taken + parts.flatten.length
  gates : e'.summary.gates = e.summary.gates + parts.flatten.length
  batches : e'.summary.batches = e.summary.batches + .ofNat parts.length

theorem Evaluator.CountsBatches.nil (e : Evaluator S G W) : e.CountsBatches e [] :=
  ⟨rfl, rfl, (UInt64.add_zero _).symm⟩

theorem Evaluator.CountsBatches.cons {e middle e' : Evaluator S G W} {batch : List G}
    {parts : List (List G)}
    (first : e.CountsBatches middle [batch]) (rest : middle.CountsBatches e' parts) :
    e.CountsBatches e' (batch :: parts) where
  taken := by
    rw [rest.taken, first.taken, List.flatten_singleton, List.flatten_cons, List.length_append,
      Nat.add_assoc]
  gates := by
    rw [rest.gates, first.gates, List.flatten_singleton, List.flatten_cons, List.length_append,
      Nat.add_assoc]
  batches := by
    rw [rest.batches, first.batches, List.length_singleton, List.length_cons, Nat.add_comm parts.length,
      UInt64.ofNat_add, UInt64.add_assoc]

theorem Evaluator.CountsBatches.begin {e e' : Evaluator S G W} {parts : List (List G)}
    (h : e.begin.CountsBatches e' parts) :
    e'.taken = parts.flatten.length ∧ e'.summary.gates = parts.flatten.length ∧
      e'.summary.batches = .ofNat parts.length :=
  ⟨h.taken.trans (Nat.zero_add _), h.gates.trans (Nat.zero_add _), h.batches.trans (UInt64.zero_add _)⟩

variable [Gate G W] {setting : Setting S}

/-- The moves of a batch: the gates are taken, the hook before the batch runs, all gates live, and the hook
after the batch runs. -/
inductive Lap.Runs (setting : Setting S) : Lap G → List Move → Prop
  | intro {lap : Lap G} {custody custody' later later' : Custody S} {before during after : List Move}
      (beforeBatch : Path ⟨setting.controller.beforeBatch setting.me
        (lap.gates.map Gate.revealsOutput), custody⟩ before ⟨.pure (), custody'⟩)
      (evaluates : Evaluates setting.me lap.calls during) (lived : Lived lap.gates lap.calls)
      (afterBatch : Path ⟨setting.controller.afterBatch setting.me lap.gates.length, later⟩ after
        ⟨.pure (), later'⟩) :
      Runs setting lap (.inner (some (.taken lap.gates.length)) ::
        (before ++ .inner none :: (during ++ (after ++ [.inner none]))))

inductive Laps (setting : Setting S) : List (Lap G) → List Move → Prop
  | nil : Laps setting [] []
  | cons {lap : Lap G} {laps : List (Lap G)} {front back : List Move}
      (first : lap.Runs setting front) (rest : Laps setting laps back) :
      Laps setting (lap :: laps) (front ++ back)

namespace Evaluator

variable {gates batch : List G} {e e' : Evaluator S G W} {moves : List Move}

theorem taken_releaseVerified (e : Evaluator S G W) :
    e.releaseVerified.taken = e.taken ∧ e.releaseVerified.summary = e.summary := by
  unfold releaseVerified
  split <;> exact ⟨rfl, rfl⟩

/-- However a batch ends, its gates were taken first, and no others. -/
theorem taken_runBatch {outcome : Except Error Unit}
    (h : Path ⟨runBatch setting batch, e⟩ moves ⟨.ofExcept outcome, e'⟩) :
    ∃ rest, moves = .inner (some (.taken batch.length)) :: rest ∧ e'.taken = e.taken + batch.length := by
  obtain ⟨rest, rfl, hrest⟩ := h.ended_of_record_bind
  refine ⟨rest, rfl, ?_⟩
  -- The parts of a batch work on the custody and on the bench, which leaves the count alone.
  obtain ⟨_, -, hfailed⟩ | ⟨_, _, _, _, -, hbefore, hload⟩ := hrest.ended_of_bind
  · obtain ⟨_, rfl, -⟩ := hfailed.ended_of_zoom
    rfl
  obtain ⟨_, rfl, -⟩ := hbefore.ended_of_zoom
  obtain ⟨_, -, hprocess⟩ := hload.ended_of_modify_bind
  obtain ⟨_, -, hfailed⟩ | ⟨_, _, _, _, -, hbench, hlast⟩ := hprocess.ended_of_bind
  · obtain ⟨_, rfl, -⟩ := hfailed.ended_of_zoom
    rfl
  obtain ⟨_, rfl, -⟩ := hbench.ended_of_zoom
  obtain ⟨_, -, hfailed⟩ | ⟨_, _, _, _, -, hafter, hfinish⟩ := hlast.ended_of_bind
  · obtain ⟨_, rfl, -⟩ := hfailed.ended_of_zoom
    rfl
  obtain ⟨_, rfl, -⟩ := hafter.ended_of_zoom
  obtain ⟨_, -, hend⟩ := hfinish.ended_of_step
  obtain ⟨-, -, rfl⟩ := hend.ended_of_pure
  exact (taken_releaseVerified _).1

theorem exists_runs_runBatch (h : Path ⟨runBatch setting batch, e⟩ moves ⟨.ofExcept (.ok ()), e'⟩) :
    ∃ calls, (⟨batch, calls⟩ : Lap G).Runs setting moves ∧ e.CountsBatches e' [batch] := by
  obtain ⟨_, rfl, hbefore⟩ := h.ended_of_record_bind
  obtain ⟨before, _, _, _, rfl, hbefore, hload⟩ := hbefore.ended_of_bind_ok
  obtain ⟨_, rfl, hbeforeBatch⟩ := hbefore.ended_of_zoom
  obtain ⟨_, rfl, hrest⟩ := hload.ended_of_modify_bind
  obtain ⟨during, _, rounds, _, rfl, hbench, hlast⟩ := hrest.ended_of_bind_ok
  obtain ⟨bench, rfl, hprocess⟩ := hbench.ended_of_zoom
  obtain ⟨after, _, _, _, rfl, hafter, hfinish⟩ := hlast.ended_of_bind_ok
  obtain ⟨_, rfl, hafterBatch⟩ := hafter.ended_of_zoom
  obtain ⟨_, rfl, hend⟩ := hfinish.ended_of_step
  obtain ⟨rfl, -, rfl⟩ := hend.ended_of_pure
  obtain ⟨calls, hevaluates, hlived, hlength⟩ := Bench.exists_evaluates_process hprocess
  refine ⟨calls, .intro hbeforeBatch hevaluates hlived hafterBatch, ?_⟩
  exact {
    taken := by
      rw [(taken_releaseVerified _).1, List.flatten_singleton]
      rfl
    gates := by
      rw [(taken_releaseVerified _).2, List.flatten_singleton, ← hlength, ← List.length_map Slot.gate]
      rfl
    batches := congrArg Summary.batches (taken_releaseVerified _).2 }

theorem exists_laps_runBatches {parts : List (List G)}
    (h : Path ⟨runBatches setting parts, e⟩ moves ⟨.ofExcept (.ok ()), e'⟩) :
    ∃ laps : List (Lap G), laps.map Lap.gates = parts ∧ Laps setting laps moves ∧
      e.CountsBatches e' parts := by
  induction parts generalizing e moves with
  | nil =>
    obtain ⟨rfl, -, rfl⟩ := h.ended_of_pure
    exact ⟨[], rfl, .nil, .nil _⟩
  | cons batch parts ih =>
    obtain ⟨front, back, _, _, rfl, hfirst, hrest⟩ := h.ended_of_bind_ok
    obtain ⟨calls, hruns, hcounts⟩ := exists_runs_runBatch hfirst
    obtain ⟨laps, rfl, hlaps, hrestCounts⟩ := ih hrest
    exact ⟨⟨batch, calls⟩ :: laps, rfl, .cons hruns hlaps, hcounts.cons hrestCounts⟩

/-- Batches that end with an error are laps up to the batch that has failed. -/
theorem exists_laps_runBatches_error {parts : List (List G)} {error : Error}
    (h : Path ⟨runBatches setting parts, e⟩ moves ⟨.ofExcept (.error error), e'⟩) :
    ∃ (laps : List (Lap G)) (batch : List G) (rest : List (List G)) (start : Evaluator S G W)
      (front last : List Move), parts = laps.map Lap.gates ++ batch :: rest ∧ moves = front ++ last ∧
        Laps setting laps front ∧ e.CountsBatches start (laps.map Lap.gates) ∧
        Path ⟨runBatch setting batch, start⟩ last ⟨.fail error, e'⟩ := by
  induction parts generalizing e moves with
  | nil => cases (h.ended_of_pure).2.1
  | cons batch parts ih =>
    obtain ⟨_, heq, hfailed⟩ | ⟨front, back, _, middle, rfl, hfirst, hrest⟩ := h.ended_of_bind
    · cases heq
      exact ⟨[], batch, parts, e, [], moves, rfl, rfl, .nil, .nil e, hfailed⟩
    · obtain ⟨calls, hruns, hcounts⟩ := exists_runs_runBatch hfirst
      obtain ⟨laps, failing, rest, start, driven, last, rfl, rfl, hlaps, hrestCounts, hfailed⟩ := ih hrest
      exact ⟨⟨batch, calls⟩ :: laps, failing, rest, start, front ++ driven, last, rfl,
        (List.append_assoc ..).symm, .cons hruns hlaps, hcounts.cons hrestCounts, hfailed⟩

theorem flatten_append_batch {size : Nat} (hsize : 0 < size) {laps : List (Lap G)} {rest : List (List G)}
    (h : AuthenticatedMpc.batches size gates = laps.map Lap.gates ++ batch :: rest) :
    (laps.map Lap.gates).flatten ++ batch = gates.take ((laps.length + 1) * size) := by
  have htake := flatten_take_batchesWithin hsize (Nat.le_refl gates.length) (laps.length + 1)
  have hfront : (laps.map Lap.gates ++ batch :: rest).take (laps.length + 1) =
      laps.map Lap.gates ++ [batch] := by
    rw [List.take_append, List.length_map, Nat.add_sub_cancel_left, List.take_of_length_le (by simp)]
    rfl
  change ((AuthenticatedMpc.batches size gates).take _).flatten = _ at htake
  rw [← htake, h, hfront, List.flatten_append, List.flatten_singleton]

theorem exists_laps_runStream (hsize : 0 < setting.config.maxBatchSize.toNat) {summary : Summary}
    (h : Path ⟨runStream setting gates, e⟩ moves ⟨.ofExcept (.ok summary), e'⟩) :
    ∃ (laps : List (Lap G)) (front hook : List Move) (custody custody' : Custody S),
      moves = .inner none :: (front ++ (hook ++ [.inner none, .inner none])) ∧
      Laps setting laps front ∧
      Path ⟨setting.controller.afterEvaluation setting.me, custody⟩ hook ⟨.pure (), custody'⟩ ∧
      Cut setting.config.maxBatchSize.toNat gates (laps.map Lap.gates) ∧
      summary.gates = gates.length ∧ summary.batches = .ofNat laps.length ∧
      e'.taken = gates.length := by
  obtain ⟨_, rfl, hbegun⟩ := h.ended_of_modify_bind
  obtain ⟨front, _, _, middle, rfl, hbatches, hback⟩ := hbegun.ended_of_bind_ok
  obtain ⟨hook, _, _, _, rfl, hhook, hlast⟩ := hback.ended_of_bind_ok
  obtain ⟨custody', rfl, hafter⟩ := hhook.ended_of_zoom
  obtain ⟨_, rfl, hsummary⟩ := hlast.ended_of_modify_bind
  obtain ⟨_, rfl, hend⟩ := hsummary.ended_of_get_bind
  obtain ⟨rfl, houtcome, rfl⟩ := hend.ended_of_pure
  obtain rfl := Except.ok.inj houtcome
  obtain ⟨laps, hlaps, hruns, hcounts⟩ := exists_laps_runBatches hbatches
  have hcut := cut_batches hsize gates
  obtain ⟨htaken, hgates, hcount⟩ := hcounts.begin
  rw [hcut.flatten] at htaken hgates
  rw [← hlaps, List.length_map] at hcount
  exact ⟨laps, front, hook, _, custody', rfl, hruns, hafter, hlaps ▸ hcut, hgates, hcount,
    (taken_releaseVerified (custodyPart.set middle custody')).1.trans htaken⟩

/-- A stream that fails does so in one of its batches, or in the hook after them. -/
theorem exists_laps_runStream_error (hsize : 0 < setting.config.maxBatchSize.toNat) {error : Error}
    (h : Path ⟨runStream setting gates, e⟩ moves ⟨.ofExcept (.error error), e'⟩) :
    (∃ (laps : List (Lap G)) (batch : List G) (start : Evaluator S G W) (front last : List Move),
        moves = .inner none :: (front ++ last) ∧ Laps setting laps front ∧
        Path ⟨runBatch setting batch, start⟩ last ⟨.fail error, e'⟩ ∧ batch ≠ [] ∧
        (laps.map Lap.gates).flatten ++ batch =
          gates.take ((laps.length + 1) * setting.config.maxBatchSize.toNat) ∧
        e'.taken = min gates.length ((laps.length + 1) * setting.config.maxBatchSize.toNat)) ∨
      ∃ (laps : List (Lap G)) (front hook : List Move) (custody custody' : Custody S),
        moves = .inner none :: (front ++ hook) ∧ Laps setting laps front ∧
        Path ⟨setting.controller.afterEvaluation setting.me, custody⟩ hook ⟨.fail error, custody'⟩ ∧
        Cut setting.config.maxBatchSize.toNat gates (laps.map Lap.gates) ∧
        e'.taken = gates.length := by
  have hcut := cut_batches hsize gates
  obtain ⟨_, rfl, hbegun⟩ := h.ended_of_modify_bind
  obtain ⟨_, heq, hfailed⟩ | ⟨front, _, _, middle, rfl, hbatches, hback⟩ := hbegun.ended_of_bind
  · cases heq
    obtain ⟨laps, batch, rest, start, front, last, hparts, rfl, hruns, hcounts, hpath⟩ :=
      exists_laps_runBatches_error hfailed
    have hfirst := flatten_append_batch hsize hparts
    have hmem : batch ∈ AuthenticatedMpc.batches setting.config.maxBatchSize.toNat gates :=
      hparts ▸ List.mem_append_right _ List.mem_cons_self
    have hended : Path ⟨runBatch setting batch, start⟩ last ⟨.ofExcept (.error error), e'⟩ := hpath
    obtain ⟨-, -, htaken⟩ := taken_runBatch hended
    obtain ⟨hstart, -, -⟩ := hcounts.begin
    refine .inl ⟨laps, batch, start, front, last, rfl, hruns, hpath, (hcut.bounded batch hmem).1, hfirst, ?_⟩
    rw [htaken, hstart, ← List.length_append, hfirst, List.length_take, Nat.min_comm]
  · obtain ⟨_, heq, hfailed⟩ | ⟨_, _, _, _, rfl, -, hlast⟩ := hback.ended_of_bind
    · cases heq
      obtain ⟨custody', rfl, hhook⟩ := hfailed.ended_of_zoom
      obtain ⟨laps, hlaps, hruns, hcounts⟩ := exists_laps_runBatches hbatches
      obtain ⟨htaken, -, -⟩ := hcounts.begin
      rw [hcut.flatten] at htaken
      exact .inr ⟨laps, front, _, _, custody', rfl, hruns, hhook, hlaps ▸ hcut, htaken⟩
    · obtain ⟨_, rfl, hsummary⟩ := hlast.ended_of_modify_bind
      obtain ⟨_, rfl, hend⟩ := hsummary.ended_of_get_bind
      cases hend.ended_of_pure.2.1

/-- Whatever the gates, the controller and the transport do, an evaluation that returns has cut the stream
into batches, all full but perhaps the last one; each gate has been evaluated in the rounds from zero on, up
to the first in which it was done, and the summary counts all gates and batches. An evaluation that fails in
a batch or its hooks has taken the gates of all batches up to that one. Otherwise it has failed in the hook
at the end, after the whole stream, or at once because of an earlier error. -/
theorem evaluate_partitions (hconfig : setting.config.validate = .ok ()) {outcome : Except Error Summary}
    (h : Path ⟨evaluate setting gates, e⟩ moves ⟨.ofExcept outcome, e'⟩) :
    (∀ summary, outcome = .ok summary →
      ∃ (laps : List (Lap G)) (front hook : List Move) (custody custody' : Custody S),
        moves = .inner none :: .inner none :: (front ++ (hook ++ [.inner none, .inner none])) ∧
        Laps setting laps front ∧
        Path ⟨setting.controller.afterEvaluation setting.me, custody⟩ hook ⟨.pure (), custody'⟩ ∧
        Cut setting.config.maxBatchSize.toNat gates (laps.map Lap.gates) ∧
        summary.gates = gates.length ∧ summary.batches = .ofNat laps.length ∧
        e'.taken = gates.length) ∧
    ∀ error, outcome = .error error →
      (∃ (laps : List (Lap G)) (batch : List G) (start final : Evaluator S G W) (front last : List Move),
          moves = .inner none :: .inner none :: (front ++ (last ++ [.inner none])) ∧
          Laps setting laps front ∧
          Path ⟨runBatch setting batch, start⟩ last ⟨.fail error, final⟩ ∧ batch ≠ [] ∧
          (laps.map Lap.gates).flatten ++ batch =
            gates.take ((laps.length + 1) * setting.config.maxBatchSize.toNat) ∧
          e'.taken = min gates.length ((laps.length + 1) * setting.config.maxBatchSize.toNat)) ∨
      (∃ (laps : List (Lap G)) (front hook : List Move) (custody custody' : Custody S),
          moves = .inner none :: .inner none :: (front ++ (hook ++ [.inner none])) ∧
          Laps setting laps front ∧
          Path ⟨setting.controller.afterEvaluation setting.me, custody⟩ hook ⟨.fail error, custody'⟩ ∧
          Cut setting.config.maxBatchSize.toNat gates (laps.map Lap.gates) ∧
          e'.taken = gates.length) ∨
      e.aborted = some error ∧ moves = [.inner none] ∧ e' = e := by
  have hsize := Config.maxBatchSize_pos hconfig
  constructor
  · rintro summary rfl
    obtain ⟨_, -, heq, -⟩ | ⟨-, ⟨_, _, heq, rfl, hstream⟩ | ⟨_, _, _, heq, -⟩⟩ := ended_of_evaluate h
    · cases heq
    · obtain rfl := Except.ok.inj heq
      obtain ⟨laps, front, hook, custody, custody', rfl, hruns⟩ := exists_laps_runStream hsize hstream
      exact ⟨laps, front, hook, custody, custody', rfl, hruns⟩
    · cases heq
  · rintro error rfl
    obtain ⟨_, haborted, heq, hmoves, hsame⟩ | ⟨-, ⟨_, _, heq, -⟩ | ⟨_, _, last, heq, rfl, rfl, hstream⟩⟩ :=
      ended_of_evaluate h
    · obtain rfl := Except.error.inj heq
      exact .inr (.inr ⟨haborted, hmoves, hsame⟩)
    · cases heq
    · obtain rfl := Except.error.inj heq
      obtain ⟨laps, batch, start, front, back, rfl, hruns, hpath, hrest⟩ |
          ⟨laps, front, hook, custody, custody', rfl, hruns⟩ := exists_laps_runStream_error hsize hstream
      · exact .inl ⟨laps, batch, start, last, front, back, by simp, hruns, hpath, hrest⟩
      · exact .inr (.inl ⟨laps, front, hook, custody, custody', by simp, hruns⟩)

/-- Three gates that take two rounds each, in batches of two. -/
theorem evaluate_partitions_three :
    let me : Party := ⟨0, 2, ⟨.ofNat 7, by decide⟩, .ofNat 2, by decide, by decide, by decide⟩
    let config : Config := ⟨2, 100, 128, 1024⟩
    let setting : Setting Schedule := ⟨me, config, Schedule.controller config⟩
    let gate : CircuitGate := .compute
      ⟨false, fun seen => .ok (if seen.length = 2 then .done else .moreRounds), []⟩
    let start : Evaluator Schedule CircuitGate Board := .start .start default .empty
    config.validate = .ok () ∧ ∃ moves final, ∃ laps : List (Lap CircuitGate),
      Path ⟨evaluate setting [gate, gate, gate], start⟩ moves ⟨.ofExcept (.ok ⟨3, 2, 0⟩), final⟩ ∧
      Cut 2 [gate, gate, gate] (laps.map Lap.gates) ∧ final.taken = 3 := by
  intro me config setting gate start
  have hconfig : setting.config.validate = .ok () := by decide
  have hreturned : ((⟨evaluate setting [gate, gate, gate], start⟩ : Actor _ _).settle 100).2.program.value? =
      some ⟨3, 2, 0⟩ := by
    decide +kernel
  obtain ⟨moves, final, hpath⟩ := Path.exists_pure hreturned
  obtain ⟨laps, -, -, -, -, -, -, -, hcut, -, -, htaken⟩ := (evaluate_partitions hconfig hpath).1 _ rfl
  exact ⟨hconfig, moves, final, laps, hpath, hcut, htaken⟩

end Evaluator
end AuthenticatedMpc
