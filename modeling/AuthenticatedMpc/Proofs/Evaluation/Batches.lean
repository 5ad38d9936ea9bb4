import AuthenticatedMpc.Evaluation
import AuthenticatedMpc.Proofs.Circuit.Batches
import AuthenticatedMpc.Proofs.Evaluation.Hooks

/-!
# Batches that all parties evaluate

The parties have everything in common between two batches but their shares. Whatever the schedule
checks, each value that was opened stands on the board, or is held back for the next check.
-/

namespace AuthenticatedMpc

/-- What all parties have in common between two batches. -/
structure Shared where
  control : Schedule
  /-- What was opened since the last check. -/
  pending : List Deal
  board : Board
  /-- The outputs that are not released. -/
  staged : List Deal
  summary : Summary
  batches : UInt64

/-- The gates on a bench are done and hold the outputs of the given ones back. -/
structure DealtGate.Done (gates : List DealtGate) (slots : List (Slot CircuitGate)) : Prop where
  length_eq : slots.length = gates.length
  release : ∀ board : Board, ((slots.map Slot.gate).filter Gate.revealsOutput).foldl
    (fun board gate => Gate.release gate board) board =
      board.publishDeals (DealtGate.outputs gates)

namespace Shared

/-- The evaluator of a party is where all parties are. -/
structure Describes (shared : Shared) (word : Nat → UInt64) (i : PartyId)
    (evaluator : Evaluator Schedule CircuitGate Board) : Prop where
  holds : (Evaluator.custodyPart.get evaluator).Holds shared.control shared.pending word i
  board_eq : evaluator.board = shared.board
  release : ∀ board : Board, evaluator.staged.foldl (fun board gate => Gate.release gate board)
    board = board.publishDeals shared.staged
  summary_eq : evaluator.summary = shared.summary
  batches_eq : evaluator.batches = shared.batches
  aborted_eq : evaluator.aborted = none

namespace Describes

variable {shared : Shared} {word : Nat → UInt64} {i : PartyId} {control : Schedule}
  {pending : List Deal} {evaluator : Evaluator Schedule CircuitGate Board}
  {gates : List DealtGate}

theorem setCustody (h : shared.Describes word i evaluator) {custody : Custody Schedule}
    (hcustody : custody.Holds control pending word i) :
    { shared with control, pending }.Describes word i (Evaluator.custodyPart.set evaluator custody) :=
  { h with holds := hcustody }

theorem setBench (h : shared.Describes word i evaluator) {bench : Bench CircuitGate Board}
    {board : Board} (hrecords : bench.desk.ledger.records = pending.map (Deal.record · i))
    (hboard : bench.desk.board = board) :
    { shared with pending, board }.Describes word i (Evaluator.benchPart.set evaluator bench) :=
  { h with
    holds := { h.holds with records_eq := hrecords }
    board_eq := hboard }

theorem isEmpty_iff (h : shared.Describes word i evaluator) :
    evaluator.ledger.isEmpty = true ↔ shared.pending = [] := by
  rw [Ledger.isEmpty_iff, ← List.map_eq_nil_iff (f := (Deal.record · i)), ← h.holds.records_eq]
  rfl

end Describes

/-- What is held back is released if nothing is left to check. -/
def releaseVerified (shared : Shared) : Shared :=
  if shared.pending = [] then
    { shared with board := shared.board.publishDeals shared.staged, staged := [] }
  else shared

theorem Describes.releaseVerified {shared : Shared} {word : Nat → UInt64} {i : PartyId}
    {evaluator : Evaluator Schedule CircuitGate Board} (h : shared.Describes word i evaluator) :
    shared.releaseVerified.Describes word i evaluator.releaseVerified := by
  unfold Shared.releaseVerified Evaluator.releaseVerified
  by_cases hpending : shared.pending = []
  · rw [if_pos hpending, if_pos (h.isEmpty_iff.mpr hpending)]
    exact { h with board_eq := by rw [h.release, h.board_eq], release := fun _ => rfl }
  · rw [if_neg hpending, if_neg (mt h.isEmpty_iff.mp hpending)]
    exact h

def finishBatch (gates : List DealtGate) (shared : Shared) : Shared :=
  { shared with
    batches := shared.batches + 1
    summary :=
      { shared.summary with
        batches := shared.summary.batches + 1
        gates := shared.summary.gates + gates.length }
    staged := shared.staged ++ DealtGate.outputs gates }

theorem Describes.finishBatch {shared : Shared} {word : Nat → UInt64} {i : PartyId}
    {evaluator : Evaluator Schedule CircuitGate Board} {gates : List DealtGate}
    (h : shared.Describes word i evaluator) (hdone : DealtGate.Done gates evaluator.slots) :
    (shared.finishBatch gates).Describes word i evaluator.finishBatch where
  holds := h.holds
  board_eq := h.board_eq
  release board := by
    rw [Evaluator.finishBatch, List.foldl_append, h.release, hdone.release]
    exact List.foldl_append.symm
  summary_eq := by
    rw [Evaluator.finishBatch, Shared.finishBatch, h.summary_eq, List.length_map, hdone.length_eq]
  batches_eq := congrArg (· + 1) h.batches_eq
  aborted_eq := h.aborted_eq

/-- After these gates of a stream, what they have opened stands on the board, but for the outputs
that are held back, and so does what was opened before the stream. -/
structure HoldsOpened (all known : List Deal) (gates : List DealtGate) (shared : Shared) : Prop where
  faithful : shared.board.Faithful all
  known : ∀ deal ∈ known, shared.board.Holds deal
  opening : ∀ deal ∈ DealtGate.openings gates, shared.board.Holds deal
  output : ∀ deal ∈ DealtGate.outputs gates, shared.board.Holds deal ∨ deal ∈ shared.staged
  staged : shared.staged ⊆ all
  pending : shared.pending ⊆ all

namespace HoldsOpened

variable {shared : Shared} {all known : List Deal} {gates batch : List DealtGate}

theorem releaseVerified (h : shared.HoldsOpened all known gates)
    (hnodup : (all.map Deal.handle).Nodup) :
    shared.releaseVerified.HoldsOpened all known gates := by
  unfold Shared.releaseVerified
  split
  · refine ⟨h.faithful.publishDeals h.staged, fun deal hdeal => (h.known deal hdeal).publishDeals,
      fun deal hdeal => (h.opening deal hdeal).publishDeals, fun deal hdeal => ?_,
      List.nil_subset _, h.pending⟩
    obtain hheld | hstaged := h.output deal hdeal
    · exact .inl hheld.publishDeals
    · exact .inl (h.faithful.holds_publishDeals h.staged hnodup hstaged)
  · exact h

/-- A batch adds its openings to the board and its outputs to those held back. -/
theorem finishBatch (h : shared.HoldsOpened all known gates) (hnodup : (all.map Deal.handle).Nodup)
    (hbatch : DealtGate.deals batch ⊆ all) {control : Schedule} {pending : List Deal}
    (hpending : pending ⊆ all) :
    (Shared.finishBatch batch
      { shared with control, pending, board := DealtGate.publishAll batch shared.board }).HoldsOpened
        all known (gates ++ batch) := by
  have hopenings := List.Subset.trans (DealtGate.openings_subset batch) hbatch
  have houtputs := List.Subset.trans (DealtGate.outputs_subset batch) hbatch
  rw [DealtGate.publishAll_eq]
  refine ⟨h.faithful.publishDeals hopenings, fun deal hdeal => (h.known deal hdeal).publishDeals,
    fun deal hdeal => ?_, fun deal hdeal => ?_, List.append_subset.mpr ⟨h.staged, houtputs⟩,
    hpending⟩
  · rw [DealtGate.openings, List.filterMap_append, List.mem_append] at hdeal
    obtain hdeal | hdeal := hdeal
    · exact (h.opening deal hdeal).publishDeals
    · exact h.faithful.holds_publishDeals hopenings hnodup hdeal
  · rw [DealtGate.outputs, List.filterMap_append, List.mem_append] at hdeal
    obtain hdeal | hdeal := hdeal
    · exact (h.output deal hdeal).imp Board.Holds.publishDeals (List.mem_append_left _)
    · exact .inr (List.mem_append_right _ hdeal)

end HoldsOpened
end Shared

/-- What a gate that comes after the given ones sees on the boards of its rounds. -/
structure Sights (all known : List Deal) (before : List DealtGate) (sights : Nat → Board) :
    Prop where
  faithful : ∀ k, (sights k).Faithful all
  known : ∀ k, ∀ deal ∈ known, (sights k).Holds deal
  opening : ∀ k > 0, ∀ deal ∈ DealtGate.openings before, (sights k).Holds deal

/-- After the given gates, the gate is done in time on all boards that it can see. -/
def DealtGate.Computes (table : Table) (all known : List Deal) (before : List DealtGate)
    (gate : DealtGate) : Prop :=
  ∀ (i : Fin table.parties) sights, Sights all known before sights → gate.Finishes i sights

def DealtGate.StreamComputes (table : Table) (all known : List Deal) (gates : List DealtGate) :
    Prop :=
  ∀ before gate after, gates = before ++ gate :: after → gate.Computes table all known before

theorem DealtGate.streamComputes_output {table : Table} {all known : List Deal} {deal : Deal} :
    StreamComputes table all known [.output deal] := by
  intro before gate after hgates i sights _
  simp only [List.cons_eq_append_iff, List.cons.injEq, List.nil_eq_append_iff, reduceCtorEq,
    and_false, exists_const, or_false] at hgates
  obtain ⟨rfl, rfl, rfl⟩ := hgates
  trivial

theorem DealtGate.streamComputes_of_single_output {table : Table} {all : List Deal} {deal : Deal}
    (front : List (List DealtGate)) (gates : List DealtGate) (back : List (List DealtGate))
    (h : [[DealtGate.output deal]] = front ++ gates :: back) :
    StreamComputes table all (deals front.flatten) gates := by
  have hmem : gates ∈ [[DealtGate.output deal]] := by simp [h]
  rw [List.mem_singleton.mp hmem]
  exact streamComputes_output

def Table.setting (table : Table) (config : Config) (i : Fin table.parties) : Setting Schedule :=
  ⟨table.party i, config, Schedule.controller config⟩

section Batch

variable {table : Table} {config : Config} {word : Fin table.parties → Nat → UInt64}
  {all known : List Deal} {before batch gates : List DealtGate} {shared : Shared}
  {evaluator : Fin table.parties → Evaluator Schedule CircuitGate Board}

theorem Shared.HoldsOpened.sights (h : shared.HoldsOpened all known before)
    (hnodup : (all.map Deal.handle).Nodup) {front back : List DealtGate}
    (hdeals : DealtGate.deals (front ++ back) ⊆ all) :
    Sights all known (before ++ front) (sightsFrom shared.board
      (DealtGate.publishAll front shared.board)
      (DealtGate.publishAll (front ++ back) shared.board)) := by
  have hall := List.Subset.trans (DealtGate.openings_subset _) hdeals
  have hfront : DealtGate.openings front ⊆ DealtGate.openings (front ++ back) := by
    rw [DealtGate.openings, DealtGate.openings, List.filterMap_append]
    exact List.subset_append_left ..
  have hsight : ∀ k, ∃ deals ⊆ all, (k > 0 → DealtGate.openings front ⊆ deals) ∧
      sightsFrom shared.board (DealtGate.publishAll front shared.board)
        (DealtGate.publishAll (front ++ back) shared.board) k = shared.board.publishDeals deals := by
    intro k
    rcases k with _ | _ | k
    · exact ⟨[], List.nil_subset _, fun h => absurd h (Nat.lt_irrefl 0), rfl⟩
    · exact ⟨_, List.Subset.trans hfront hall, fun _ => List.Subset.refl _,
        DealtGate.publishAll_eq⟩
    · exact ⟨_, hall, fun _ => hfront, DealtGate.publishAll_eq⟩
  refine ⟨fun k => ?_, fun k deal hdeal => ?_, fun k hk deal hdeal => ?_⟩ <;>
    obtain ⟨deals, hsub, hopened, heq⟩ := hsight k <;> rw [heq]
  · exact h.faithful.publishDeals hsub
  · exact (h.known deal hdeal).publishDeals
  · rw [DealtGate.openings, List.filterMap_append, List.mem_append] at hdeal
    obtain hdeal | hdeal := hdeal
    · exact (h.opening deal hdeal).publishDeals
    · exact h.faithful.holds_publishDeals hsub hnodup (hopened hk hdeal)

theorem together_process (hvalid : ∀ deal ∈ DealtGate.deals batch, deal.Valid table)
    (hfinishes : ∀ front gate back, batch = front ++ gate :: back →
      ∀ i : Fin table.parties, gate.Finishes i (sightsFrom shared.board
        (DealtGate.publishAll front shared.board) (DealtGate.publishAll batch shared.board)))
    (h : ∀ i, shared.Describes (word i) i (evaluator i)) :
    Together table (fun i => (Bench.process (table.party i)).zoom Evaluator.benchPart)
      (fun i => Evaluator.load (table.setting config i) (batch.map (DealtGate.gate i))
        (evaluator i))
      fun i _ final =>
        { shared with
          pending := shared.pending ++ DealtGate.deals batch
          board := DealtGate.publishAll batch shared.board }.Describes (word i) i final ∧
        DealtGate.Done batch final.slots := by
  have hbench : ∀ i, Evaluator.benchPart.get (Evaluator.load (table.setting config i)
      (batch.map (DealtGate.gate i)) (evaluator i)) =
        DealtGate.bench batch i (.circuit shared.batches)
          (Evaluator.benchPart.get (evaluator i)).desk := by
    intro i
    rw [Evaluator.load, Lens.get_set, (h i).batches_eq, Bench.load, List.map_map]
    rfl
  have hprocess := @Together.process table batch shared.board (.circuit shared.batches) hvalid
    hfinishes (fun i => (Evaluator.benchPart.get (evaluator i)).desk) fun i => (h i).board_eq
  simp only [← hbench] at hprocess
  refine .zoom (hprocess.mono fun i _ bench hbench => ⟨?_, hbench.length_eq, hbench.release⟩)
  refine Shared.Describes.setBench { h i with } ?_ hbench.board_eq
  rw [hbench.records_eq, List.map_append, ← (h i).holds.records_eq]
  rfl

theorem Shared.exists_together_hook {hook : Fin table.parties → Program (Custody Schedule) Unit}
    (hpending : shared.pending ⊆ all) (h : ∀ i, shared.Describes (word i) i (evaluator i))
    (hhook : ∃ control pending, (pending = shared.pending ∨ pending = []) ∧
      Together table hook (fun i => Evaluator.custodyPart.get (evaluator i))
        fun i _ custody => custody.Holds control pending (word i) i) :
    ∃ control pending, pending ⊆ all ∧
      Together table (fun i => (hook i).zoom Evaluator.custodyPart) evaluator fun i _ e =>
        { shared with control, pending }.Describes (word i) i e ∧
          e.slots = (evaluator i).slots := by
  obtain ⟨control, pending, hleft, htogether⟩ := hhook
  have hsub : pending ⊆ all := by
    obtain rfl | rfl := hleft
    · exact hpending
    · exact List.nil_subset _
  exact ⟨control, pending, hsub, .zoom (htogether.mono fun i _ custody hcustody =>
    ⟨(h i).setCustody hcustody, rfl⟩)⟩

variable (config) in
/-- All parties evaluate a batch, with or without a check before and after it. -/
theorem exists_together_runBatch (hvalid : ∀ deal ∈ all, deal.Valid table)
    (hnodup : (all.map Deal.handle).Nodup) (hdraws : ∀ i, Source.Draws table.modulus (word i))
    (hsound : shared.HoldsOpened all known before) (hdeals : DealtGate.deals batch ⊆ all)
    (hcomputes : ∀ front gate back, batch = front ++ gate :: back →
      gate.Computes table all known (before ++ front))
    (h : ∀ i, shared.Describes (word i) i (evaluator i)) :
    ∃ shared' : Shared, shared'.HoldsOpened all known (before ++ batch) ∧
      Together table
        (fun i => Evaluator.runBatch (table.setting config i) (batch.map (DealtGate.gate i)))
        evaluator fun i _ final => shared'.Describes (word i) i final := by
  have hvalidIn : ∀ {deals}, deals ⊆ all → ∀ deal ∈ deals, deal.Valid table :=
    fun hsub deal hdeal => hvalid deal (hsub hdeal)
  have hreveals : ∀ i : Fin table.parties, (batch.map (DealtGate.gate i)).map Gate.revealsOutput =
      batch.map DealtGate.revealsOutput := by
    intro i
    rw [List.map_map]
    refine List.map_congr_left fun gate _ => ?_
    cases gate <;> rfl
  simp only [Evaluator.runBatch, hreveals, List.length_map]
  have htake : Together table
      (fun _ => Program.record (.taken batch.length) fun evaluator =>
        { evaluator with taken := evaluator.taken + batch.length })
      evaluator fun i _ e => shared.Describes (word i) i e :=
    .of_silent fun i => ⟨(), _, ⟨rfl, rfl, rfl⟩, { h i with }⟩
  refine htake.exists_bind fun _ e₁ h₁ => ?_
  -- The hook before the batch.
  obtain ⟨control, pending, hsub, hbefore⟩ := Shared.exists_together_hook hsound.pending h₁
    (exists_together_beforeBatch config (hvalidIn hsound.pending) hdraws (fun i => (h₁ i).holds)
      (batch.map DealtGate.revealsOutput))
  refine hbefore.exists_bind fun _ e₂ h₂ => ?_
  -- The batch.
  have hload : Together table
      (fun i => Program.modify
        (Evaluator.load (table.setting config i) (batch.map (DealtGate.gate i))))
      e₂ fun i _ e => e = Evaluator.load (table.setting config i) (batch.map (DealtGate.gate i))
        (e₂ i) :=
    .of_silent fun i => ⟨(), _, ⟨rfl, rfl, rfl⟩, rfl⟩
  refine hload.exists_bind fun _ e₃ h₃ => ?_
  obtain rfl : e₃ = _ := funext h₃
  refine (together_process (hvalidIn hdeals) (fun front gate back heq i => hcomputes front gate back
    heq i _ (heq ▸ hsound.sights hnodup (heq ▸ hdeals))) fun i => (h₂ i).1).exists_bind
      fun _ e₄ h₄ => ?_
  -- The hook after the batch.
  have hopened : pending ++ DealtGate.deals batch ⊆ all := List.append_subset.mpr ⟨hsub, hdeals⟩
  obtain ⟨control', pending', hsub', hafter⟩ := Shared.exists_together_hook hopened
    (fun i => (h₄ i).1) (exists_together_afterBatch config (hvalidIn hopened) hdraws
      (fun i => (h₄ i).1.holds) batch.length)
  refine hafter.exists_bind fun _ e₅ h₅ => ?_
  have hdone : ∀ i, DealtGate.Done batch (e₅ i).slots := fun i => (h₅ i).2.symm ▸ (h₄ i).2
  exact ⟨_, (hsound.finishBatch hnodup hdeals hsub').releaseVerified hnodup, .of_silent fun i =>
    ⟨(), _, ⟨rfl, rfl, rfl⟩, ((h₅ i).1.finishBatch (hdone i)).releaseVerified⟩⟩

end Batch
end AuthenticatedMpc
