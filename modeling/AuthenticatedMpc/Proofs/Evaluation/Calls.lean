import AuthenticatedMpc.Proofs.Evaluation.Batches
import AuthenticatedMpc.Simulation.Player

/-!
# Calls that all parties make

At the end of a call nothing is left to check and nothing is held back: all its values stand on the
board.
-/

namespace AuthenticatedMpc

theorem batchesWithin_map {α β : Type} (f : α → β) (size count : Nat) (elements : List α) :
    batchesWithin size count (elements.map f) =
      (batchesWithin size count elements).map (List.map f) := by
  induction count generalizing elements with
  | zero => rfl
  | succ count ih =>
    unfold batchesWithin
    rw [← List.map_take, ← List.map_drop, ih]
    cases elements.take size <;> rfl

theorem batches_map {α β : Type} (f : α → β) (size : Nat) (elements : List α) :
    batches size (elements.map f) = (batches size elements).map (List.map f) := by
  rw [batches, List.length_map]
  exact batchesWithin_map ..

theorem Config.maxBatchSize_pos {config : Config} (h : config.validate = .ok ()) :
    0 < config.maxBatchSize.toNat := by
  unfold Config.validate at h
  split at h
  · cases h
  · next hfind =>
    have hsize := List.find?_eq_none.mp hfind .maxBatchSize (by decide)
    rw [beq_iff_eq] at hsize
    exact Nat.pos_of_ne_zero fun hzero => hsize (UInt64.toNat_inj.mp hzero)

namespace Shared

variable {shared : Shared} {word : Nat → UInt64} {i : PartyId} {all known : List Deal}
  {gates : List DealtGate} {evaluator : Evaluator Schedule CircuitGate Board}

def begin (shared : Shared) : Shared := { shared with staged := [], summary := .start }

theorem Describes.begin (h : shared.Describes word i evaluator) :
    shared.begin.Describes word i evaluator.begin :=
  { h with
    release := fun _ => rfl
    summary_eq := rfl }

def summarize (shared : Shared) : Shared :=
  { shared with summary := { shared.summary with macChecks := shared.control.checksPerformed } }

theorem Describes.summarize (h : shared.Describes word i evaluator) :
    shared.releaseVerified.summarize.Describes word i
      { evaluator.releaseVerified with
        summary :=
          { evaluator.summary with macChecks := evaluator.control.checksPerformed } } :=
  { h.releaseVerified with
    summary_eq := by
      have hcontrol : evaluator.control = shared.control := h.holds.control_eq
      rw [h.summary_eq, hcontrol, Shared.summarize, Shared.releaseVerified]
      split <;> rfl }

/-- Between calls nothing is left to check, and what was opened stands on the board. -/
structure NothingPending (all known : List Deal) (shared : Shared) : Prop where
  faithful : shared.board.Faithful all
  holds : ∀ deal ∈ known, shared.board.Holds deal
  pending_eq : shared.pending = []

theorem NothingPending.summarize (h : shared.NothingPending all known) :
    shared.summarize.NothingPending all known :=
  ⟨h.faithful, h.holds, h.pending_eq⟩

theorem NothingPending.begin (h : shared.NothingPending all known) :
    shared.begin.HoldsOpened all known [] where
  faithful := h.faithful
  known := h.holds
  opening := nofun
  output := nofun
  staged := List.nil_subset _
  pending := by
    rw [Shared.begin, h.pending_eq]
    exact List.nil_subset _

theorem HoldsOpened.settled (h : shared.HoldsOpened all known gates)
    (hnodup : (all.map Deal.handle).Nodup)
    (hpending : shared.pending = []) :
    shared.releaseVerified.NothingPending all (known ++ DealtGate.deals gates) := by
  have hreleased := h.releaseVerified hnodup
  rw [Shared.releaseVerified, if_pos hpending] at hreleased ⊢
  refine ⟨hreleased.faithful, fun deal hdeal => ?_, hpending⟩
  obtain hknown | hdeal := List.mem_append.mp hdeal
  · exact hreleased.known deal hknown
  obtain hopening | houtput := DealtGate.mem_deals.mp hdeal
  · exact hreleased.opening deal hopening
  · exact (hreleased.output deal houtput).resolve_right List.not_mem_nil

end Shared

section Stream

variable {table : Table} {config : Config} {word : Fin table.parties → Nat → UInt64}
  {all known : List Deal} {before gates : List DealtGate} {batches : List (List DealtGate)}
  {shared : Shared} {evaluator : Fin table.parties → Evaluator Schedule CircuitGate Board}

variable (config) in
theorem exists_together_runBatches (hvalid : ∀ deal ∈ all, deal.Valid table)
    (hnodup : (all.map Deal.handle).Nodup) (hdraws : ∀ i, Source.Draws table.modulus (word i))
    (hsound : shared.HoldsOpened all known before) (hdeals : DealtGate.deals batches.flatten ⊆ all)
    (hcomputes : ∀ front gate back, batches.flatten = front ++ gate :: back →
      gate.Computes table all known (before ++ front))
    (h : ∀ i, shared.Describes (word i) i (evaluator i)) :
    ∃ shared' : Shared, shared'.HoldsOpened all known (before ++ batches.flatten) ∧
      Together table (fun i => Evaluator.runBatches (table.setting config i)
          (batches.map (List.map (DealtGate.gate i))))
        evaluator fun i _ final => shared'.Describes (word i) i final := by
  induction batches generalizing before shared evaluator with
  | nil =>
    refine ⟨shared, ?_, .of_silent fun i => ⟨(), _, ⟨rfl, rfl, rfl⟩, h i⟩⟩
    rwa [List.flatten_nil, List.append_nil]
  | cons batch batches ih =>
    rw [List.flatten_cons, DealtGate.deals, List.filterMap_append, List.append_subset] at hdeals
    obtain ⟨shared', hsound', hbatch⟩ := exists_together_runBatch config hvalid hnodup
      hdraws hsound hdeals.1 (fun front gate back heq => hcomputes front gate
        (back ++ batches.flatten) (by rw [List.flatten_cons, heq]; simp)) h
    refine hbatch.exists_bind fun _ _ h' => ?_
    rw [List.flatten_cons, ← List.append_assoc]
    refine ih hsound' hdeals.2 (fun front gate back heq => ?_) h'
    rw [List.append_assoc]
    exact hcomputes _ gate back (by rw [List.flatten_cons, heq, List.append_assoc])

variable (hconfig : config.validate = .ok ()) (hvalid : ∀ deal ∈ all, deal.Valid table)
  (hnodup : (all.map Deal.handle).Nodup) (hdraws : ∀ i, Source.Draws table.modulus (word i))
  (hsettled : shared.NothingPending all known) (hdeals : DealtGate.deals gates ⊆ all)
  (hcomputes : DealtGate.StreamComputes table all known gates)
  (h : ∀ i, shared.Describes (word i) i (evaluator i))
include hconfig hvalid hnodup hdraws hsettled hdeals hcomputes h

theorem exists_together_runStream :
    ∃ shared' : Shared, shared'.NothingPending all (known ++ DealtGate.deals gates) ∧
      Together table
        (fun i => Evaluator.runStream (table.setting config i) (gates.map (DealtGate.gate i)))
        evaluator fun i summary final =>
          summary = shared'.summary ∧ shared'.Describes (word i) i final := by
  have hflatten := flatten_batches (Config.maxBatchSize_pos hconfig) gates
  have hbegin : Together table (fun _ => Program.modify Evaluator.begin) evaluator
      fun i _ e => shared.begin.Describes (word i) i e :=
    .of_silent fun i => ⟨(), _, ⟨rfl, rfl, rfl⟩, (h i).begin⟩
  refine hbegin.exists_bind fun _ e₁ h₁ => ?_
  obtain ⟨shared', hsound, hbatches⟩ := exists_together_runBatches config hvalid hnodup hdraws
    hsettled.begin (hflatten.symm ▸ hdeals)
    (fun front gate back heq => hcomputes front gate back (hflatten.symm.trans heq)) h₁
  rw [hflatten, List.nil_append] at hsound
  simp only [← batches_map] at hbatches
  refine hbatches.exists_bind fun _ e₂ h₂ => ?_
  obtain ⟨control, hverify⟩ := exists_together_verifyLedger config
    (fun deal hdeal => hvalid deal (hsound.pending hdeal)) hdraws fun i => (h₂ i).holds
  have hhook : Together table (fun i => ((table.setting config i).controller.afterEvaluation
        (table.setting config i).me).zoom Evaluator.custodyPart) e₂
      fun i _ e => { shared' with control, pending := [] }.Describes (word i) i e :=
    .zoom (hverify.mono fun i _ custody hcustody => (h₂ i).setCustody hcustody)
  refine hhook.exists_bind fun _ e₃ h₃ => ?_
  have hchecked : { shared' with control, pending := [] }.HoldsOpened all known gates :=
    { hsound with pending := List.nil_subset _ }
  exact ⟨_, (hchecked.settled hnodup rfl).summarize, .of_silent fun i =>
    ⟨_, _, ⟨rfl, rfl, rfl⟩, (h₃ i).summarize.summary_eq, (h₃ i).summarize⟩⟩

/-- All parties return from a call with the same summary. -/
theorem exists_together_evaluate :
    ∃ shared' : Shared, shared'.NothingPending all (known ++ DealtGate.deals gates) ∧
      Together table
        (fun i => Evaluator.evaluate (table.setting config i) (gates.map (DealtGate.gate i)))
        evaluator fun i summary final =>
          summary = shared'.summary ∧ shared'.Describes (word i) i final := by
  obtain ⟨shared', hsettled', hstream⟩ := exists_together_runStream hconfig hvalid hnodup hdraws
    hsettled hdeals hcomputes h
  refine ⟨shared', hsettled', hstream.of_ends fun i talk summary final hends => ?_⟩
  rw [Evaluator.evaluate, Program.ends_get_bind, (h i).aborted_eq]
  exact Program.ends_bind_ok.mpr ⟨_, _, talk, [], (List.append_nil _).symm,
    Program.ends_attempt.mpr ⟨_, rfl, hends⟩, rfl, rfl, rfl⟩

end Stream

/-! ## Players -/

namespace Player

variable {player : Player Schedule CircuitGate Board} {summaries : List Summary}

/-- The last call that has returned, if any, had the summary that stands in the list at its place.
Its outcome is kept before the call is counted. -/
def Reports (summaries : List Summary) (player : Player Schedule CircuitGate Board) : Prop :=
  (player.call = 0 ∧ player.outcome = none) ∨
    ∃ k summary, (player.call = k ∨ player.call = k + 1) ∧ summaries[k]? = some summary ∧
      player.outcome = some (.ok summary)

theorem Reports.append (h : player.Reports summaries) (more : List Summary) :
    player.Reports (summaries ++ more) := by
  refine h.imp_right ?_
  rintro ⟨k, summary, hcall, hsummary, houtcome⟩
  obtain ⟨hlt, -⟩ := List.getElem?_eq_some_iff.mp hsummary
  exact ⟨k, summary, hcall, by rw [List.getElem?_append_left hlt, hsummary], houtcome⟩

/-- A call is counted only once it has returned with the summary that stands in the list at its
place. -/
def Counts (summaries : List Summary) (before after : Player Schedule CircuitGate Board) : Prop :=
  after.call = before.call ∨
    after.call = before.call + 1 ∧ before.outcome = (summaries[before.call]?).map .ok

end Player

section Play

variable {table : Table} {config : Config} {word : Fin table.parties → Nat → UInt64}
  {all known : List Deal} {calls : List (List DealtGate)}
  {shared : Shared} {player : Fin table.parties → Player Schedule CircuitGate Board}
  {done : List Summary}

def Player.returnWith (player : Player Schedule CircuitGate Board) (summary : Summary)
    (evaluator : Evaluator Schedule CircuitGate Board) : Player Schedule CircuitGate Board :=
  ⟨evaluator, player.call + 1, some (.ok summary)⟩

theorem Player.ends_playCall {setting : Setting Schedule} {gates : List CircuitGate}
    {player : Player Schedule CircuitGate Board} {talk : List Signal} {summary : Summary}
    {final : Evaluator Schedule CircuitGate Board}
    (h : (Evaluator.evaluate setting gates).Ends player.evaluator talk (.ok summary) final) :
    (playCall setting gates).Ends player talk (.ok ()) (player.returnWith summary final) :=
  Program.ends_bind_ok.mpr ⟨_, _, talk, [], (List.append_nil _).symm,
    Program.ends_attempt.mpr ⟨_, rfl, Program.ends_zoom.mpr ⟨_, rfl, h⟩⟩, rfl, rfl, rfl⟩

theorem Player.stays_playCall {setting : Setting Schedule} {gates : List CircuitGate}
    {player : Player Schedule CircuitGate Board} {talk : List Signal} {summary : Summary}
    {final : Evaluator Schedule CircuitGate Board}
    (h : (Evaluator.evaluate setting gates).Ends player.evaluator talk (.ok summary) final)
    (hcall : player.call = done.length) (hreports : player.Reports done) (later : List Summary) :
    (playCall setting gates).Stays (Reports (done ++ summary :: later))
      (Counts (done ++ summary :: later)) player talk := by
  have hbefore : ∀ evaluator, (evaluatorPart.set player evaluator).Reports
      (done ++ summary :: later) := fun _ => hreports.append _
  have hafter : ∀ call, (call = player.call ∨ call = player.call + 1) →
      (⟨final, call, some (.ok summary)⟩ : Player ..).Reports (done ++ summary :: later) :=
    fun call hreturned => .inr ⟨player.call, summary, hreturned, by simp [hcall], rfl⟩
  rw [← List.append_nil talk]
  refine Program.Ends.stays_bind (Program.ends_attempt.mpr
    ⟨_, rfl, Program.ends_zoom.mpr ⟨_, rfl, h⟩⟩)
    (Program.stays_zoom hbefore fun _ _ => .inl rfl).attempt ?_
  exact ⟨hbefore _, .inl rfl, hafter _ (.inl rfl), .inl rfl, hafter _ (.inl rfl),
    .inr ⟨rfl, by simp [evaluatorPart, hcall]⟩, hafter _ (.inr rfl)⟩

/-- One conversation takes all parties through their calls. -/
theorem exists_playCalls (hconfig : config.validate = .ok ())
    (hvalid : ∀ deal ∈ all, deal.Valid table) (hnodup : (all.map Deal.handle).Nodup)
    (hdraws : ∀ i, Source.Draws table.modulus (word i)) (hsettled : shared.NothingPending all known)
    (hdeals : DealtGate.deals calls.flatten ⊆ all)
    (hcomputes : ∀ front gates back, calls = front ++ gates :: back →
      DealtGate.StreamComputes table all (known ++ DealtGate.deals front.flatten) gates)
    (h : ∀ i, shared.Describes (word i) i (player i).evaluator)
    (hcall : ∀ i, (player i).call = done.length) (hreports : ∀ i, (player i).Reports done) :
    ∃ shared' : Shared, shared'.NothingPending all (known ++ DealtGate.deals calls.flatten) ∧
      ∃ (later : List Summary) (exchanges : List (PartyId → Packet))
        (final : Fin table.parties → Player Schedule CircuitGate Board),
        later.length = calls.length ∧ ∀ i,
          (Player.playCalls (table.setting config i)
            (calls.map (List.map (DealtGate.gate i)))).Ends (player i)
              (conversation (table.party i) exchanges) (.ok ()) (final i) ∧
          (Player.playCalls (table.setting config i)
            (calls.map (List.map (DealtGate.gate i)))).Stays (Player.Reports (done ++ later))
              (Player.Counts (done ++ later)) (player i)
              (conversation (table.party i) exchanges) ∧
          shared'.Describes (word i) i (final i).evaluator ∧
          (final i).call = (done ++ later).length ∧ (final i).Reports (done ++ later) := by
  induction calls generalizing known shared player done with
  | nil =>
    refine ⟨shared, ?_, [], [], player, rfl, fun i => ?_⟩
    · rwa [List.flatten_nil, DealtGate.deals, List.filterMap_nil, List.append_nil]
    · rw [List.append_nil]
      exact ⟨⟨rfl, rfl, rfl⟩, hreports i, h i, hcall i, hreports i⟩
  | cons gates calls ih =>
    rw [List.flatten_cons, DealtGate.deals, List.filterMap_append, List.append_subset] at hdeals
    obtain ⟨shared₁, hsettled₁, front, value, e₁, h₁⟩ := exists_together_evaluate hconfig hvalid
      hnodup hdraws hsettled hdeals.1 (by simpa [DealtGate.deals] using hcomputes [] gates calls rfl) h
    have hstream : ∀ front other back, calls = front ++ other :: back →
        DealtGate.StreamComputes table all
          (known ++ DealtGate.deals gates ++ DealtGate.deals front.flatten) other := by
      intro front other back heq
      have hother := hcomputes (gates :: front) other back (by rw [heq]; rfl)
      rwa [List.flatten_cons, DealtGate.deals, List.filterMap_append, ← List.append_assoc] at hother
    obtain ⟨shared₂, hsettled₂, later, back, final, hlength, h₂⟩ := @ih _ shared₁
      (fun i => (player i).returnWith shared₁.summary (e₁ i)) (done ++ [shared₁.summary])
      hsettled₁ hdeals.2 hstream (fun i => (h₁ i).2.2) (fun i => by simp [Player.returnWith, hcall])
      fun i => .inr ⟨done.length, shared₁.summary, .inr (by rw [Player.returnWith, hcall]),
        by simp, rfl⟩
    refine ⟨shared₂, ?_, shared₁.summary :: later, front ++ back, final, by simp [hlength],
      fun i => ?_⟩
    · rwa [List.flatten_cons, DealtGate.deals, List.filterMap_append, ← List.append_assoc]
    · obtain ⟨hends, hvalue, -⟩ := h₁ i
      obtain ⟨hendsLater, hstays, hfinal⟩ := h₂ i
      rw [List.append_assoc, List.singleton_append] at hstays hfinal
      rw [conversation_append]
      rw [hvalue] at hends
      have hplay := Player.ends_playCall hends
      exact ⟨hplay.bind hendsLater, hplay.stays_bind
        (Player.stays_playCall hends (hcall i) (hreports i) later) hstays, hfinal⟩

/-- What an honest party comes to: its calls have ended well, nothing is left to check, and all
dealt values stand on its board. -/
structure Player.Complete (summaries : List Summary) (deals : List Deal)
    (player : Player Schedule CircuitGate Board) : Prop where
  call_eq : player.call = summaries.length
  outcome_eq : player.outcome = summaries.getLast?.map .ok
  ledger_eq : player.evaluator.ledger = .empty
  holds : ∀ deal ∈ deals, player.evaluator.board.Holds deal

theorem Player.Reports.outcome_eq {player : Player Schedule CircuitGate Board}
    {summaries : List Summary} (h : player.Reports summaries)
    (hcall : player.call = summaries.length) : player.outcome = summaries.getLast?.map .ok := by
  obtain ⟨hzero, houtcome⟩ | ⟨k, summary, hk, hsummary, houtcome⟩ := h
  · rw [houtcome, List.length_eq_zero_iff.mp (hcall.symm.trans hzero)]
    rfl
  · obtain ⟨hlt, -⟩ := List.getElem?_eq_some_iff.mp hsummary
    rw [houtcome, List.getLast?_eq_getElem?, show summaries.length - 1 = k by omega, hsummary]
    rfl

section Start

variable {source : Fin table.parties → Source} (hconfig : config.validate = .ok ())
  (hvalid : ∀ deal ∈ DealtGate.deals calls.flatten, deal.Valid table)
  (hnodup : ((DealtGate.deals calls.flatten).map Deal.handle).Nodup)
  (hcomputes : ∀ front gates back, calls = front ++ gates :: back →
    DealtGate.StreamComputes table (DealtGate.deals calls.flatten)
      (DealtGate.deals front.flatten) gates)
  (hdraws : ∀ i, Source.Draws table.modulus (source i).word)
include hconfig hvalid hnodup hcomputes hdraws

theorem exists_playCalls_start :
    ∃ (summaries : List Summary) (exchanges : List (PartyId → Packet))
      (final : Fin table.parties → Player Schedule CircuitGate Board),
      summaries.length = calls.length ∧ ∀ i,
        (Player.playCalls (table.setting config i) (calls.map (List.map (DealtGate.gate i)))).Ends
          { evaluator := .start .start (source i) .empty }
          (conversation (table.party i) exchanges) (.ok ()) (final i) ∧
        (Player.playCalls (table.setting config i) (calls.map (List.map (DealtGate.gate i)))).Stays
          (Player.Reports summaries) (Player.Counts summaries)
          { evaluator := .start .start (source i) .empty }
          (conversation (table.party i) exchanges) ∧
        (final i).Complete summaries (DealtGate.deals calls.flatten) ∧
        (final i).Reports summaries := by
  let shared : Shared := ⟨.start, [], .empty, [], .start, 0⟩
  have hsettled : shared.NothingPending (DealtGate.deals calls.flatten) [] :=
    ⟨Board.faithful_empty, nofun, rfl⟩
  obtain ⟨shared', hsettled', summaries, exchanges, final, hlength, h⟩ :=
    @exists_playCalls table config _ _ [] calls shared
      (fun i => { evaluator := .start .start (source i) .empty }) [] hconfig hvalid hnodup hdraws
      hsettled (List.Subset.refl _) (by simpa using hcomputes)
      (fun i => ⟨⟨rfl, rfl, rfl⟩, rfl, fun _ => rfl, rfl, rfl, rfl⟩) (fun _ => rfl)
      fun _ => .inl ⟨rfl, rfl⟩
  simp only [List.nil_append] at hsettled' h
  refine ⟨summaries, exchanges, final, hlength, fun i => ?_⟩
  obtain ⟨hends, hstays, hmeets, hcall, hreports⟩ := h i
  refine ⟨hends, hstays, ⟨hcall, hreports.outcome_eq hcall, ?_, fun deal hdeal => ?_⟩, hreports⟩
  · have hrecords := hmeets.holds.records_eq
    rw [hsettled'.pending_eq] at hrecords
    exact congrArg Ledger.mk hrecords
  · rw [hmeets.board_eq]
    exact hsettled'.holds deal hdeal

/-- A party has a run in which all its calls end well. -/
theorem exists_path_playCalls (i : Fin table.parties) :
    ∃ (summaries : List Summary) (moves : List Move) (final : Player Schedule CircuitGate Board),
      Path ⟨Player.playCalls (table.setting config i) (calls.map (List.map (DealtGate.gate i))),
        { evaluator := .start .start (source i) .empty }⟩ moves ⟨.pure (), final⟩ ∧
      final.Complete summaries (DealtGate.deals calls.flatten) := by
  obtain ⟨summaries, exchanges, final, -, h⟩ :=
    exists_playCalls_start hconfig hvalid hnodup hcomputes hdraws
  obtain ⟨moves, hpath, -, -⟩ := ends_iff_path.mp (h i).1
  exact ⟨summaries, moves, final i, hpath, (h i).2.2.1⟩

theorem exists_path_outcome_eq (hcalls : calls ≠ []) (i : Fin table.parties) :
    ∃ (moves : List Move) (final : Player Schedule CircuitGate Board) (summary : Summary),
      Path ⟨Player.playCalls (table.setting config i) (calls.map (List.map (DealtGate.gate i))),
        { evaluator := .start .start (source i) .empty }⟩ moves ⟨.pure (), final⟩ ∧
      final.outcome = some (.ok summary) := by
  obtain ⟨summaries, exchanges, final, hlength, h⟩ :=
    exists_playCalls_start hconfig hvalid hnodup hcomputes hdraws
  obtain ⟨moves, hpath, -, -⟩ := ends_iff_path.mp (h i).1
  have hne : summaries ≠ [] := by
    rintro rfl
    exact hcalls (List.length_eq_zero_iff.mp hlength.symm)
  refine ⟨moves, final i, summaries.getLast hne, hpath, ?_⟩
  rw [(h i).2.2.1.outcome_eq, List.getLast?_eq_some_getLast hne]
  rfl

end Start

/-- A party has a run in which it opens a single value as an output, and checks it. -/
theorem exists_path_output {source : Source} {deal : Deal} (hconfig : config.validate = .ok ())
    (hvalid : deal.Valid table) (hdraws : Source.Draws table.modulus source.word)
    (i : Fin table.parties) :
    ∃ (moves : List Move) (final : Player Schedule CircuitGate Board) (summary : Summary),
      Path ⟨Player.playCalls (table.setting config i) [[.output (deal.opening i false)]],
        { evaluator := .start .start source .empty }⟩ moves ⟨.pure (), final⟩ ∧
      final.outcome = some (.ok summary) := by
  exact @exists_path_outcome_eq table config [[.output deal]] (fun _ => source) hconfig
    (List.forall_mem_singleton.mpr hvalid) (List.nodup_singleton _)
    DealtGate.streamComputes_of_single_output (fun _ => hdraws) (List.cons_ne_nil _ _) i

theorem exists_path_runBatch {source : Fin table.parties → Source} {batch : List DealtGate}
    (hvalid : ∀ deal ∈ DealtGate.deals batch, deal.Valid table)
    (hnodup : ((DealtGate.deals batch).map Deal.handle).Nodup)
    (hcomputes : DealtGate.StreamComputes table (DealtGate.deals batch) [] batch)
    (hdraws : ∀ i, Source.Draws table.modulus (source i).word) (i : Fin table.parties) :
    ∃ (moves : List Move) (final : Evaluator Schedule CircuitGate Board),
      Path ⟨Evaluator.runBatch (table.setting config i) (batch.map (DealtGate.gate i)),
        .start .start (source i) .empty⟩ moves ⟨.pure (), final⟩ := by
  let shared : Shared := ⟨.start, [], .empty, [], .start, 0⟩
  have hsettled : shared.NothingPending (DealtGate.deals batch) [] :=
    ⟨Board.faithful_empty, nofun, rfl⟩
  have hstart : ∀ i, shared.Describes (source i).word i (.start .start (source i) .empty) :=
    fun i => ⟨⟨rfl, rfl, rfl⟩, rfl, fun _ => rfl, rfl, rfl, rfl⟩
  obtain ⟨_, -, _, _, final, h⟩ := exists_together_runBatch config hvalid hnodup hdraws
    hsettled.begin (List.Subset.refl _) hcomputes hstart
  obtain ⟨moves, hpath, -, -⟩ := ends_iff_path.mp (h i).1
  exact ⟨moves, final i, hpath⟩

end Play

end AuthenticatedMpc
