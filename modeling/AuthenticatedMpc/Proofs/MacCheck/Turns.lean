import AuthenticatedMpc.Proofs.Field.Sampling
import AuthenticatedMpc.Proofs.MacCheck.Chunks
import AuthenticatedMpc.Proofs.MacCheck.Slices

/-!
# Driving a MAC check

A check is driven by taking a slice, evaluating its gates and giving all of them back. Whatever the
sizes of slices and chunks, a check that is driven goes through its stages in their order and commits
to the compression of all its records.
-/

namespace AuthenticatedMpc

/-- What an evaluated gate may have become. The commitments and the contributions of others are
whatever was received; contributions are below the modulus. -/
inductive CheckGate.Evaluates (me : Party) : CheckGate → CheckGate → Prop
  | commit (gate : CommitGate) {commitments : List Commitment} (hne : commitments ≠ []) :
      Evaluates me (.commit gate) (.commit { gate with commitments })
  | decommit (gate : DecommitGate) {sum : Element}
      (hsum : me.modulus.Reduced gate.value → me.modulus.Reduced sum) :
      Evaluates me (.decommit gate) (.decommit { gate with sum := some sum })
  | accumulate (gate : AccumulateGate) :
      Evaluates me (.accumulate gate) (.accumulate (gate.evaluate me))

theorem CheckGate.exists_evaluates (me : Party) (gate : CheckGate) :
    ∃ evaluated, Evaluates me gate evaluated := by
  cases gate with
  | commit gate => exact ⟨_, .commit gate (List.cons_ne_nil gate.commitment [])⟩
  | decommit gate => exact ⟨_, .decommit gate id⟩
  | accumulate gate => exact ⟨_, .accumulate gate⟩

theorem CheckGate.exists_forall₂_evaluates (me : Party) (gates : List CheckGate) :
    ∃ evaluated, List.Forall₂ (Evaluates me) gates evaluated := by
  induction gates with
  | nil => exact ⟨[], .nil⟩
  | cons gate gates ih =>
    obtain ⟨evaluated, hgate⟩ := exists_evaluates me gate
    obtain ⟨rest, hgates⟩ := ih
    exact ⟨evaluated :: rest, .cons hgate hgates⟩

/-- The gates that a check hands out together: one that talks, or any number that do not. -/
inductive CheckGate.IsSlice : List CheckGate → Prop
  | commit (commitment : Commitment) : IsSlice [.commit ⟨commitment, []⟩]
  | decommit (own : Element) (nonce : Nonce) (commitments : List Commitment) :
      IsSlice [.decommit ⟨own, nonce, commitments, none⟩]
  | accumulate {parts : List AccumulateGate} (hne : parts ≠ []) :
      IsSlice (parts.map .accumulate)

/-- Evaluating a slice as a batch makes of its gates what gates may become. -/
theorem CheckGate.IsSlice.evaluates {me : Party} {gates : List CheckGate} (h : IsSlice gates)
    {bench bench' : Bench CheckGate Unit} {phase : Phase} {talk : List Signal} {rounds : Nat}
    (hprocess : (Bench.process me).Ends (bench.load gates phase me.parties) talk (.ok rounds)
      bench') : List.Forall₂ (Evaluates me) gates bench'.gates := by
  cases h with
  | commit commitment =>
    obtain ⟨-, others, -, rfl⟩ := ends_process_commit.mp hprocess
    exact .cons (.commit ⟨commitment, []⟩ Party.placed_ne_nil) .nil
  | decommit own nonce commitments =>
    obtain ⟨-, value, nonces, -, hopens, rfl⟩ := ends_process_decommit.mp hprocess
    have hvalues : ∀ v ∈ me.peers.map value, me.modulus.Reduced v := by
      intro v hv
      obtain ⟨q, hq, rfl⟩ := List.mem_map.mp hv
      exact Modulus.reduced_iff.mpr (hopens q hq).1
    refine .cons (.decommit ⟨own, nonce, commitments, none⟩ fun hown => ?_) .nil
    exact Modulus.reduced_foldl_add hown hvalues
  | @accumulate parts hne =>
    have hload : bench.load (parts.map .accumulate) phase me.parties =
        ⟨parts.map fun part => ⟨CheckGate.accumulate part, false⟩,
          { bench.desk with rounds := .start phase me.parties }⟩ := by
      simp [Bench.load]
    rw [hload] at hprocess
    obtain ⟨-, -, rfl⟩ := hprocess.unique
      (Verifier.ends_process_accumulate hne bench.desk phase me.parties) (List.append_nil _)
    simp only [Bench.gates, List.map_map, List.forall₂_map_left_iff, List.forall₂_map_right_iff,
      List.forall₂_same]
    exact fun part _ => .accumulate part

/-- A slice of a check that was taken, evaluated and given back. -/
structure Turn where
  /-- Where the check stood before. -/
  stage : Stage
  /-- The evaluated gates. -/
  gates : List CheckGate

/-- The turns that lead from a check to another one, and how far they have read the source. -/
inductive Driven (me : Party) (start : MacCheck) (source : Source) :
    List Turn → MacCheck → Source → Prop
  | start : Driven me start source [] start source
  | turn {turns : List Turn} {check handed next : MacCheck} {source₁ source₂ : Source}
      {gates evaluated : List CheckGate} {outcome : Except Error Unit}
      (driven : Driven me start source turns check source₁)
      (more : check.hasNext = true)
      (taken : check.nextSlice source₁ = some ((.ok gates, handed), source₂))
      (evaluates : List.Forall₂ (CheckGate.Evaluates me) gates evaluated)
      (returned : handed.absorb evaluated = (outcome, next)) :
      Driven me start source (turns ++ [⟨check.stage, evaluated⟩]) next source₂

/-! ## Where turns lead -/

/-- The two turns in which a value is committed to and revealed, taken in the given stages. -/
def exchangeTurns (first second : Stage) (own : Element) (nonce : Nonce)
    (commitments : List Commitment) (sum : Element) : List Turn :=
  [⟨first, [.commit ⟨.commit own nonce, commitments⟩]⟩,
    ⟨second, [.decommit ⟨own, nonce, commitments, some sum⟩]⟩]

def compressingTurn (me : Party) (combiner : Element) (chunks : List (List Record)) : Turn :=
  ⟨.compressing, chunks.map fun chunk =>
    .accumulate ((MacCheck.accumulation combiner chunk).evaluate me)⟩

/-- The exchange of the combiner, and the slices of chunks compressed under it. -/
structure Passage where
  own : Element
  nonce : Nonce
  commitments : List Commitment
  combiner : Element
  slices : List (List (List Record))

namespace Passage

variable (me : Party) (records : List Record) (config : Config) (passage : Passage)

def chunks : List (List Record) := passage.slices.flatten

def turns : List Turn :=
  exchangeTurns .idle .awaitingCombiner passage.own passage.nonce passage.commitments
      passage.combiner ++
    passage.slices.map (compressingTurn me passage.combiner)

def value : Element := compressChunks me.modulus passage.combiner me.keyShare passage.chunks

/-- The combiner is below the modulus; slices and chunks have the sizes of the configuration and
cover the records before `place`. -/
structure Covers (place : Nat) : Prop where
  combiner : me.modulus.Reduced passage.combiner
  sliced : ∀ chunks ∈ passage.slices,
    1 ≤ chunks.length ∧ chunks.length ≤ max config.macCheckBatchSize.toNat 1
  chunked : Chunked records (max config.accumulateChunkSize.toNat 1) passage.chunks place

/-- The passage goes on by one more slice. -/
def concat (chunks : List (List Record)) : Passage :=
  { passage with slices := passage.slices ++ [chunks] }

variable {me records config passage}

theorem chunks_concat (chunks : List (List Record)) :
    (passage.concat chunks).chunks = passage.chunks ++ chunks := by
  simp [Passage.chunks, concat]

theorem turns_concat (chunks : List (List Record)) :
    (passage.concat chunks).turns me =
      passage.turns me ++ [compressingTurn me passage.combiner chunks] := by
  simp [turns, concat]

theorem Covers.concat {place place' : Nat} {chunks : List (List Record)}
    (h : passage.Covers me records config place) (hchunks : chunks ≠ [])
    (hlength : chunks.length ≤ max config.macCheckBatchSize.toNat 1)
    (hchunked : Chunked records (max config.accumulateChunkSize.toNat 1)
      (passage.chunks ++ chunks) place') :
    (passage.concat chunks).Covers me records config place' where
  combiner := h.combiner
  sliced slice hslice := by
    obtain hold | hnew := List.mem_append.mp hslice
    · exact h.sliced slice hold
    · rw [List.mem_singleton.mp hnew]
      exact ⟨List.length_pos_iff.mpr hchunks, hlength⟩
  chunked := chunks_concat chunks ▸ hchunked

end Passage

/-- Where a check over the records stands after the given turns. -/
inductive Reached (me : Party) (number : UInt64) (records : List Record) (config : Config) :
    List Turn → MacCheck → Prop
  | idle : Reached me number records config [] (.start number records me.modulus config)
  | committed {own : Element} (hown : me.modulus.Reduced own) (nonce : Nonce)
      (commitments : List Commitment) :
      Reached me number records config [⟨.idle, [.commit ⟨.commit own nonce, commitments⟩]⟩]
        { MacCheck.start number records me.modulus config with
          stage := .awaitingCombiner
          contribution := some (own, nonce)
          commitments := some commitments }
  | compressing (passage : Passage) {place : Nat} (hplace : place < records.length)
      (covers : passage.Covers me records config place) :
      Reached me number records config (passage.turns me)
        { MacCheck.start number records me.modulus config with
          stage := .compressing
          nextRecord := place
          combiner := passage.combiner
          checkValue := passage.value me }
  | compressed (passage : Passage) (covers : passage.Covers me records config records.length) :
      Reached me number records config (passage.turns me)
        { MacCheck.start number records me.modulus config with
          stage := .awaitingCommit
          records := []
          nextRecord := records.length
          combiner := passage.combiner
          checkValue := passage.value me }
  | recommitted (passage : Passage) (covers : passage.Covers me records config records.length)
      (nonce : Nonce) (commitments : List Commitment) :
      Reached me number records config
        (passage.turns me ++
          [⟨.awaitingCommit, [.commit ⟨.commit (passage.value me) nonce, commitments⟩]⟩])
        { MacCheck.start number records me.modulus config with
          stage := .awaitingOpen
          records := []
          nextRecord := records.length
          contribution := some (passage.value me, nonce)
          commitments := some commitments
          combiner := passage.combiner
          checkValue := passage.value me }
  | ended (passage : Passage) (covers : passage.Covers me records config records.length)
      (nonce : Nonce) (commitments : List Commitment) (sum : Element) :
      Reached me number records config
        (passage.turns me ++
          exchangeTurns .awaitingCommit .awaitingOpen (passage.value me) nonce commitments sum)
        { MacCheck.start number records me.modulus config with
          stage := if sum.isZero then .verified else .failed
          records := []
          nextRecord := records.length
          combiner := passage.combiner
          checkValue := passage.value me }

section Progresses

variable (me : Party) (number : UInt64) (records : List Record) (config : Config)

/-- The next slice is handed out, and whatever its evaluation gives is taken back; nothing but a sum
that is not zero ends the check. -/
def Progresses (turns : List Turn) (check : MacCheck) (source : Source) : Prop :=
  ∃ gates handed source', check.nextSlice source = some ((.ok gates, handed), source') ∧
    CheckGate.IsSlice gates ∧ handed.number = number ∧
    ∀ evaluated, List.Forall₂ (CheckGate.Evaluates me) gates evaluated →
      ∃ outcome next, handed.absorb evaluated = (outcome, next) ∧
        Reached me number records config (turns ++ [⟨check.stage, evaluated⟩]) next ∧
        (outcome = .ok () ∨
          outcome = .error (.macCheckFailed number) ∧ next.stage = .failed)

variable {me number records config}

theorem forall₂_evaluates_commit {gate : CommitGate} {evaluated : List CheckGate}
    (h : List.Forall₂ (CheckGate.Evaluates me) [.commit gate] evaluated) :
    ∃ commitments ≠ [], evaluated = [.commit { gate with commitments }] := by
  rcases h with _ | ⟨hgate, hrest⟩
  cases hgate with
  | commit gate hne =>
    cases hrest
    exact ⟨_, hne, rfl⟩

theorem forall₂_evaluates_decommit {gate : DecommitGate} {evaluated : List CheckGate}
    (h : List.Forall₂ (CheckGate.Evaluates me) [.decommit gate] evaluated) :
    ∃ sum, (me.modulus.Reduced gate.value → me.modulus.Reduced sum) ∧
      evaluated = [.decommit { gate with sum := some sum }] := by
  rcases h with _ | ⟨hgate, hrest⟩
  cases hgate with
  | decommit gate hsum =>
    cases hrest
    exact ⟨_, hsum, rfl⟩

theorem forall₂_evaluates_accumulate {parts : List AccumulateGate} {evaluated : List CheckGate}
    (h : List.Forall₂ (CheckGate.Evaluates me) (parts.map .accumulate) evaluated) :
    evaluated = parts.map fun part => .accumulate (part.evaluate me) := by
  induction parts generalizing evaluated with
  | nil =>
    cases h
    rfl
  | cons part parts ih =>
    rcases h with _ | ⟨hgate, hrest⟩
    cases hgate with
    | accumulate gate => rw [List.map_cons, ih hrest]

theorem progresses_idle (hne : records ≠ []) {source source₁ : Source} {own : Element}
    (hdraw : me.modulus.draw source = some (own, source₁)) :
    Progresses me number records config [] (.start number records me.modulus config) source := by
  have hidle : (MacCheck.start number records me.modulus config).stage = .idle := by
    simp [MacCheck.start, hne]
  obtain ⟨nonce, source₂, hnonce⟩ : ∃ nonce source₂, Nonce.draw source₁ = some (nonce, source₂) :=
    ⟨_, _, rfl⟩
  refine ⟨_, _, _, MacCheck.nextSlice_idle hidle rfl rfl hdraw hnonce, .commit _, rfl, ?_⟩
  intro evaluated hevaluated
  obtain ⟨commitments, hcommitments, rfl⟩ := forall₂_evaluates_commit hevaluated
  refine ⟨_, _, MacCheck.absorb_commitments rfl hcommitments rfl rfl, ?_, .inl rfl⟩
  rw [hidle]
  exact .committed (Modulus.reduced_draw hdraw) nonce commitments

theorem progresses_committed (hne : records ≠ []) (source : Source) {own : Element}
    (hown : me.modulus.Reduced own) (nonce : Nonce) (commitments : List Commitment) :
    Progresses me number records config [⟨.idle, [.commit ⟨.commit own nonce, commitments⟩]⟩]
      { MacCheck.start number records me.modulus config with
        stage := .awaitingCombiner
        contribution := some (own, nonce)
        commitments := some commitments } source := by
  refine ⟨_, _, _, MacCheck.nextSlice_reveal (.inl rfl) rfl rfl rfl, .decommit _ _ _, rfl, ?_⟩
  intro evaluated hevaluated
  obtain ⟨combiner, hcombiner, rfl⟩ := forall₂_evaluates_decommit hevaluated
  refine ⟨_, _, MacCheck.absorb_combiner rfl rfl rfl rfl, ?_, .inl rfl⟩
  let passage : Passage := ⟨own, nonce, commitments, combiner, []⟩
  have hcovers : passage.Covers me records config 0 := ⟨hcombiner hown, by simp [passage], .nil _ _⟩
  exact .compressing passage (List.length_pos_iff.mpr hne) hcovers

theorem progresses_compressed (passage : Passage)
    (covers : passage.Covers me records config records.length) (source : Source) :
    Progresses me number records config (passage.turns me)
      { MacCheck.start number records me.modulus config with
        stage := .awaitingCommit
        records := []
        nextRecord := records.length
        combiner := passage.combiner
        checkValue := passage.value me } source := by
  obtain ⟨nonce, source', hnonce⟩ : ∃ nonce source', Nonce.draw source = some (nonce, source') :=
    ⟨_, _, rfl⟩
  refine ⟨_, _, _, MacCheck.nextSlice_awaitingCommit rfl rfl hnonce, .commit _, rfl, ?_⟩
  intro evaluated hevaluated
  obtain ⟨commitments, hcommitments, rfl⟩ := forall₂_evaluates_commit hevaluated
  refine ⟨_, _, MacCheck.absorb_checkCommitments rfl hcommitments rfl, ?_, .inl rfl⟩
  exact .recommitted passage covers nonce commitments

theorem progresses_recommitted (passage : Passage)
    (covers : passage.Covers me records config records.length) (nonce : Nonce)
    (commitments : List Commitment) (source : Source) :
    Progresses me number records config
      (passage.turns me ++
        [⟨.awaitingCommit, [.commit ⟨.commit (passage.value me) nonce, commitments⟩]⟩])
      { MacCheck.start number records me.modulus config with
        stage := .awaitingOpen
        records := []
        nextRecord := records.length
        contribution := some (passage.value me, nonce)
        commitments := some commitments
        combiner := passage.combiner
        checkValue := passage.value me } source := by
  refine ⟨_, _, _, MacCheck.nextSlice_reveal (.inr rfl) rfl rfl rfl, .decommit _ _ _, rfl, ?_⟩
  intro evaluated hevaluated
  obtain ⟨sum, -, rfl⟩ := forall₂_evaluates_decommit hevaluated
  refine ⟨_, _, MacCheck.absorb_checkValues rfl rfl rfl, ?_, ?_⟩
  · rw [List.append_assoc]
    exact .ended passage covers nonce commitments sum
  · by_cases hsum : sum.isZero = true
    · exact .inl (if_pos hsum)
    · exact .inr ⟨if_neg hsum, if_neg hsum⟩

theorem progresses_compressing (passage : Passage) {place : Nat} (hplace : place < records.length)
    (covers : passage.Covers me records config place) (source : Source) :
    Progresses me number records config (passage.turns me)
      { MacCheck.start number records me.modulus config with
        stage := .compressing
        nextRecord := place
        combiner := passage.combiner
        checkValue := passage.value me } source := by
  let check : MacCheck := { MacCheck.start number records me.modulus config with
    stage := .compressing
    nextRecord := place
    combiner := passage.combiner
    checkValue := passage.value me }
  have hsize : 0 < check.chunkSize := lt_max_of_lt_right Nat.one_pos
  have hlimit : 0 < min check.sliceSize records.length :=
    lt_min (lt_max_of_lt_right Nat.one_pos) (by omega)
  obtain ⟨more, hgates, hcount, hchunked⟩ :=
    MacCheck.chunked_accumulateFrom hsize (min check.sliceSize records.length) covers.chunked
  have hlast := MacCheck.lt_accumulateFrom hplace hlimit hsize
  have hparts : check.nextParts.1 =
      (more.map (MacCheck.accumulation passage.combiner)).map .accumulate := by
    rw [List.map_map]
    exact hgates
  have hmore : more ≠ [] := by
    rintro rfl
    exact hlast.2 hgates
  have hslice : CheckGate.IsSlice check.nextParts.1 := by
    rw [hparts]
    exact .accumulate (by simpa using hmore)
  refine ⟨_, _, _, MacCheck.nextSlice_compressing rfl rfl hlast.2, hslice, rfl, ?_⟩
  intro evaluated hevaluated
  rw [hparts] at hevaluated
  obtain rfl := forall₂_evaluates_accumulate hevaluated
  rw [List.map_map]
  have hcovers : (passage.concat more).Covers me records config check.nextParts.2 :=
    covers.concat hmore (hcount.trans (min_le_left _ _)) hchunked
  have hfold := @MacCheck.foldChunks_accumulation me passage.combiner more
    { check with nextRecord := check.nextParts.2, outstanding := false } rfl passage.chunks rfl
  rw [← Passage.chunks_concat] at hfold
  refine ⟨_, _, MacCheck.advance_compressing rfl hfold, ?_, .inl rfl⟩
  change Reached me number records config
    (passage.turns me ++ [compressingTurn me passage.combiner more]) _
  rw [← Passage.turns_concat]
  split
  · next hend =>
    have hplace' : check.nextParts.2 = records.length := le_antisymm hcovers.chunked.le hend
    rw [hplace'] at hcovers ⊢
    exact .compressed (passage.concat more) hcovers
  · next hend => exact .compressing (passage.concat more) (Nat.lt_of_not_le hend) hcovers

/-- A check that is not at its end goes on, unless it waits for its first draw. -/
theorem Reached.progresses (hne : records ≠ []) {turns : List Turn} {check : MacCheck}
    (reached : Reached me number records config turns check) (more : check.hasNext = true)
    {source : Source} (hdraw : check.stage = .idle → ∃ drawn, me.modulus.draw source = some drawn) :
    Progresses me number records config turns check source := by
  cases reached with
  | idle =>
    have hidle : (MacCheck.start number records me.modulus config).stage = .idle := by
      simp [MacCheck.start, hne]
    obtain ⟨⟨own, source₁⟩, hdrawn⟩ := hdraw hidle
    exact progresses_idle hne hdrawn
  | committed hown nonce commitments => exact progresses_committed hne source hown nonce commitments
  | compressing passage hplace covers => exact progresses_compressing passage hplace covers source
  | compressed passage covers => exact progresses_compressed passage covers source
  | recommitted passage covers nonce commitments =>
    exact progresses_recommitted passage covers nonce commitments source
  | ended passage covers nonce commitments sum =>
    by_cases hsum : sum.isZero = true <;> simp [MacCheck.hasNext, hsum] at more

/-- A slice that is there has not waited for a draw in vain. -/
theorem Reached.exists_draw {turns : List Turn} {check : MacCheck}
    (reached : Reached me number records config turns check) (more : check.hasNext = true)
    {source : Source} (htaken : check.nextSlice source ≠ none) (hidle : check.stage = .idle) :
    ∃ drawn, me.modulus.draw source = some drawn := by
  refine Option.ne_none_iff_exists'.mp fun hnone => ?_
  cases reached with
  | idle => exact htaken (MacCheck.nextSlice_idle_eq_none hidle rfl rfl hnone)
  | committed | compressing | compressed | recommitted => cases hidle
  | ended passage covers nonce commitments sum =>
    by_cases hsum : sum.isZero = true <;> simp [MacCheck.hasNext, hsum] at more

theorem Driven.reached (hne : records ≠ []) {turns : List Turn} {check : MacCheck}
    {source source' : Source}
    (driven : Driven me (.start number records me.modulus config) source turns check source') :
    Reached me number records config turns check := by
  induction driven with
  | start => exact .idle
  | @turn turns check handed next source₁ source₂ gates evaluated outcome driven more taken
      evaluates returned ih =>
    have htaken : check.nextSlice source₁ ≠ none := by simp [taken]
    have hdraw := ih.exists_draw more htaken
    obtain ⟨_, _, _, htaken, -, -, hback⟩ := ih.progresses hne more hdraw
    rw [taken] at htaken
    cases htaken
    obtain ⟨_, _, hreturned, hreached, -⟩ := hback evaluated evaluates
    rw [returned] at hreturned
    cases hreturned
    exact hreached

theorem Driven.runSlice (hne : records ≠ []) {turns : List Turn} {v v' : Verifier}
    {source : Source} {talk : List Signal}
    (driven : Driven me (.start number records me.modulus config) source turns v.check v.generator)
    (more : v.check.hasNext = true) {outcome : Except Error Unit} (houtcome : Decided outcome)
    (hrun : (Verifier.runSlice me).Ends v talk outcome v') :
    Driven me (.start number records me.modulus config) source
      (turns ++ [⟨v.check.stage, v'.bench.gates⟩]) v'.check v'.generator := by
  have hdraw := (driven.reached hne).exists_draw more fun hnone =>
    Verifier.not_ends_runSlice hnone hrun
  obtain ⟨gates, handed, next, htaken, hslice, -⟩ := (driven.reached hne).progresses hne more hdraw
  obtain ⟨bench, rounds, hprocess, houtcome, rfl⟩ :=
    (Verifier.ends_runSlice_of_decided houtcome htaken).mp hrun
  exact driven.turn more htaken (hslice.evaluates hprocess) (Prod.ext houtcome.symm rfl)

end Progresses

end AuthenticatedMpc
