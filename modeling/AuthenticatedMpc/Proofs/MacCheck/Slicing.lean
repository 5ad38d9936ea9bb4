import AuthenticatedMpc.Proofs.MacCheck.Turns

/-!
# Slices of any size

However the records of a check are cut into chunks and these into slices, a check that is driven goes
through its stages in their order, has every record in one chunk, and commits to the compression of
all its records.
-/

namespace AuthenticatedMpc

/-! ## What a drive goes through -/

def CheckGate.chunk? : CheckGate → Option (List Record)
  | .accumulate gate => some gate.records
  | _ => none

def Turn.chunks (turn : Turn) : List (List Record) := turn.gates.filterMap CheckGate.chunk?

@[simp] theorem Turn.chunks_commit (stage : Stage) (gate : CommitGate) :
    (Turn.mk stage [.commit gate]).chunks = [] := rfl

@[simp] theorem Turn.chunks_decommit (stage : Stage) (gate : DecommitGate) :
    (Turn.mk stage [.decommit gate]).chunks = [] := rfl

/-- The stages in their order; compressing may take any number of turns. -/
def Stage.route (count : Nat) (last : Stage) : List Stage :=
  [.idle, .awaitingCombiner] ++ List.replicate count .compressing ++
    [.awaitingCommit, .awaitingOpen, last]

section Drives

variable {me : Party} {number : UInt64} {records : List Record} {config : Config}
  {turns : List Turn} {check : MacCheck}

theorem chunks_compressingTurn (combiner : Element) (chunks : List (List Record)) :
    (compressingTurn me combiner chunks).chunks = chunks := by
  rw [compressingTurn, Turn.chunks, List.filterMap_map]
  exact List.filterMap_some

namespace Passage

variable {passage : Passage} {place : Nat}

theorem chunks_turns (passage : Passage) :
    (passage.turns me).flatMap Turn.chunks = passage.chunks := by
  have hslices : (passage.slices.map (compressingTurn me passage.combiner)).flatMap Turn.chunks =
      passage.chunks := by
    rw [List.flatMap_map, chunks, List.flatten_eq_flatMap]
    exact List.flatMap_congr fun slice _ => chunks_compressingTurn passage.combiner slice
  rw [turns, List.flatMap_append, hslices]
  rfl

theorem stages_turns (passage : Passage) :
    (passage.turns me).map Turn.stage =
      [.idle, .awaitingCombiner] ++ List.replicate passage.slices.length .compressing := by
  have hslices : (passage.slices.map (compressingTurn me passage.combiner)).map Turn.stage =
      List.replicate passage.slices.length .compressing := by
    rw [List.map_map]
    exact List.map_eq_replicate_iff.mpr fun slice _ => rfl
  rw [turns, List.map_append, hslices]
  rfl

theorem Covers.length_slices_le (covers : passage.Covers me records config place) :
    passage.slices.length ≤ place := by
  have hslices : passage.slices.length ≤ passage.chunks.length := by
    rw [chunks, List.length_flatten, ← List.length_map List.length]
    refine List.length_le_sum_of_one_le _ ?_
    intro count hcount
    obtain ⟨slice, hslice, rfl⟩ := List.mem_map.mp hcount
    exact (covers.sliced slice hslice).1
  have hchunks : passage.chunks.length ≤ passage.chunks.flatten.length := by
    rw [List.length_flatten, ← List.length_map List.length]
    refine List.length_le_sum_of_one_le _ ?_
    intro count hcount
    obtain ⟨chunk, hchunk, rfl⟩ := List.mem_map.mp hcount
    exact (covers.chunked.sized chunk hchunk).1
  rw [covers.chunked.length_flatten] at hchunks
  exact hslices.trans hchunks

theorem Covers.one_le_length_slices (hne : records ≠ [])
    (covers : passage.Covers me records config records.length) : 1 ≤ passage.slices.length := by
  refine List.length_pos_iff.mpr fun hslices => hne ?_
  have hflatten := covers.chunked.flatten
  rw [chunks, hslices, List.take_length] at hflatten
  exact hflatten.symm

theorem Covers.sliced_turns (covers : passage.Covers me records config place) :
    ∀ turn ∈ passage.turns me,
      1 ≤ turn.gates.length ∧ turn.gates.length ≤ max config.macCheckBatchSize.toNat 1 := by
  intro turn hturn
  rcases List.mem_append.mp hturn with hexchange | hslice
  · rcases List.mem_pair.mp hexchange with rfl | rfl
    · exact ⟨le_rfl, le_max_right _ _⟩
    · exact ⟨le_rfl, le_max_right _ _⟩
  · obtain ⟨slice, hmem, rfl⟩ := List.mem_map.mp hslice
    simpa [compressingTurn] using covers.sliced slice hmem

end Passage

theorem Reached.length_le (reached : Reached me number records config turns check) :
    turns.length ≤ records.length + 4 := by
  have hpassage : ∀ {passage : Passage} {place : Nat}, passage.Covers me records config place →
      (passage.turns me).length ≤ place + 2 := by
    intro passage place covers
    have hslices := covers.length_slices_le
    simp only [Passage.turns, exchangeTurns, List.length_append, List.length_map, List.length_cons,
      List.length_nil]
    omega
  cases reached with
  | idle => exact Nat.zero_le _
  | committed => simp
  | compressing passage hplace covers =>
    have := hpassage covers
    omega
  | compressed passage covers =>
    have := hpassage covers
    omega
  | recommitted passage covers =>
    have := hpassage covers
    rw [List.length_append, List.length_singleton]
    omega
  | ended passage covers =>
    have := hpassage covers
    rw [List.length_append]
    simp only [exchangeTurns, List.length_cons, List.length_nil]
    omega

theorem Reached.stages (hne : records ≠ [])
    (reached : Reached me number records config turns check) :
    ∃ count last, 1 ≤ count ∧ (last = .verified ∨ last = .failed) ∧
      turns.map Turn.stage ++ [check.stage] <+: Stage.route count last := by
  cases reached with
  | idle =>
    refine ⟨1, .verified, le_rfl, .inl rfl, ?_⟩
    have hidle : (MacCheck.start number records me.modulus config).stage = .idle := by
      simp [MacCheck.start, hne]
    rw [hidle]
    simp [Stage.route]
  | committed => exact ⟨1, .verified, le_rfl, .inl rfl, by simp [Stage.route]⟩
  | compressing passage =>
    refine ⟨passage.slices.length + 1, .verified, Nat.le_add_left _ _, .inl rfl, ?_⟩
    rw [passage.stages_turns, Stage.route, List.replicate_succ', ← List.append_assoc]
    exact List.prefix_append _ _
  | compressed passage covers =>
    refine ⟨passage.slices.length, .verified, covers.one_le_length_slices hne, .inl rfl, ?_⟩
    rw [passage.stages_turns, Stage.route]
    simp
  | recommitted passage covers =>
    refine ⟨passage.slices.length, .verified, covers.one_le_length_slices hne, .inl rfl, ?_⟩
    rw [List.map_append, passage.stages_turns, Stage.route]
    simp
  | ended passage covers nonce commitments sum =>
    refine ⟨passage.slices.length, if sum.isZero then .verified else .failed,
      covers.one_le_length_slices hne, ?_, ?_⟩
    · by_cases hsum : sum.isZero = true
      · exact .inl (if_pos hsum)
      · exact .inr (if_neg hsum)
    · rw [List.map_append, passage.stages_turns, Stage.route]
      simp [exchangeTurns]

theorem Reached.sliced (reached : Reached me number records config turns check) :
    ∀ turn ∈ turns,
      1 ≤ turn.gates.length ∧ turn.gates.length ≤ max config.macCheckBatchSize.toNat 1 := by
  cases reached with
  | idle => simp
  | committed => simp
  | compressing passage hplace covers => exact covers.sliced_turns
  | compressed passage covers => exact covers.sliced_turns
  | recommitted passage covers =>
    rw [List.forall_mem_append]
    exact ⟨covers.sliced_turns, by simp⟩
  | ended passage covers =>
    rw [List.forall_mem_append]
    refine ⟨covers.sliced_turns, ?_⟩
    simp [exchangeTurns]

/-- The chunks of all gates so far are those of the records before a place: the last one, when the
check is at its end. -/
theorem Reached.chunked (hne : records ≠ [])
    (reached : Reached me number records config turns check) :
    ∃ place, Chunked records (max config.accumulateChunkSize.toNat 1)
        (turns.flatMap Turn.chunks) place ∧
      (check.hasNext = false → place = records.length) := by
  cases reached with
  | idle =>
    refine ⟨0, .nil _ _, fun hended => ?_⟩
    simp [MacCheck.hasNext, MacCheck.start, hne] at hended
  | committed => exact ⟨0, .nil _ _, fun hended => by cases hended⟩
  | compressing passage hplace covers =>
    rw [passage.chunks_turns]
    exact ⟨_, covers.chunked, fun hended => by cases hended⟩
  | compressed passage covers =>
    rw [passage.chunks_turns]
    exact ⟨_, covers.chunked, fun _ => rfl⟩
  | recommitted passage covers =>
    rw [List.flatMap_append, passage.chunks_turns]
    refine ⟨_, ?_, fun _ => rfl⟩
    simpa using covers.chunked
  | ended passage covers =>
    rw [List.flatMap_append, passage.chunks_turns]
    refine ⟨_, ?_, fun _ => rfl⟩
    simpa [exchangeTurns] using covers.chunked

/-- What a drive over records goes through, wherever it stands. -/
structure Orderly (me : Party) (number : UInt64) (records : List Record) (config : Config)
    (turns : List Turn) (check : MacCheck) (source : Source) : Prop where
  /-- Unless the check is at its end, or a draw does not end, it hands out a slice and takes it back,
  whatever the gates of the slice have become. -/
  advances : check.hasNext = true →
    (check.stage = .idle → ∃ drawn, me.modulus.draw source = some drawn) →
    ∃ gates handed source', check.nextSlice source = some ((.ok gates, handed), source') ∧
      CheckGate.IsSlice gates ∧
      ∀ evaluated, List.Forall₂ (CheckGate.Evaluates me) gates evaluated →
        (handed.absorb evaluated).1 = .ok () ∨
          (handed.absorb evaluated).1 = .error (.macCheckFailed number) ∧
            (handed.absorb evaluated).2.stage = .failed
  length_le : turns.length ≤ records.length + 4
  stages : ∃ count last, 1 ≤ count ∧ (last = .verified ∨ last = .failed) ∧
    turns.map Turn.stage ++ [check.stage] <+: Stage.route count last
  sliced : ∀ turn ∈ turns,
    1 ≤ turn.gates.length ∧ turn.gates.length ≤ max config.macCheckBatchSize.toNat 1
  flatten : (turns.flatMap Turn.chunks).flatten <+: records
  sized : ∀ chunk ∈ turns.flatMap Turn.chunks,
    1 ≤ chunk.length ∧ chunk.length ≤ max config.accumulateChunkSize.toNat 1
  /-- Where a chunk may end at most is in the range of a word. -/
  indexed : ∀ front chunk back, turns.flatMap Turn.chunks = front ++ chunk :: back →
    front.flatten.length + max config.accumulateChunkSize.toNat 1 < 2 ^ 64
  /-- In the end the check has gone through all stages and all records; it has committed to the value
  of the chunks, and then revealed it. -/
  ended : check.hasNext = false →
    (turns.flatMap Turn.chunks).flatten = records ∧
    ∃ (passage : Passage) (nonce : Nonce) (commitments : List Commitment) (sum : Element),
      turns = passage.turns me ++
        exchangeTurns .awaitingCommit .awaitingOpen (passage.value me) nonce commitments sum ∧
      passage.slices ≠ [] ∧
      check.stage = (if sum.isZero then .verified else .failed) ∧
      me.modulus.Reduced passage.combiner ∧
      ((∀ record ∈ records, record.Reduced me.modulus) →
        passage.value me = (compress me.modulus passage.combiner me.keyShare records).value)

theorem Reached.of_hasNext_eq_false (hne : records ≠ [])
    (reached : Reached me number records config turns check)
    (hended : check.hasNext = false) :
    ∃ (passage : Passage) (nonce : Nonce) (commitments : List Commitment) (sum : Element),
      turns = passage.turns me ++
        exchangeTurns .awaitingCommit .awaitingOpen (passage.value me) nonce commitments sum ∧
      passage.slices ≠ [] ∧
      check.stage = (if sum.isZero then .verified else .failed) ∧
      me.modulus.Reduced passage.combiner ∧
      ((∀ record ∈ records, record.Reduced me.modulus) →
        passage.value me = (compress me.modulus passage.combiner me.keyShare records).value) := by
  cases reached with
  | idle => simp [MacCheck.hasNext, MacCheck.start, hne] at hended
  | committed | compressing | compressed | recommitted => cases hended
  | ended passage covers nonce commitments sum =>
    have hslices : passage.slices ≠ [] :=
      List.length_pos_iff.mp (covers.one_le_length_slices hne)
    refine ⟨passage, nonce, commitments, sum, rfl, hslices, rfl, covers.combiner, ?_⟩
    intro hrecords
    have hkey : me.modulus.Reduced me.keyShare := Modulus.reduced_iff.mpr me.keyShare_lt
    have hflatten : passage.chunks.flatten = records :=
      covers.chunked.flatten.trans List.take_length
    rw [Passage.value, compressChunks_eq covers.combiner hkey (by rwa [hflatten]), hflatten]

/-- Every drive over records is orderly, for every size of slices and of chunks. -/
theorem Driven.orderly (hne : records ≠ []) (hlength : records.length < 2 ^ 58)
    {source source' : Source}
    (driven : Driven me (.start number records me.modulus config) source turns check source') :
    Orderly me number records config turns check source' := by
  have hreached := driven.reached hne
  obtain ⟨place, hchunked, hplace⟩ := hreached.chunked hne
  have hsize : max config.accumulateChunkSize.toNat 1 < 2 ^ 64 :=
    max_lt config.accumulateChunkSize.toNat_lt (by norm_num)
  exact {
    advances := by
      intro more hdraw
      obtain ⟨gates, handed, next, htaken, hslice, -, hback⟩ := hreached.progresses hne more hdraw
      refine ⟨gates, handed, next, htaken, hslice, ?_⟩
      intro evaluated hevaluated
      obtain ⟨outcome, check', habsorb, -, houtcome⟩ := hback evaluated hevaluated
      rw [habsorb]
      exact houtcome
    length_le := hreached.length_le
    stages := hreached.stages hne
    sliced := hreached.sliced
    flatten := by
      rw [hchunked.flatten]
      exact List.take_prefix _ _
    sized := hchunked.sized
    indexed := fun front chunk back hsplit => hchunked.index_lt hlength hsize hsplit
    ended := by
      intro hended
      refine ⟨?_, hreached.of_hasNext_eq_false hne hended⟩
      rw [hchunked.flatten, hplace hended, List.take_length] }

theorem Driven.eq_source_of_idle {source source' : Source}
    (driven : Driven me (.start number records me.modulus config) source turns check source')
    (hne : records ≠ []) (hidle : check.stage = .idle) : source' = source := by
  have hnil : turns = [] := by
    cases driven.reached hne with
    | idle => rfl
    | committed | compressing | compressed | recommitted => cases hidle
    | ended passage covers nonce commitments sum =>
      by_cases hsum : sum.isZero = true <;> simp [hsum] at hidle
  cases driven with
  | start => rfl
  | turn => simp at hnil

/-- A drive can be continued to its end. -/
theorem Driven.exists_ended (hne : records ≠ []) {source source' : Source}
    (hdraw : ∃ drawn, me.modulus.draw source = some drawn)
    (driven : Driven me (.start number records me.modulus config) source turns check source') :
    ∃ turns' check' source'',
      Driven me (.start number records me.modulus config) source turns' check' source'' ∧
        check'.hasNext = false := by
  induction hremaining : records.length + 4 - turns.length using Nat.strong_induction_on
    generalizing turns check source' with
  | _ remaining ih =>
    by_cases hended : check.hasNext = false
    · exact ⟨turns, check, source', driven, hended⟩
    · have more : check.hasNext = true := by simpa using hended
      have hreached := driven.reached hne
      have hfirst : check.stage = .idle → ∃ drawn, me.modulus.draw source' = some drawn := by
        intro hidle
        rw [driven.eq_source_of_idle hne hidle]
        exact hdraw
      obtain ⟨gates, handed, next, htaken, -, -, hback⟩ := hreached.progresses hne more hfirst
      obtain ⟨evaluated, hevaluated⟩ := CheckGate.exists_forall₂_evaluates me gates
      obtain ⟨outcome, check', habsorb, hreached', -⟩ := hback evaluated hevaluated
      have hlength := hreached'.length_le
      rw [List.length_append, List.length_singleton] at hlength
      refine ih _ ?_ (driven.turn more htaken hevaluated habsorb) rfl
      rw [List.length_append, List.length_singleton]
      omega

/-- Five records in chunks of two, two of them at most to a slice. -/
theorem orderly_five_records :
    let me : Party := ⟨0, 2, ⟨.ofNat 7, by decide⟩, .ofNat 2, by decide, by decide, by decide⟩
    let records : List Record := List.replicate 5 ⟨.ofNat 3, .ofNat 5⟩
    let config : Config :=
      { Config.standard with macCheckBatchSize := 2, accumulateChunkSize := 2 }
    ∃ turns check source,
      Driven me (.start 4 records me.modulus config) default turns check source ∧
        check.hasNext = false ∧ records ≠ [] ∧ records.length < 2 ^ 58 ∧
        Orderly me 4 records config turns check source := by
  intro me records config
  have hdraw : ∃ drawn, me.modulus.draw default = some drawn :=
    ⟨_, Modulus.draw_of_lt (by decide)⟩
  have hne : records ≠ [] := by decide
  have hlength : records.length < 2 ^ 58 := by decide
  have hstart : Driven me (.start 4 records me.modulus config) default [] _ default := .start
  obtain ⟨turns, check, source, driven, hended⟩ := hstart.exists_ended hne hdraw
  exact ⟨turns, check, source, driven, hended, hne, hlength, driven.orderly hne hlength⟩

theorem eq_singleton_of_flatten {α : Type} {parts : List (List α)} {a : α}
    (hflatten : parts.flatten = [a]) (hparts : ∀ part ∈ parts, 1 ≤ part.length) :
    parts = [[a]] := by
  cases parts with
  | nil => simp at hflatten
  | cons part parts =>
    obtain ⟨hpart, hparts⟩ := List.forall_mem_cons.mp hparts
    rw [List.flatten_cons] at hflatten
    have hlength := congrArg List.length hflatten
    rw [List.length_append, List.length_singleton] at hlength
    have hrest : parts = [] := by
      refine List.eq_nil_iff_forall_not_mem.mpr fun other hother => ?_
      have hle := (List.sublist_flatten_of_mem hother).length_le
      have hone := hparts other hother
      omega
    simp_all

/-- Every fold brings a sum below the modulus by one subtraction. A MAC share far above it loses two
moduli on its way into the check value, and one in a compression. -/
theorem value_ne_compress_of_unreduced :
    let me : Party := ⟨0, 2, ⟨.ofNat 7, by decide⟩, .ofNat 2, by decide, by decide, by decide⟩
    let records : List Record := [⟨.zero, .ofNat 50⟩]
    ∃ turns check source,
      Driven me (.start 4 records me.modulus .standard) default turns check source ∧
        ∃ (passage : Passage) (nonce : Nonce) (commitments : List Commitment) (sum : Element),
          turns = passage.turns me ++ exchangeTurns .awaitingCommit .awaitingOpen
            (passage.value me) nonce commitments sum ∧
          me.modulus.Reduced passage.combiner ∧
          passage.value me ≠ (compress me.modulus passage.combiner me.keyShare records).value := by
  intro me records
  have hdraw : ∃ drawn, me.modulus.draw default = some drawn :=
    ⟨_, Modulus.draw_of_lt (by decide)⟩
  have hne : records ≠ [] := List.cons_ne_nil _ _
  have hstart : Driven me (.start 4 records me.modulus .standard) default [] _ default := .start
  obtain ⟨turns, check, source, driven, hended⟩ := hstart.exists_ended hne hdraw
  have hreached := driven.reached hne
  obtain ⟨place, hchunked, hplace⟩ := hreached.chunked hne
  obtain ⟨passage, nonce, commitments, sum, rfl, -, -, hcombiner, -⟩ :=
    hreached.of_hasNext_eq_false hne hended
  refine ⟨_, check, source, driven, passage, nonce, commitments, sum, rfl, hcombiner, ?_⟩
  have hchunks : passage.chunks = [records] := by
    have hpassage : (passage.turns me ++ exchangeTurns .awaitingCommit .awaitingOpen
        (passage.value me) nonce commitments sum).flatMap Turn.chunks = passage.chunks := by
      rw [List.flatMap_append, passage.chunks_turns]
      simp [exchangeTurns]
    rw [hpassage, hplace hended] at hchunked
    have hflatten := hchunked.flatten.trans List.take_length
    exact eq_singleton_of_flatten hflatten fun chunk hchunk => (hchunked.sized chunk hchunk).1
  have hzero : ∀ {a : Element}, me.modulus.Reduced a → me.modulus.mul .zero a = .zero := by
    intro a ha
    refine Limbs.toNat_inj.mp ?_
    rw [Modulus.toNat_mul Modulus.reduced_zero ha, Element.toNat_zero, Nat.zero_mul, Nat.zero_mod]
  have hdefect : Compressed.defect me.modulus me.keyShare ⟨.zero, .ofNat 50⟩ = .ofNat 50 := by
    decide +kernel
  have hcompress : compress me.modulus passage.combiner me.keyShare records =
      ⟨.ofNat 43, me.modulus.mul .one passage.combiner⟩ := by
    have hsum : me.modulus.add .zero (.ofNat 50) = .ofNat 43 := by decide +kernel
    have hfold : compress me.modulus passage.combiner me.keyShare records =
        ⟨me.modulus.add (me.modulus.mul .zero passage.combiner)
          (Compressed.defect me.modulus me.keyShare ⟨.zero, .ofNat 50⟩),
          me.modulus.mul .one passage.combiner⟩ := rfl
    rw [hfold, hzero hcombiner, hdefect, hsum]
  have hvalue : passage.value me = .ofNat 36 := by
    have hsum : me.modulus.add .zero (.ofNat 43) = .ofNat 36 := by decide +kernel
    have hempty : compressChunks me.modulus passage.combiner me.keyShare [] = .zero := rfl
    rw [Passage.value, hchunks, ← List.nil_append [records], compressChunks_concat, hcompress,
      hempty, hzero (Modulus.reduced_mul Modulus.reduced_one hcombiner), hsum]
  have hne : (Element.ofNat 36) ≠ .ofNat 43 := by decide +kernel
  rw [hvalue, hcompress]
  exact hne

end Drives

end AuthenticatedMpc
