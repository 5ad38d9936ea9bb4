import AuthenticatedMpc.Proofs.MacCheck.Handling

/-!
# What a check has folded in

Whatever calls a check has answered, its check value is that of some of the chunks it has handed
out, in their order. After compressing these are all the chunks of its records if every slice of
chunks came back whole; a slice that came back in part leaves records out.
-/

namespace AuthenticatedMpc

/-- Every slice of chunks that was given back came back whole. -/
def ChunksWhole (me : Party) (log : List Return) : Prop :=
  ∀ back ∈ log, back.stage = .compressing → back.outstanding = true → back.Whole me

theorem ChunksWhole.of_concat {me : Party} {log : List Return} {back : Return}
    (h : ChunksWhole me (log ++ [back])) : ChunksWhole me log :=
  fun old hold => h old (List.mem_append_left _ hold)

namespace MacCheck

def pending (check : MacCheck) (slice : List CheckGate) : List (List Record) :=
  if check.outstanding then slice.filterMap CheckGate.chunk? else []

theorem filterMap_parts (combiner : Element) (chunks : List (List Record)) :
    (parts combiner chunks).filterMap CheckGate.chunk? = chunks := by
  rw [parts, List.filterMap_map]
  exact List.filterMap_some

theorem length_parts (combiner : Element) (chunks : List (List Record)) :
    (parts combiner chunks).length = chunks.length := List.length_map _

theorem isSome_compressed?_of_whole {me : Party} {combiner : Element}
    {chunks : List (List Record)} {given : List CheckGate}
    (hwhole : List.Forall₂ (CheckGate.Evaluates me) (parts combiner chunks) given) :
    ∀ gate ∈ given, gate.compressed?.isSome := by
  have hparts : parts combiner chunks = (chunks.map (accumulation combiner)).map .accumulate := by
    rw [List.map_map]
    rfl
  rw [hparts] at hwhole
  obtain rfl := forall₂_evaluates_accumulate hwhole
  intro gate hgate
  obtain ⟨part, -, rfl⟩ := List.mem_map.mp hgate
  rfl

/-- Where a check over records stands after the returns of a log. It has handed out the given chunks
and got them back, all or some of them, and has folded in some of these; its last slice may still be
out. -/
structure Underway (me : Party) (records : List Record) (log : List Return) (check : MacCheck)
    (slice : List CheckGate) (folded chunks : List (List Record)) : Prop where
  modulus : check.modulus = me.modulus
  chunkSize : 0 < check.chunkSize
  combiner : me.modulus.Reduced check.combiner
  value : check.checkValue = compressChunks me.modulus check.combiner me.keyShare folded
  sublist : folded.Sublist chunks
  whole : ChunksWhole me log → folded = chunks
  hands : check.outstanding = true → check.Hands me slice
  contribution : check.stage = .idle ∨ check.stage = .awaitingCombiner →
    ∀ own nonce, check.contribution = some (own, nonce) → me.modulus.Reduced own
  /-- Before compressing there are no chunks. -/
  early : check.stage = .idle ∨ check.stage = .awaitingCombiner →
    chunks = [] ∧ check.records = records ∧ check.nextRecord = 0
  compressing : check.stage = .compressing → check.records = records ∧
    Chunked records check.chunkSize (chunks ++ check.pending slice) check.nextRecord
  /-- After compressing the chunks are those of all records. -/
  late : check.stage = .awaitingCommit ∨ check.stage = .awaitingOpen ∨ check.stage = .verified ∨
    check.stage = .failed → chunks.flatten = records

variable {me : Party} {records : List Record} {log : List Return} {check next : MacCheck}
  {slice : List CheckGate} {folded chunks : List (List Record)}

theorem underway_start (me : Party) (number : UInt64) (records : List Record) (config : Config) :
    Underway me records [] (.start number records me.modulus config) [] [] [] where
  modulus := rfl
  chunkSize := lt_max_of_lt_right Nat.one_pos
  combiner := Modulus.reduced_zero
  value := rfl
  sublist := List.nil_sublist _
  whole _ := rfl
  hands h := by cases h
  contribution _ own nonce h := by cases h
  early _ := ⟨rfl, rfl, rfl⟩
  compressing h := by
    cases records <;> cases h
  late h := by
    cases records with
    | nil => rfl
    | cons record records => rcases h with h | h | h | h <;> cases h

namespace Underway

/-! ## Taking the next slice -/

theorem opened (h : Underway me records log check slice folded chunks)
    (hout : check.outstanding = false) :
    Underway me records log check.opened slice folded chunks := by
  unfold MacCheck.opened
  split
  · next hidle =>
    exact { h with
      hands := fun hhanded => by simp [hout] at hhanded
      contribution := fun _ => h.contribution (.inl hidle)
      early := fun _ => h.early (.inl hidle)
      compressing := fun hstage => by cases hstage
      late := fun hstage => by rcases hstage with h | h | h | h <;> cases h }
  · exact h

theorem handsOut_parts (h : Underway me records log check slice folded chunks)
    (hout : check.outstanding = false) (hstage : check.stage = .compressing) :
    Underway me records log { check with
      nextRecord := check.nextParts.2
      outstanding := !check.nextParts.1.isEmpty } check.nextParts.1 folded chunks := by
  obtain ⟨hrecords, hchunked⟩ := h.compressing hstage
  have hpending : check.pending slice = [] := by simp [pending, hout]
  rw [hpending, List.append_nil, ← hrecords] at hchunked
  obtain ⟨more, hgates, -, hmore⟩ :=
    chunked_accumulateFrom h.chunkSize (min check.sliceSize check.records.length) hchunked
  have hparts : check.nextParts.1 = MacCheck.parts check.combiner more := hgates
  have hslice : pending { check with
      nextRecord := check.nextParts.2
      outstanding := !check.nextParts.1.isEmpty } check.nextParts.1 = more := by
    rw [hparts, pending]
    cases more with
    | nil => rfl
    | cons chunk more => exact filterMap_parts check.combiner (chunk :: more)
  refine { h with
    hands := fun _ => ?_
    compressing := fun _ => ⟨hrecords, ?_⟩
    contribution := fun hearly => by simp [hstage] at hearly
    early := fun hearly => by simp [hstage] at hearly }
  · rw [hparts]
    exact .parts more hstage
  · rw [hslice, ← hrecords]
    exact hmore

theorem handsOut (h : Underway me records log check slice folded chunks)
    (hout : check.outstanding = false) {gates : List CheckGate}
    (hanswer : HandsOut me check (.ok gates) next) :
    Underway me records log next gates folded chunks := by
  have hpending : check.pending slice = [] := by simp [pending, hout]
  cases hanswer with
  | nothing =>
    exact { h with
      hands := fun hhanded => by cases hhanded
      compressing := fun hstage => by
        obtain ⟨hrecords, hchunked⟩ := h.compressing hstage
        rw [hpending] at hchunked
        exact ⟨hrecords, hchunked⟩ }
  | commitment nonce hstage =>
    have hne : check.stage ≠ .compressing := by rcases hstage with ⟨h, -⟩ | h <;> simp [h]
    refine { h with
      hands := fun _ => ?_
      contribution := fun hearly own' nonce' hcontribution => ?_
      compressing := fun hstage => absurd hstage hne }
    · rcases hstage with ⟨hstage, hcommitments, -⟩ | hstage
      · exact .combinerCommitment _ hstage hcommitments
      · exact .valueCommitment _ hstage
    · cases hcontribution
      rcases hstage with ⟨-, -, hown⟩ | hstage
      · exact hown
      · simp [hstage] at hearly
  | reveal hstage hcontribution hcommitments =>
    have hne : check.stage ≠ .compressing := by rcases hstage with h | h <;> simp [h]
    refine { h with
      hands := fun _ => ?_
      compressing := fun hstage => absurd hstage hne }
    rcases hstage with hstage | hstage
    · exact .combinerReveal _ _ hstage hcommitments (h.contribution (.inr hstage) _ _ hcontribution)
    · exact .valueReveal _ _ _ hstage
  | parts hstage => exact h.handsOut_parts hout hstage

theorem nextSlice (h : Underway me records log check slice folded chunks)
    {source source' : Source} {result : Except Error (List CheckGate)}
    (hnext : check.nextSlice source = some ((result, next), source')) :
    Underway me records log next (result.toOption.getD slice) folded chunks := by
  rcases handsOut_nextSlice h.modulus hnext with ⟨error, rfl, rfl⟩ | ⟨hout, hanswer⟩
  · exact h
  · have hopened := h.opened hout
    have hout : check.opened.outstanding = false := by
      unfold MacCheck.opened
      split <;> exact hout
    cases result with
    | error error =>
      cases hanswer
      exact hopened
    | ok gates => exact hopened.handsOut hout hanswer

/-! ## Giving gates back -/

theorem putDown (h : Underway me records log check slice folded chunks)
    (hstage : check.stage ≠ .compressing) (commitments : Option (List Commitment)) :
    Underway me records log { check with commitments, outstanding := false } slice folded chunks :=
  { h with
    hands := fun hhanded => by cases hhanded
    compressing := fun hcompressing => absurd hcompressing hstage }

theorem logged (h : Underway me records log check slice folded chunks) (back : Return) :
    Underway me records (log ++ [back]) check slice folded chunks :=
  { h with whole := fun hwhole => h.whole hwhole.of_concat }

/-- The chunks of a slice that comes back are no longer pending; some have been folded in. -/
theorem fold (h : Underway me records log check slice folded chunks)
    (hstage : check.stage = .compressing) (hout : check.outstanding = true)
    {more done : List (List Record)} (hslice : slice = MacCheck.parts check.combiner more)
    (hdone : done.Sublist more) (given : List CheckGate) (outcome : Except Error Unit)
    (hwhole : List.Forall₂ (CheckGate.Evaluates me) slice given → done = more) :
    Underway me records (log ++ [⟨check.stage, check.outstanding, slice, given, outcome⟩])
      { check with
        checkValue := compressChunks me.modulus check.combiner me.keyShare (folded ++ done)
        outstanding := false }
      slice (folded ++ done) (chunks ++ more) := by
  obtain ⟨hrecords, hchunked⟩ := h.compressing hstage
  have hpending : check.pending slice = more := by
    rw [pending, if_pos hout, hslice, filterMap_parts]
  rw [hpending] at hchunked
  refine { h with
    value := rfl
    sublist := h.sublist.append hdone
    whole := fun hlog => ?_
    hands := fun hhanded => by cases hhanded
    early := fun hearly => by simp [hstage] at hearly
    compressing := fun _ => ⟨hrecords, ?_⟩
    late := fun hlate => by simp [hstage] at hlate }
  · have hback := hlog _ List.mem_concat_self hstage hout
    rw [h.whole hlog.of_concat, hwhole hback.2]
  · have hnone : pending { check with
        checkValue := compressChunks me.modulus check.combiner me.keyShare (folded ++ done)
        outstanding := false } slice = [] := rfl
    rw [hnone, List.append_nil]
    exact hchunked

/-- When all records are in chunks that have come back, the chunks are those of all records. -/
theorem flatten_of_le (h : Underway me records log check slice folded chunks)
    (hstage : check.stage = .compressing) (hout : check.outstanding = false)
    (hend : check.records.length ≤ check.nextRecord) : chunks.flatten = records := by
  obtain ⟨hrecords, hchunked⟩ := h.compressing hstage
  have hnone : check.pending slice = [] := by simp [pending, hout]
  rw [hnone, List.append_nil] at hchunked
  rw [hrecords] at hend
  rw [hchunked.flatten, List.take_of_length_le hend]

/-- A check that has handed out all its chunks may go on to any later stage. -/
theorem late_of_flatten (h : Underway me records log check slice folded chunks)
    (hchunks : chunks.flatten = records) {stage : Stage}
    (hstage : stage = .awaitingCommit ∨ stage = .awaitingOpen ∨ stage = .verified ∨ stage = .failed)
    (left : List Record) (contribution : Option (Element × Nonce))
    (commitments : Option (List Commitment)) :
    Underway me records log { check with
      stage
      records := left
      contribution
      commitments
      outstanding := false } slice folded chunks := by
  have hlater : ¬(stage = .idle ∨ stage = .awaitingCombiner) ∧ stage ≠ .compressing := by
    rcases hstage with rfl | rfl | rfl | rfl <;> simp
  exact { h with
    hands := fun hhanded => by cases hhanded
    contribution := fun hearly => absurd hearly hlater.1
    early := fun hearly => absurd hearly hlater.1
    compressing := fun hcompressing => absurd hcompressing hlater.2
    late := fun _ => hchunks }

theorem agree (h : Underway me records log check slice folded chunks)
    (hstage : check.stage = .awaitingCombiner) {sum : Element} (hsum : me.modulus.Reduced sum) :
    Underway me records log { check with
      stage := .compressing
      combiner := sum
      contribution := none
      commitments := none
      outstanding := false } slice folded chunks := by
  obtain ⟨rfl, hrecords, hplace⟩ := h.early (.inr hstage)
  obtain rfl := List.sublist_nil.mp h.sublist
  have hzero : check.checkValue = .zero := h.value
  have hchunked : Chunked records check.chunkSize [] check.nextRecord := by
    rw [hplace]
    exact .nil _ _
  exact { h with
    combiner := hsum
    value := hzero
    hands := fun hhanded => by cases hhanded
    contribution := fun hearly => by rcases hearly with h | h <;> cases h
    early := fun hearly => by rcases hearly with h | h <;> cases h
    compressing := fun _ => ⟨hrecords, hchunked⟩
    late := fun hlate => by rcases hlate with h | h | h | h <;> cases h }

/-- Whatever is given back of a slice, the check stays underway. -/
theorem takesBack (h : Underway me records log check slice folded chunks)
    (hout : check.outstanding = true) {given : List CheckGate} {outcome : Except Error Unit}
    (hback : TakesBack me check slice given folded outcome next) :
    ∃ folded' chunks', Underway me records
      (log ++ [⟨check.stage, check.outstanding, slice, given, outcome⟩]) next slice folded'
      chunks' := by
  cases hback with
  | rejected error hstage => exact ⟨folded, chunks, (h.putDown hstage check.commitments).logged _⟩
  | combinerCommitments commitments whole hstage =>
    have hdown := h.putDown (by simp [hstage]) (some commitments)
    exact ⟨folded, chunks, hdown.logged _⟩
  | combiner whole hstage hsum => exact ⟨folded, chunks, (h.agree hstage hsum).logged _⟩
  | @parts more done hstage hslice hdone hall hlength =>
    have hfold := h.fold hstage hout hslice hdone given (.ok ()) fun hwhole => ?_
    · refine ⟨folded ++ done, chunks ++ more, ?_⟩
      split
      · next hend =>
        exact hfold.late_of_flatten (hfold.flatten_of_le hstage rfl hend) (.inl rfl) [] _ _
      · exact hfold
    · have hsame := hwhole.length_eq
      rw [hslice, length_parts, hlength] at hsame
      exact hdone.eq_of_length hsame.symm
  | @unevaluated more done hstage hslice hdone hsome =>
    refine ⟨folded ++ done, chunks ++ more, h.fold hstage hout hslice hdone _ _ fun hwhole => ?_⟩
    obtain ⟨gate, hgate, hnone⟩ := hsome
    rw [hslice] at hwhole
    have hresult := isSome_compressed?_of_whole hwhole gate hgate
    rw [hnone] at hresult
    cases hresult
  | valueCommitments commitments whole hstage =>
    have hlate := h.late_of_flatten (h.late (.inl hstage)) (.inr (.inl rfl)) check.records
      check.contribution (some commitments)
    exact ⟨folded, chunks, hlate.logged _⟩
  | values sum whole hstage =>
    have hlater : (if sum.isZero then Stage.verified else .failed) = .verified ∨
        (if sum.isZero then Stage.verified else .failed) = .failed := by
      cases sum.isZero
      · exact .inr rfl
      · exact .inl rfl
    have hlate := h.late_of_flatten (h.late (.inr (.inl hstage))) (.inr (.inr hlater))
      check.records none none
    exact ⟨folded, chunks, hlate.logged _⟩

theorem takesBack_absorb (h : Underway me records log check slice folded chunks)
    (hout : check.outstanding = true) {given : List CheckGate}
    (hgiven : CheckGate.Given me slice given) :
    TakesBack me check slice given folded (check.absorb given).1 (check.absorb given).2 :=
  MacCheck.takesBack_absorb h.modulus h.value hout (h.hands hout) hgiven

end Underway
end MacCheck

variable {me : Party} {number : UInt64} {records : List Record} {config : Config}
  {log : List Return} {check : MacCheck} {slice : List CheckGate} {source source' : Source}

theorem Handled.underway
    (handled : Handled me (.start number records me.modulus config) source log check slice
      source') :
    ∃ folded chunks, check.Underway me records log slice folded chunks := by
  induction handled with
  | start => exact ⟨[], [], MacCheck.underway_start me number records config⟩
  | taken handled taken ih =>
    obtain ⟨folded, chunks, h⟩ := ih
    exact ⟨folded, chunks, h.nextSlice taken⟩
  | refused handled refused ih =>
    obtain ⟨folded, chunks, h⟩ := ih
    exact ⟨folded, chunks, h.nextSlice refused⟩
  | @returned log check next slice given outcome source₁ handled hgiven returned ih =>
    obtain ⟨folded, chunks, h⟩ := ih
    obtain ⟨rfl, rfl⟩ := Prod.ext_iff.mp returned
    by_cases hout : check.outstanding = true
    · exact h.takesBack hout (h.takesBack_absorb hout (hgiven hout))
    · rw [MacCheck.absorb_of_not_outstanding (by simpa using hout)]
      exact ⟨folded, chunks, h.logged _⟩

/-! ## What a check vouches for -/

/-- What the calls of a client have made of a check over records. -/
structure Vouches (me : Party) (records : List Record) (log : List Return) (check : MacCheck) :
    Prop where
  /-- Outside of compressing only a whole slice is taken back. -/
  whole : ∀ back ∈ log, back.stage ≠ .compressing → back.outcome = .ok () → back.Whole me
  /-- Any evaluated gates of a slice of chunks are taken back, be it whole or not. -/
  parts : ∀ back ∈ log, back.stage = .compressing →
    (back.outcome = .ok () ↔
      back.outstanding = true ∧ ∀ gate ∈ back.given, gate.compressed?.isSome)
  /-- After compressing the check value is that of some chunks of the records, each folded in once
  and in their order: of all of them, if every slice of chunks came back whole. -/
  folded : check.stage = .awaitingCommit ∨ check.stage = .awaitingOpen ∨ check.stage = .verified →
    ∃ chunks folded : List (List Record), chunks.flatten = records ∧ folded.Sublist chunks ∧
      (ChunksWhole me log → folded = chunks) ∧
      check.checkValue = compressChunks me.modulus check.combiner me.keyShare folded ∧
      ((∀ record ∈ records, record.Reduced me.modulus) →
        check.checkValue =
          (compress me.modulus check.combiner me.keyShare folded.flatten).value)

theorem MacCheck.TakesBack.answers {slice given : List CheckGate} {before : List (List Record)}
    {outcome : Except Error Unit} {next : MacCheck} (hout : check.outstanding = true)
    (h : check.TakesBack me slice given before outcome next) :
    (check.stage ≠ .compressing → outcome = .ok () →
        Return.Whole me ⟨check.stage, check.outstanding, slice, given, outcome⟩) ∧
      (check.stage = .compressing →
        (outcome = .ok () ↔ ∀ gate ∈ given, gate.compressed?.isSome)) := by
  cases h with
  | rejected error hstage => exact ⟨fun _ hok => (nomatch hok), fun h => absurd h hstage⟩
  | combinerCommitments commitments whole hstage =>
    exact ⟨fun _ _ => ⟨hout, whole⟩, fun h => by simp [hstage] at h⟩
  | combiner whole hstage hsum => exact ⟨fun _ _ => ⟨hout, whole⟩, fun h => by simp [hstage] at h⟩
  | parts hstage hslice hdone hgiven hlength =>
    exact ⟨fun h => absurd hstage h, fun _ => ⟨fun _ => hgiven, fun _ => rfl⟩⟩
  | unevaluated hstage hslice hdone hgiven =>
    obtain ⟨gate, hgate, hnone⟩ := hgiven
    refine ⟨fun h => absurd hstage h, fun _ => ⟨fun hok => (nomatch hok), fun hall => ?_⟩⟩
    have hresult := hall gate hgate
    rw [hnone] at hresult
    cases hresult
  | valueCommitments commitments whole hstage =>
    exact ⟨fun _ _ => ⟨hout, whole⟩, fun h => by simp [hstage] at h⟩
  | values sum whole hstage => exact ⟨fun _ _ => ⟨hout, whole⟩, fun h => by simp [hstage] at h⟩

theorem Handled.answers
    (handled : Handled me (.start number records me.modulus config) source log check slice
      source') :
    ∀ back ∈ log, (back.stage ≠ .compressing → back.outcome = .ok () → back.Whole me) ∧
      (back.stage = .compressing → (back.outcome = .ok () ↔
        back.outstanding = true ∧ ∀ gate ∈ back.given, gate.compressed?.isSome)) := by
  induction handled with
  | start => simp
  | taken handled taken ih => exact ih
  | refused handled refused ih => exact ih
  | @returned log check next slice given outcome source₁ handled hgiven returned ih =>
    obtain ⟨rfl, rfl⟩ := Prod.ext_iff.mp returned
    refine List.forall_mem_append.mpr ⟨ih, List.forall_mem_singleton.mpr ?_⟩
    by_cases hout : check.outstanding = true
    · obtain ⟨folded, chunks, h⟩ := handled.underway
      have hback := (h.takesBack_absorb hout (hgiven hout)).answers hout
      simpa only [hout, true_and] using hback
    · rw [MacCheck.absorb_of_not_outstanding (by simpa using hout)]
      refine ⟨fun _ hok => (nomatch hok), fun _ => ⟨fun hok => (nomatch hok), fun hwhole => ?_⟩⟩
      exact absurd hwhole.1 hout

/-- The two exchanges of the combiner and the first slice of chunks, here the only one. -/
theorem exists_handled_compressing (number : UInt64)
    (hdraw : ∃ drawn, me.modulus.draw source = some drawn)
    (record : Record) :
    ∃ log check source', Handled me (.start number [record] me.modulus .standard) source log check
        (MacCheck.parts .zero [[record]]) source' ∧
      check.stage = .compressing ∧ check.outstanding = true ∧ check.modulus = me.modulus ∧
      check.records = [record] ∧ check.nextRecord = 1 ∧ check.combiner = .zero ∧
      check.checkValue = .zero ∧ ∀ back ∈ log, back.stage ≠ .compressing := by
  obtain ⟨⟨own, source₁⟩, hown⟩ := hdraw
  obtain ⟨nonce, source₂, hnonce⟩ : ∃ nonce source₂, Nonce.draw source₁ = some (nonce, source₂) :=
    ⟨_, _, rfl⟩
  have hgiven : ∀ {gate evaluated : CheckGate}, CheckGate.Evaluates me gate evaluated →
      CheckGate.Given me [gate] [evaluated] := fun hgate =>
    ⟨_, List.Sublist.refl _, .cons (.inr hgate) .nil⟩
  have hcommitments : [Commitment.commit own nonce] ≠ [] := List.cons_ne_nil _ _
  have handled : Handled me (.start number [record] me.modulus .standard) source [] _ [] source :=
    .start
  replace handled := handled.taken (MacCheck.nextSlice_idle rfl rfl rfl hown hnonce)
  replace handled := handled.returned
    (fun _ => hgiven (.commit ⟨.commit own nonce, []⟩ hcommitments))
    (MacCheck.absorb_commitments rfl hcommitments rfl rfl)
  replace handled := handled.taken (MacCheck.nextSlice_reveal (.inl rfl) rfl rfl rfl)
  replace handled := handled.returned
    (fun _ => hgiven (@CheckGate.Evaluates.decommit me _ .zero fun _ => Modulus.reduced_zero))
    (MacCheck.absorb_combiner rfl rfl rfl rfl)
  have hsize : 0 < MacCheck.chunkSize (.start number [record] me.modulus .standard) :=
    lt_max_of_lt_right Nat.one_pos
  have hlimit : 0 < min (MacCheck.sliceSize (.start number [record] me.modulus .standard)) 1 :=
    lt_min (lt_max_of_lt_right Nat.one_pos) Nat.one_pos
  replace handled := handled.taken (MacCheck.nextSlice_compressing rfl rfl
    (MacCheck.lt_accumulateFrom Nat.one_pos hlimit hsize).2)
  refine ⟨_, _, _, handled, rfl, rfl, rfl, rfl, rfl, rfl, rfl, ?_⟩
  simp

/-- Whatever a client asks of a check and gives back to it, errors or not. -/
theorem Handled.vouches
    (handled : Handled me (.start number records me.modulus config) source log check slice
      source') :
    Vouches me records log check where
  whole back hback := (handled.answers back hback).1
  parts back hback := (handled.answers back hback).2
  folded := by
    intro hstage
    obtain ⟨folded, chunks, h⟩ := handled.underway
    have hlate : check.stage = .awaitingCommit ∨ check.stage = .awaitingOpen ∨
        check.stage = .verified ∨ check.stage = .failed := by tauto
    have hchunks := h.late hlate
    refine ⟨chunks, folded, hchunks, h.sublist, h.whole, h.value, fun hrecords => ?_⟩
    have hkey : me.modulus.Reduced me.keyShare := Modulus.reduced_iff.mpr me.keyShare_lt
    have hfolded : ∀ record ∈ folded.flatten, record.Reduced me.modulus := by
      intro record hrecord
      refine hrecords record ?_
      rw [← hchunks]
      exact h.sublist.flatten.subset hrecord
    rw [h.value, compressChunks_eq h.combiner hkey hfolded]

/-- The only slice of chunks comes back whole. -/
theorem vouches_seven :
    let me : Party := ⟨0, 2, ⟨.ofNat 7, by decide⟩, .ofNat 2, by decide, by decide, by decide⟩
    let records : List Record := [⟨.ofNat 3, .ofNat 5⟩]
    ∃ log check slice source,
      Handled me (.start 4 records me.modulus .standard) default log check slice source ∧
        check.stage = .awaitingCommit ∧ ChunksWhole me log ∧ Vouches me records log check := by
  intro me records
  have hdraw : ∃ drawn, me.modulus.draw default = some drawn :=
    ⟨_, Modulus.draw_of_lt (by decide)⟩
  obtain ⟨log, check, source, handled, hstage, hout, -, hrecords, hnext, -, -, hlog⟩ :=
    exists_handled_compressing 4 hdraw ⟨.ofNat 3, .ofNat 5⟩
  have hwhole : List.Forall₂ (CheckGate.Evaluates me) (MacCheck.parts .zero [records])
      [.accumulate ((MacCheck.accumulation .zero records).evaluate me)] :=
    .cons (.accumulate _) .nil
  obtain ⟨value, habsorb⟩ : ∃ value, check.absorb
      [.accumulate ((MacCheck.accumulation .zero records).evaluate me)] = (.ok (), { check with
        stage := .awaitingCommit
        records := []
        checkValue := value
        outstanding := false }) := by
    simp [MacCheck.absorb, MacCheck.advance, MacCheck.foldChunks, MacCheck.foldChunk,
      CheckGate.compressed?, AccumulateGate.evaluate, hout, hstage, hrecords, hnext]
  replace handled := handled.returned
    (fun _ => ⟨_, List.Sublist.refl _, hwhole.imp fun _ _ => .inr⟩) habsorb
  refine ⟨_, _, _, _, handled, rfl, ?_, handled.vouches⟩
  refine List.forall_mem_append.mpr ⟨fun back hback hcompressing => ?_, ?_⟩
  · exact absurd hcompressing (hlog back hback)
  · exact List.forall_mem_singleton.mpr fun _ hout => ⟨hout, hwhole⟩

/-- The only slice of chunks is given back with no gate in it: the check goes on to commit to its
check value, in which there is no record. -/
theorem value_ne_compress_of_part :
    let me : Party := ⟨0, 2, ⟨.ofNat 7, by decide⟩, .ofNat 2, by decide, by decide, by decide⟩
    let records : List Record := [⟨.ofNat 3, .ofNat 5⟩]
    (∀ record ∈ records, record.Reduced me.modulus) ∧
      ∃ log back check slice source,
        Handled me (.start 4 records me.modulus .standard) default (log ++ [back]) check slice
            source ∧
          back.outcome = .ok () ∧ ¬back.Whole me ∧ check.stage = .awaitingCommit ∧
          check.checkValue ≠ (compress me.modulus check.combiner me.keyShare records).value := by
  intro me records
  have hdraw : ∃ drawn, me.modulus.draw default = some drawn :=
    ⟨_, Modulus.draw_of_lt (by decide)⟩
  obtain ⟨log, check, source, handled, hstage, hout, -, hrecords, hnext, hcombiner, hvalue, -⟩ :=
    exists_handled_compressing 4 hdraw ⟨.ofNat 3, .ofNat 5⟩
  have habsorb : check.absorb [] = (.ok (), { check with
      stage := .awaitingCommit
      records := []
      outstanding := false }) := by
    simp [MacCheck.absorb, MacCheck.advance, MacCheck.foldChunks, hout, hstage, hrecords, hnext]
  replace handled := handled.returned (fun _ => ⟨[], List.nil_sublist _, .nil⟩) habsorb
  have hreduced : ∀ record ∈ records, record.Reduced me.modulus :=
    List.forall_mem_singleton.mpr ⟨by decide, by decide⟩
  refine ⟨hreduced, log, _, _, _, _, handled, rfl, ?_, rfl, ?_⟩
  · rintro ⟨-, hwhole⟩
    cases hwhole
  · have hcompress : (compress me.modulus .zero me.keyShare records).value ≠ .zero := by
      decide +kernel
    change check.checkValue ≠ (compress me.modulus check.combiner me.keyShare records).value
    rw [hvalue, hcombiner]
    exact hcompress.symm

end AuthenticatedMpc
