import AuthenticatedMpc.Proofs.MacCheck.Splitting
import AuthenticatedMpc.Proofs.MacCheck.Stages

/-!
# Cutting records into chunks

The accumulation gates of a check cut its records into chunks, one after the other and whatever the
size of a slice. What the gates make of the chunks, folded in their order, is the compression of all
the records.
-/

namespace AuthenticatedMpc

/-- The records before `place`, cut into chunks of at most `size`. -/
structure Chunked (records : List Record) (size : Nat) (chunks : List (List Record))
    (place : Nat) : Prop where
  le : place ≤ records.length
  flatten : chunks.flatten = records.take place
  sized : ∀ chunk ∈ chunks, 1 ≤ chunk.length ∧ chunk.length ≤ size
  /-- A chunk that is not the first begins behind a full one. -/
  begins : ∀ front chunk back, chunks = front ++ chunk :: back →
    front.flatten.length = 0 ∨ size ≤ front.flatten.length
  /-- Only the last chunk is shorter than the others. -/
  full : place = records.length ∨ place = 0 ∨ size ≤ place

namespace Chunked

variable {records : List Record} {size place : Nat} {chunks : List (List Record)}

theorem nil (records : List Record) (size : Nat) : Chunked records size [] 0 := by
  refine ⟨Nat.zero_le _, rfl, by simp, ?_, .inr (.inl rfl)⟩
  intro front chunk back h
  simp at h

theorem length_flatten (h : Chunked records size chunks place) :
    chunks.flatten.length = place := by
  rw [h.flatten, List.length_take]
  exact min_eq_left h.le

theorem concat (h : Chunked records size chunks place) (hsize : 0 < size)
    (hplace : place < records.length) :
    Chunked records size (chunks ++ [(records.drop place).take size])
      (min (place + size) records.length) := by
  refine ⟨min_le_right _ _, ?_, ?_, ?_, by omega⟩
  · rw [List.flatten_append, h.flatten, List.flatten_singleton, ← List.take_add,
      List.take_eq_take_iff]
    omega
  · intro chunk hchunk
    rcases List.mem_append.mp hchunk with hold | hnew
    · exact h.sized chunk hold
    · rw [List.mem_singleton.mp hnew, List.length_take, List.length_drop]
      omega
  · intro front chunk back hsplit
    rcases List.eq_nil_or_concat back with rfl | ⟨back, last, rfl⟩
    · obtain ⟨rfl, -⟩ := List.append_inj' hsplit rfl
      rw [h.length_flatten]
      rcases h.full with hfull | hfull
      · omega
      · exact hfull
    · rw [List.concat_eq_append, ← List.cons_append, ← List.append_assoc] at hsplit
      obtain ⟨hfront, -⟩ := List.append_inj' hsplit rfl
      exact h.begins front chunk back hfront

theorem index_lt (h : Chunked records size chunks place) (hrecords : records.length < 2 ^ 58)
    (hsize : size < 2 ^ 64) {front back : List (List Record)} {chunk : List Record}
    (hsplit : chunks = front ++ chunk :: back) : front.flatten.length + size < 2 ^ 64 := by
  have hlength : front.flatten.length ≤ place := by
    rw [← h.length_flatten, hsplit, List.flatten_append, List.length_append]
    exact Nat.le_add_right _ _
  have hle := h.le
  rcases h.begins front chunk back hsplit with hfirst | hlater
  · omega
  · omega

end Chunked

/-! ## The value of chunks -/

/-- The compressions of chunks, folded one after the other. -/
def compressChunks (p : Modulus) (combiner keyShare : Element) (chunks : List (List Record)) :
    Element :=
  chunks.foldl (fun value chunk =>
    let part := compress p combiner keyShare chunk
    p.add (p.mul value part.power) part.value) .zero

theorem compressChunks_concat (p : Modulus) (combiner keyShare : Element)
    (chunks : List (List Record)) (chunk : List Record) :
    compressChunks p combiner keyShare (chunks ++ [chunk]) =
      p.add (p.mul (compressChunks p combiner keyShare chunks)
        (compress p combiner keyShare chunk).power) (compress p combiner keyShare chunk).value := by
  simp [compressChunks]

theorem value_joinAll (p : Modulus) (combiner keyShare : Element) (chunks : List (List Record)) :
    (Compressed.joinAll p (chunks.map (compress p combiner keyShare))).value =
      compressChunks p combiner keyShare chunks := by
  induction chunks using List.reverseRecOn with
  | nil => rfl
  | append_singleton chunks chunk ih =>
    rw [List.map_append, List.map_singleton, Compressed.joinAll_concat, compressChunks_concat, ← ih]
    rfl

/-- However records are cut into chunks, the chunks have the value of the records. -/
theorem compressChunks_eq {p : Modulus} {combiner keyShare : Element}
    (hcombiner : p.Reduced combiner) (hkey : p.Reduced keyShare) {chunks : List (List Record)}
    (hchunks : ∀ record ∈ chunks.flatten, record.Reduced p) :
    compressChunks p combiner keyShare chunks =
      (compress p combiner keyShare chunks.flatten).value := by
  rw [← value_joinAll, joinAll_compress hcombiner hkey hchunks]

/-! ## The gates of chunks -/

namespace MacCheck

variable {check : MacCheck}

def accumulation (combiner : Element) (chunk : List Record) : AccumulateGate :=
  { records := chunk, combiner }

/-- A slice continues the chunks of the slices before it. -/
theorem chunked_accumulateFrom (hchunk : 0 < check.chunkSize) (count : Nat)
    {chunks : List (List Record)} {place : Nat}
    (h : Chunked check.records check.chunkSize chunks place) :
    ∃ more, (check.accumulateFrom count place).1 =
        more.map (fun chunk => .accumulate (accumulation check.combiner chunk)) ∧
      more.length ≤ count ∧
      Chunked check.records check.chunkSize (chunks ++ more)
        (check.accumulateFrom count place).2 := by
  induction count generalizing chunks place with
  | zero =>
    refine ⟨[], rfl, le_rfl, ?_⟩
    simpa [accumulateFrom] using h
  | succ count ih =>
    unfold accumulateFrom
    by_cases hplace : place < check.records.length
    · rw [if_pos hplace]
      obtain ⟨more, hgates, hcount, hmore⟩ := ih (h.concat hchunk hplace)
      refine ⟨check.chunkFrom place :: more, ?_, ?_, ?_⟩
      · simp [hgates, accumulation]
      · simpa using hcount
      · rw [List.append_cons]
        exact hmore
    · rw [if_neg hplace]
      refine ⟨[], rfl, Nat.zero_le _, ?_⟩
      simpa using h

/-- Evaluated gates are folded in as their chunks. -/
theorem foldChunks_accumulation {me : Party} (combiner : Element) (chunks : List (List Record))
    {folding : MacCheck} (hmodulus : folding.modulus = me.modulus) {before : List (List Record)}
    (hvalue : folding.checkValue = compressChunks me.modulus combiner me.keyShare before) :
    foldChunks (chunks.map fun chunk => .accumulate ((accumulation combiner chunk).evaluate me))
        folding =
      (.ok (), { folding with
        checkValue := compressChunks me.modulus combiner me.keyShare (before ++ chunks) }) := by
  induction chunks generalizing folding before with
  | nil => simp [foldChunks, ← hvalue]
  | cons chunk chunks ih =>
    have hfold : folding.foldChunk (.accumulate ((accumulation combiner chunk).evaluate me)) =
        .ok { folding with
          checkValue := compressChunks me.modulus combiner me.keyShare (before ++ [chunk]) } := by
      simp [foldChunk, CheckGate.compressed?, AccumulateGate.evaluate, accumulation, hmodulus,
        hvalue, compressChunks_concat]
    rw [List.map_cons, foldChunks, hfold]
    refine (ih ?_ rfl).trans ?_
    · exact hmodulus
    · simp

end MacCheck
end AuthenticatedMpc
