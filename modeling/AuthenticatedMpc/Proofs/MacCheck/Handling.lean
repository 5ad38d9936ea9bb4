import AuthenticatedMpc.Proofs.MacCheck.Slicing

/-!
# Slices that come back in part

A client may ask a check for slices and give gates back in any order, keep gates of a slice to
itself, give gates back that it has not evaluated, and go on after an error. What a check makes of
each of these calls depends on its stage: outside of compressing it takes back nothing but a whole
slice, while of a slice of chunks it takes back whatever has been evaluated.
-/

namespace AuthenticatedMpc

/-- A gate given back: as it was handed out, or evaluated. -/
def CheckGate.Back (me : Party) (gate given : CheckGate) : Prop :=
  given = gate ∨ CheckGate.Evaluates me gate given

/-- Some gates of a slice, in their order, each evaluated or not. -/
def CheckGate.Given (me : Party) (slice given : List CheckGate) : Prop :=
  ∃ part, part.Sublist slice ∧ List.Forall₂ (CheckGate.Back me) part given

/-- Gates that were given back to a check. -/
structure Return where
  /-- Where the check stood before. -/
  stage : Stage
  /-- Whether a slice was handed out and had not come back. -/
  outstanding : Bool
  /-- The slice that was handed out last. -/
  slice : List CheckGate
  given : List CheckGate
  outcome : Except Error Unit

/-- The slice came back with every gate, and every gate evaluated. -/
def Return.Whole (me : Party) (back : Return) : Prop :=
  back.outstanding = true ∧ List.Forall₂ (CheckGate.Evaluates me) back.slice back.given

/-- The calls that lead from a check to another one: what was given back, the slice that was handed
out last, and how far the calls have read the source. -/
inductive Handled (me : Party) (start : MacCheck) (source : Source) :
    List Return → MacCheck → List CheckGate → Source → Prop
  | start : Handled me start source [] start [] source
  | taken {log : List Return} {check next : MacCheck} {slice gates : List CheckGate}
      {source₁ source₂ : Source} (handled : Handled me start source log check slice source₁)
      (taken : check.nextSlice source₁ = some ((.ok gates, next), source₂)) :
      Handled me start source log next gates source₂
  | refused {log : List Return} {check next : MacCheck} {slice : List CheckGate} {error : Error}
      {source₁ source₂ : Source} (handled : Handled me start source log check slice source₁)
      (refused : check.nextSlice source₁ = some ((.error error, next), source₂)) :
      Handled me start source log next slice source₂
  | returned {log : List Return} {check next : MacCheck} {slice given : List CheckGate}
      {outcome : Except Error Unit} {source₁ : Source}
      (handled : Handled me start source log check slice source₁)
      (hgiven : check.outstanding = true → CheckGate.Given me slice given)
      (returned : check.absorb given = (outcome, next)) :
      Handled me start source
        (log ++ [⟨check.stage, check.outstanding, slice, given, outcome⟩]) next slice source₁

theorem CheckGate.Given.singleton {me : Party} {gate : CheckGate} {given : List CheckGate}
    (h : CheckGate.Given me [gate] given) :
    given = [] ∨ given = [gate] ∨
      ∃ evaluated, given = [evaluated] ∧ Evaluates me gate evaluated := by
  obtain ⟨part, hpart, hback⟩ := h
  rcases List.sublist_singleton.mp hpart with rfl | rfl
  · exact .inl (List.forall₂_nil_left_iff.mp hback)
  · obtain ⟨back, rest, hgate, hrest, rfl⟩ := List.forall₂_cons_left_iff.mp hback
    obtain rfl := List.forall₂_nil_left_iff.mp hrest
    rcases hgate with rfl | hevaluates
    · exact .inr (.inl rfl)
    · exact .inr (.inr ⟨back, rfl, hevaluates⟩)

namespace MacCheck

variable {me : Party} {check : MacCheck}

/-! ## What may be handed out -/

def parts (combiner : Element) (chunks : List (List Record)) : List CheckGate :=
  chunks.map fun chunk => .accumulate (accumulation combiner chunk)

inductive Hands (me : Party) (check : MacCheck) : List CheckGate → Prop
  | combinerCommitment (commitment : Commitment) (hstage : check.stage = .awaitingCombiner)
      (hcommitments : check.commitments = none) : Hands me check [.commit ⟨commitment, []⟩]
  | combinerReveal {own : Element} (nonce : Nonce) (commitments : List Commitment)
      (hstage : check.stage = .awaitingCombiner)
      (hcommitments : check.commitments = some commitments) (hown : me.modulus.Reduced own) :
      Hands me check [.decommit ⟨own, nonce, commitments, none⟩]
  | parts (chunks : List (List Record)) (hstage : check.stage = .compressing) :
      Hands me check (parts check.combiner chunks)
  | valueCommitment (commitment : Commitment) (hstage : check.stage = .awaitingCommit) :
      Hands me check [.commit ⟨commitment, []⟩]
  | valueReveal (own : Element) (nonce : Nonce) (commitments : List Commitment)
      (hstage : check.stage = .awaitingOpen) :
      Hands me check [.decommit ⟨own, nonce, commitments, none⟩]

/-- A check that hands out a slice has left its first stage. -/
def opened (check : MacCheck) : MacCheck :=
  if check.stage = .idle then { check with stage := .awaitingCombiner } else check

/-- What a check without an outstanding slice answers when it is asked for the next one. -/
inductive HandsOut (me : Party) (check : MacCheck) :
    Except Error (List CheckGate) → MacCheck → Prop
  | refused (error : Error) : HandsOut me check (.error error) check
  | nothing : HandsOut me check (.ok []) { check with outstanding := false }
  | commitment {own : Element} (nonce : Nonce)
      (hstage : check.stage = .awaitingCombiner ∧ check.commitments = none ∧
        me.modulus.Reduced own ∨ check.stage = .awaitingCommit) :
      HandsOut me check (.ok [.commit ⟨.commit own nonce, []⟩])
        { check with contribution := some (own, nonce), outstanding := true }
  | reveal {own : Element} {nonce : Nonce} {commitments : List Commitment}
      (hstage : check.stage = .awaitingCombiner ∨ check.stage = .awaitingOpen)
      (hcontribution : check.contribution = some (own, nonce))
      (hcommitments : check.commitments = some commitments) :
      HandsOut me check (.ok [.decommit ⟨own, nonce, commitments, none⟩])
        { check with outstanding := true }
  | parts (hstage : check.stage = .compressing) :
      HandsOut me check (.ok check.nextParts.1)
        { check with nextRecord := check.nextParts.2, outstanding := !check.nextParts.1.isEmpty }

theorem handsOut_decommitGate
    (hstage : check.stage = .awaitingCombiner ∨ check.stage = .awaitingOpen)
    {result : Except Error (List CheckGate)} {next : MacCheck}
    (h : (match check.decommitGate with
      | .ok gate => check.handOut [gate]
      | .error error => (.error error, check)) = (result, next)) :
    HandsOut me check result next := by
  unfold decommitGate at h
  rcases hcontribution : check.contribution with _ | ⟨own, nonce⟩
  · simp only [hcontribution] at h
    cases h
    exact .refused _
  · simp only [hcontribution] at h
    rcases hcommitments : check.commitments with _ | commitments
    · simp only [hcommitments] at h
      cases h
      exact .refused _
    · simp only [hcommitments] at h
      cases h
      exact .reveal hstage hcontribution hcommitments

theorem handsOut_slice (hmodulus : check.modulus = me.modulus) {source source' : Source}
    {result : Except Error (List CheckGate)} {next : MacCheck}
    (h : check.slice source = some ((result, next), source')) : HandsOut me check result next := by
  unfold slice at h
  cases hstage : check.stage with
  | idle | verified | failed =>
    simp only [hstage] at h
    cases h
    exact .nothing
  | awaitingCombiner =>
    simp only [hstage] at h
    rcases hcommitments : check.commitments with _ | commitments
    · simp only [hcommitments] at h
      rcases hdraw : check.modulus.draw source with _ | ⟨own, source₁⟩
      · simp [bind, StateT.bind, hdraw] at h
      · obtain ⟨nonce, source₂, hnonce⟩ :
            ∃ nonce source₂, Nonce.draw source₁ = some (nonce, source₂) := ⟨_, _, rfl⟩
        simp only [bind, StateT.bind, hdraw, Option.bind_some, commitGate_eq hnonce] at h
        cases h
        exact .commitment nonce (.inl ⟨hstage, hcommitments, hmodulus ▸ Modulus.reduced_draw hdraw⟩)
    · simp only [hcommitments] at h
      exact handsOut_decommitGate (.inl hstage) (Prod.ext_iff.mp (Option.some.inj h)).1
  | compressing =>
    simp only [hstage] at h
    cases h
    exact .parts hstage
  | awaitingCommit =>
    simp only [hstage] at h
    obtain ⟨nonce, source₂, hnonce⟩ :
        ∃ nonce source₂, Nonce.draw source = some (nonce, source₂) := ⟨_, _, rfl⟩
    simp only [bind, StateT.bind, Option.bind_some, commitGate_eq hnonce] at h
    cases h
    exact .commitment nonce (.inr hstage)
  | awaitingOpen =>
    simp only [hstage] at h
    exact handsOut_decommitGate (.inr hstage) (Prod.ext_iff.mp (Option.some.inj h)).1

theorem handsOut_nextSlice (hmodulus : check.modulus = me.modulus) {source source' : Source}
    {result : Except Error (List CheckGate)} {next : MacCheck}
    (h : check.nextSlice source = some ((result, next), source')) :
    (∃ error, result = .error error ∧ next = check) ∨
      check.outstanding = false ∧ HandsOut me check.opened result next := by
  unfold nextSlice at h
  by_cases hout : check.outstanding = true
  · rw [if_pos hout] at h
    cases h
    exact .inl ⟨_, rfl, rfl⟩
  · rw [if_neg hout] at h
    refine .inr ⟨by simpa using hout, ?_⟩
    by_cases hidle : check.stage = .idle
    · rw [if_pos hidle] at h
      rw [opened, if_pos hidle]
      have hslice := @handsOut_slice me { check with stage := .awaitingCombiner } hmodulus
      exact hslice h
    · rw [if_neg hidle] at h
      rw [opened, if_neg hidle]
      exact handsOut_slice hmodulus h

/-! ## What becomes of what is given back -/

/-- Chunks that come back, evaluated or not, are folded in up to the first that is not. -/
theorem foldChunks_back {combiner : Element} {chunks : List (List Record)}
    {given : List CheckGate}
    (hback : List.Forall₂ (CheckGate.Back me) (parts combiner chunks) given)
    {folding : MacCheck} (hmodulus : folding.modulus = me.modulus) {before : List (List Record)}
    (hvalue : folding.checkValue = compressChunks me.modulus combiner me.keyShare before) :
    (∀ gate ∈ given, gate.compressed?.isSome) ∧
        foldChunks given folding = (.ok (), { folding with
          checkValue := compressChunks me.modulus combiner me.keyShare (before ++ chunks) }) ∨
      (∃ gate ∈ given, gate.compressed? = none) ∧
        ∃ done, done.Sublist chunks ∧
          foldChunks given folding = (.error (folding.misuse .accumulationExpected), { folding with
            checkValue := compressChunks me.modulus combiner me.keyShare (before ++ done) }) := by
  induction chunks generalizing folding before given with
  | nil =>
    obtain rfl := List.forall₂_nil_left_iff.mp hback
    exact .inl ⟨by simp, by simp [foldChunks, ← hvalue]⟩
  | cons chunk chunks ih =>
    obtain ⟨gate, rest, hgate, hrest, rfl⟩ := List.forall₂_cons_left_iff.mp hback
    rcases hgate with rfl | hevaluated
    · have hnone : foldChunks (.accumulate (accumulation combiner chunk) :: rest) folding =
          (.error (folding.misuse .accumulationExpected), folding) := rfl
      refine .inr ⟨⟨_, List.mem_cons_self, rfl⟩, [], List.nil_sublist _, ?_⟩
      rw [hnone, List.append_nil, ← hvalue]
    · cases hevaluated
      have hfold : folding.foldChunk (.accumulate ((accumulation combiner chunk).evaluate me)) =
          .ok { folding with
            checkValue := compressChunks me.modulus combiner me.keyShare (before ++ [chunk]) } := by
        simp [foldChunk, CheckGate.compressed?, AccumulateGate.evaluate, accumulation, hmodulus,
          hvalue, compressChunks_concat]
      rw [foldChunks, hfold]
      let next : MacCheck := { folding with
        checkValue := compressChunks me.modulus combiner me.keyShare (before ++ [chunk]) }
      have hnext : next.modulus = me.modulus := hmodulus
      rcases ih hrest hnext rfl with
        ⟨hall, hfolded⟩ | ⟨⟨other, hother, hnone⟩, done, hdone, hfolded⟩
      · refine .inl ⟨List.forall_mem_cons.mpr ⟨rfl, hall⟩, hfolded.trans ?_⟩
        rw [List.append_assoc]
        rfl
      · refine .inr ⟨⟨other, List.mem_cons_of_mem _ hother, hnone⟩, chunk :: done,
          hdone.cons_cons chunk, hfolded.trans ?_⟩
        rw [List.append_assoc]
        rfl

/-- What becomes of a check with an outstanding slice when gates of it are given back; `before` are
the chunks in its check value. -/
inductive TakesBack (me : Party) (check : MacCheck) (slice given : List CheckGate)
    (before : List (List Record)) : Except Error Unit → MacCheck → Prop
  | rejected (error : Error) (hstage : check.stage ≠ .compressing) :
      TakesBack me check slice given before (.error error) { check with outstanding := false }
  | combinerCommitments (commitments : List Commitment)
      (whole : List.Forall₂ (CheckGate.Evaluates me) slice given)
      (hstage : check.stage = .awaitingCombiner) :
      TakesBack me check slice given before (.ok ())
        { check with commitments := some commitments, outstanding := false }
  | combiner {sum : Element} (whole : List.Forall₂ (CheckGate.Evaluates me) slice given)
      (hstage : check.stage = .awaitingCombiner) (hsum : me.modulus.Reduced sum) :
      TakesBack me check slice given before (.ok ()) { check with
        stage := .compressing
        combiner := sum
        contribution := none
        commitments := none
        outstanding := false }
  | parts {chunks done : List (List Record)} (hstage : check.stage = .compressing)
      (hslice : slice = parts check.combiner chunks) (hdone : done.Sublist chunks)
      (hgiven : ∀ gate ∈ given, gate.compressed?.isSome) (hlength : given.length = done.length) :
      TakesBack me check slice given before (.ok ())
        (if check.records.length ≤ check.nextRecord then { check with
          stage := .awaitingCommit
          records := []
          checkValue := compressChunks me.modulus check.combiner me.keyShare (before ++ done)
          outstanding := false }
        else { check with
          checkValue := compressChunks me.modulus check.combiner me.keyShare (before ++ done)
          outstanding := false })
  | unevaluated {chunks done : List (List Record)} (hstage : check.stage = .compressing)
      (hslice : slice = parts check.combiner chunks) (hdone : done.Sublist chunks)
      (hgiven : ∃ gate ∈ given, gate.compressed? = none) :
      TakesBack me check slice given before (.error (check.misuse .accumulationExpected))
        { check with
          checkValue := compressChunks me.modulus check.combiner me.keyShare (before ++ done)
          outstanding := false }
  | valueCommitments (commitments : List Commitment)
      (whole : List.Forall₂ (CheckGate.Evaluates me) slice given)
      (hstage : check.stage = .awaitingCommit) :
      TakesBack me check slice given before (.ok ()) { check with
        stage := .awaitingOpen
        commitments := some commitments
        outstanding := false }
  | values (sum : Element) (whole : List.Forall₂ (CheckGate.Evaluates me) slice given)
      (hstage : check.stage = .awaitingOpen) :
      TakesBack me check slice given before
        (if sum.isZero then .ok () else .error (.macCheckFailed check.number)) { check with
          stage := if sum.isZero then .verified else .failed
          contribution := none
          commitments := none
          outstanding := false }

theorem soleResult_commitments_of_given {commitment : Commitment} {given : List CheckGate}
    (h : CheckGate.Given me [.commit ⟨commitment, []⟩] given) :
    (∃ error, soleResult CheckGate.commitments given = .error error) ∨
      ∃ commitments, soleResult CheckGate.commitments given = .ok commitments ∧
        List.Forall₂ (CheckGate.Evaluates me) [.commit ⟨commitment, []⟩] given := by
  rcases h.singleton with rfl | rfl | ⟨evaluated, rfl, hevaluates⟩
  · exact .inl ⟨_, rfl⟩
  · exact .inl ⟨_, rfl⟩
  · have hwhole := List.Forall₂.cons hevaluates .nil
    obtain ⟨commitments, hne, heq⟩ := forall₂_evaluates_commit hwhole
    rw [heq] at hwhole ⊢
    exact .inr ⟨commitments, soleResult_commitments hne, hwhole⟩

theorem soleResult_decommittedSum_of_given {own : Element} {nonce : Nonce}
    {commitments : List Commitment} {given : List CheckGate}
    (h : CheckGate.Given me [.decommit ⟨own, nonce, commitments, none⟩] given) :
    (∃ error, soleResult CheckGate.decommittedSum given = .error error) ∨
      ∃ sum, soleResult CheckGate.decommittedSum given = .ok sum ∧
        (me.modulus.Reduced own → me.modulus.Reduced sum) ∧
        List.Forall₂ (CheckGate.Evaluates me) [.decommit ⟨own, nonce, commitments, none⟩]
          given := by
  rcases h.singleton with rfl | rfl | ⟨evaluated, rfl, hevaluates⟩
  · exact .inl ⟨_, rfl⟩
  · exact .inl ⟨_, rfl⟩
  · have hwhole := List.Forall₂.cons hevaluates .nil
    obtain ⟨sum, hsum, heq⟩ := forall₂_evaluates_decommit hwhole
    rw [heq] at hwhole ⊢
    exact .inr ⟨sum, soleResult_decommittedSum rfl, hsum, hwhole⟩

theorem takesBack_parts (hmodulus : check.modulus = me.modulus)
    (hout : check.outstanding = true) (hstage : check.stage = .compressing)
    {before chunks : List (List Record)}
    (hvalue : check.checkValue = compressChunks me.modulus check.combiner me.keyShare before)
    {given : List CheckGate} (hgiven : CheckGate.Given me (parts check.combiner chunks) given) :
    TakesBack me check (parts check.combiner chunks) given before (check.absorb given).1
      (check.absorb given).2 := by
  obtain ⟨part, hpart, hback⟩ := hgiven
  obtain ⟨kept, hkept, rfl⟩ := List.sublist_map_iff.mp hpart
  have hlength : given.length = kept.length := by simpa using hback.length_eq.symm
  let folding : MacCheck := { check with outstanding := false }
  have habsorb : check.absorb given = folding.advance given := by rw [absorb, if_pos hout]
  rw [habsorb]
  have hfolding : folding.modulus = me.modulus := hmodulus
  rcases foldChunks_back hback hfolding hvalue with
    ⟨hall, hfolded⟩ | ⟨hsome, done, hdone, hfolded⟩
  · rw [advance_compressing (show folding.stage = .compressing from hstage) hfolded]
    exact .parts hstage rfl hkept hall hlength
  · have hadvance : folding.advance given =
        (.error (check.misuse .accumulationExpected), { folding with
          checkValue :=
            compressChunks me.modulus check.combiner me.keyShare (before ++ done) }) := by
      unfold advance
      simp only [show folding.stage = .compressing from hstage, hfolded]
      rfl
    rw [hadvance]
    exact .unevaluated hstage rfl (hdone.trans hkept) hsome

theorem takesBack_commitments {slice given : List CheckGate} {before : List (List Record)}
    {commitment : Commitment} (hout : check.outstanding = true)
    (hslice : slice = [.commit ⟨commitment, []⟩]) (hgiven : CheckGate.Given me slice given)
    (hstage : check.stage = .awaitingCombiner ∧ check.commitments = none ∨
      check.stage = .awaitingCommit) :
    TakesBack me check slice given before (check.absorb given).1 (check.absorb given).2 := by
  subst hslice
  have hne : check.stage ≠ .compressing := by rcases hstage with ⟨h, -⟩ | h <;> simp [h]
  rcases soleResult_commitments_of_given hgiven with ⟨error, hread⟩ | ⟨commitments, hread, hwhole⟩
  · have habsorb : check.absorb given = (.error error, { check with outstanding := false }) := by
      rcases hstage with ⟨hstage, hcommitments⟩ | hstage <;>
        simp [absorb, advance, takeCommitments, *]
    rw [habsorb]
    exact .rejected error hne
  · rcases hstage with ⟨hstage, hcommitments⟩ | hstage
    · have habsorb : check.absorb given =
          (.ok (), { check with commitments := some commitments, outstanding := false }) := by
        simp [absorb, hout, advance, takeCommitments, hread, hstage, hcommitments]
      rw [habsorb]
      exact .combinerCommitments commitments hwhole hstage
    · have habsorb : check.absorb given = (.ok (), { check with
          stage := .awaitingOpen
          commitments := some commitments
          outstanding := false }) := by
        simp [absorb, hout, advance, takeCommitments, hread, hstage]
      rw [habsorb]
      exact .valueCommitments commitments hwhole hstage

theorem takesBack_sum {slice given : List CheckGate} {before : List (List Record)} {own : Element}
    {nonce : Nonce} {commitments : List Commitment} (hout : check.outstanding = true)
    (hslice : slice = [.decommit ⟨own, nonce, commitments, none⟩])
    (hgiven : CheckGate.Given me slice given)
    (hstage : check.stage = .awaitingCombiner ∧ check.commitments = some commitments ∧
        me.modulus.Reduced own ∨
      check.stage = .awaitingOpen) :
    TakesBack me check slice given before (check.absorb given).1 (check.absorb given).2 := by
  subst hslice
  have hne : check.stage ≠ .compressing := by rcases hstage with ⟨h, -⟩ | h <;> simp [h]
  rcases soleResult_decommittedSum_of_given hgiven with ⟨error, hread⟩ | ⟨sum, hread, hsum, hwhole⟩
  · have habsorb : check.absorb given = (.error error, { check with outstanding := false }) := by
      rcases hstage with ⟨hstage, hcommitments, -⟩ | hstage <;>
        simp [absorb, advance, *]
    rw [habsorb]
    exact .rejected error hne
  · rcases hstage with ⟨hstage, hcommitments, hown⟩ | hstage
    · have habsorb : check.absorb given = (.ok (), { check with
          stage := .compressing
          combiner := sum
          contribution := none
          commitments := none
          outstanding := false }) := by
        simp [absorb, hout, advance, hread, hstage, hcommitments, endExchange]
      rw [habsorb]
      exact .combiner hwhole hstage (hsum hown)
    · have habsorb : check.absorb given =
          (if sum.isZero then .ok () else .error (.macCheckFailed check.number), { check with
            stage := if sum.isZero then .verified else .failed
            contribution := none
            commitments := none
            outstanding := false }) := by
        simp only [absorb, if_pos hout, advance, hstage, hread, endExchange]
        cases sum.isZero <;> rfl
      rw [habsorb]
      exact .values sum hwhole hstage

/-- Whatever is given back of a slice, the check rejects it, or takes it back as its stage asks. -/
theorem takesBack_absorb (hmodulus : check.modulus = me.modulus) {slice given : List CheckGate}
    {before : List (List Record)}
    (hvalue : check.checkValue = compressChunks me.modulus check.combiner me.keyShare before)
    (hout : check.outstanding = true) (hands : check.Hands me slice)
    (hgiven : CheckGate.Given me slice given) :
    TakesBack me check slice given before (check.absorb given).1 (check.absorb given).2 := by
  cases hands with
  | combinerCommitment commitment hstage hcommitments =>
    exact takesBack_commitments hout rfl hgiven (.inl ⟨hstage, hcommitments⟩)
  | combinerReveal nonce commitments hstage hcommitments hown =>
    exact takesBack_sum hout rfl hgiven (.inl ⟨hstage, hcommitments, hown⟩)
  | parts chunks hstage => exact takesBack_parts hmodulus hout hstage hvalue hgiven
  | valueCommitment commitment hstage => exact takesBack_commitments hout rfl hgiven (.inr hstage)
  | valueReveal own nonce commitments hstage => exact takesBack_sum hout rfl hgiven (.inr hstage)

theorem absorb_of_not_outstanding (hout : check.outstanding = false) (given : List CheckGate) :
    check.absorb given = (.error (check.misuse .noSliceOutstanding), check) := by
  rw [absorb, if_neg (by simp [hout])]

end MacCheck
end AuthenticatedMpc
