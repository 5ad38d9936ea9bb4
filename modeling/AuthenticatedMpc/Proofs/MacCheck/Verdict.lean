import AuthenticatedMpc.Proofs.Field.Sampling
import AuthenticatedMpc.Proofs.MacCheck.Slices

/-!
# The runs of a MAC check

A run that reaches a verdict makes four exchanges: every party commits to a random element and
reveals it, then commits to its check value and reveals that. The verdict is whether the revealed
check values add up to zero.
-/

namespace AuthenticatedMpc

/-- Two exchanges: the commitments to what the parties contribute, then the contributions. -/
def revealing (me : Party) (phase : Phase) (own : Element × Nonce)
    (others : PartyId → Element × Nonce) : List Signal :=
  exchange me ⟨phase, [(Commitment.commit own.1 own.2).digest]⟩
      (fun q => ⟨phase, [(Commitment.commit (others q).1 (others q).2).digest]⟩) ++
    exchange me ⟨phase, [Commitment.reveal own.1 own.2]⟩
      (fun q => ⟨phase, [Commitment.reveal (others q).1 (others q).2]⟩)

def Party.total (me : Party) (own : Element) (others : PartyId → Element × Nonce) : Element :=
  (me.peers.map fun q => (others q).1).foldl me.modulus.add own

theorem Party.reduced_total {me : Party} {own : Element} {others : PartyId → Element × Nonce}
    (hown : me.modulus.Reduced own) (h : ∀ q ∈ me.peers, (others q).1 < me.modulus.value) :
    me.modulus.Reduced (me.total own others) := by
  refine Modulus.reduced_foldl_add hown fun value hvalue => ?_
  obtain ⟨q, hq, rfl⟩ := List.mem_map.mp hvalue
  exact Modulus.reduced_iff.mpr (h q hq)

theorem Party.toNat_total {me : Party} {own : Element} {others : PartyId → Element × Nonce}
    (hown : me.modulus.Reduced own) (h : ∀ q ∈ me.peers, (others q).1 < me.modulus.value) :
    (me.total own others).toNat =
      (own.toNat + (me.peers.map fun q => (others q).1.toNat).sum) % me.modulus.value.toNat := by
  rw [total, Modulus.toNat_foldl_add hown, List.map_map]
  · rfl
  · intro value hvalue
    obtain ⟨q, hq, rfl⟩ := List.mem_map.mp hvalue
    exact Modulus.reduced_iff.mpr (h q hq)

theorem Party.getElem?_placed {α : Type} {me : Party} {own : α} {others : PartyId → α}
    {q : PartyId} (hq : q ∈ me.peers) : (me.placed own others)[q]? = some (others q) := by
  obtain ⟨hlt, hne⟩ := mem_peers.mp hq
  simp [placed, hlt, hne]

theorem Party.placed_congr {α : Type} {me : Party} {own : α} {others others' : PartyId → α}
    (h : ∀ q ∈ me.peers, others q = others' q) : me.placed own others = me.placed own others' := by
  refine List.map_congr_left fun q hq => ?_
  by_cases hme : q = me.id
  · rw [if_pos hme, if_pos hme]
  · rw [if_neg hme, if_neg hme, h q (mem_peers.mpr ⟨List.mem_range.mp hq, hme⟩)]

/-- What the parties reveal in a check, with the nonces they commit under. -/
structure Transcript where
  /-- The random element of the party. -/
  own : Element × Nonce
  /-- The random elements of the peers. -/
  random : PartyId → Element × Nonce
  /-- The nonce for the own check value. -/
  nonce : Nonce
  /-- The check values of the peers. -/
  values : PartyId → Element × Nonce

namespace Transcript

variable (transcript : Transcript) (me : Party) (records : List Record)

def combiner : Element := me.total transcript.own.1 transcript.random

def sigma : Element := (compress me.modulus (transcript.combiner me) me.keyShare records).value

def sum : Element := me.total (transcript.sigma me records) transcript.values

def passes : Bool := (transcript.sum me records).isZero

def talk (number : UInt64) : List Signal :=
  revealing me (.macCheck number) transcript.own transcript.random ++
    revealing me (.macCheck number) (transcript.sigma me records, transcript.nonce)
      transcript.values

structure Reduced : Prop where
  random : ∀ q ∈ me.peers, (transcript.random q).1 < me.modulus.value
  values : ∀ q ∈ me.peers, (transcript.values q).1 < me.modulus.value

/-- What the party contributes is drawn from its generator. -/
def Drawn (before after : Source) : Prop :=
  ∃ source₁ source₂, me.modulus.draw before = some (transcript.own.1, source₁) ∧
    Nonce.draw source₁ = some (transcript.own.2, source₂) ∧
    Nonce.draw source₂ = some (transcript.nonce, after)

def checked (check : MacCheck) : MacCheck :=
  { check with
    stage := if transcript.passes me check.records then .verified else .failed
    records := []
    nextRecord := check.records.length
    contribution := none
    commitments := none
    combiner := transcript.combiner me
    checkValue := transcript.sigma me check.records
    outstanding := false }

end Transcript

namespace Verifier

variable {me : Party} {v v' : Verifier} {talk : List Signal} {check : MacCheck} {source : Source}
  {own : Element} {nonce : Nonce} {limit : Nat}

/-- The gate in which a party has revealed its contribution, at its end. -/
def revealed (me : Party) (own : Element) (nonce : Nonce) (others : PartyId → Element × Nonce) :
    CheckGate :=
  .decommit ⟨own, nonce, me.placed (.commit own nonce) fun q => .commit (others q).1 (others q).2,
    some (me.total own others)⟩

/-- Two slices in which every party commits to a contribution and reveals it. -/
theorem ends_reveal {o : Except Error Unit} (ho : Decided o)
    (verdict : Element → Except Error Unit) (after : Element → MacCheck)
    (hcommit : v.check.nextSlice v.generator =
      some ((.ok [.commit ⟨.commit own nonce, []⟩], check), source))
    {committed : List Commitment → MacCheck}
    (habsorb : ∀ all ≠ [], check.absorb [.commit ⟨.commit own nonce, all⟩] = (.ok (), committed all))
    (hcommitted : ∀ all, (committed all).number = check.number)
    {handed : List Commitment → MacCheck}
    (hdecommit : ∀ all, (committed all).nextSlice source =
      some ((.ok [.decommit ⟨own, nonce, all, none⟩], handed all), source))
    (hhanded : ∀ all, (handed all).number = check.number)
    (hverdict : ∀ all sum, (handed all).absorb [.decommit ⟨own, nonce, all, some sum⟩] =
      (verdict sum, after sum))
    (hafter : ∀ sum, (after sum).number = check.number) :
    (do runSlice me; runSlice me).Ends v talk o v' ↔
      ∃ others : PartyId → Element × Nonce, (∀ q ∈ me.peers, (others q).1 < me.modulus.value) ∧
        talk = revealing me (.macCheck check.number) (own, nonce) others ∧
        o = verdict (me.total own others) ∧
        v' = v.afterSlice me (after (me.total own others)) source [revealed me own nonce others] := by
  have hfirst := fun talk o v' (ho : Decided o) =>
    @ends_runSlice_commit me v v' talk check source o ho _ hcommit committed habsorb hcommitted
  have hsecond := fun all gates talk =>
    @ends_runSlice_decommit me (v.afterSlice me (committed all) source gates) v' talk (handed all)
      source o ho own nonce all (hdecommit all) verdict after (hverdict all)
      fun sum => (hafter sum).trans (hhanded all).symm
  rw [Program.ends_bind]
  constructor
  · rintro (⟨_, _, front, back, rfl, hslice, h⟩ | ⟨error, rfl, hslice⟩)
    · obtain ⟨commitment, rfl, -, rfl⟩ := (hfirst _ _ _ (decided_ok ())).mp hslice
      obtain ⟨value, nonces, rfl, hopens, rfl, rfl⟩ := (hsecond _ _ _).mp h
      have hcommitment : ∀ q ∈ me.peers, commitment q = .commit (value q) (nonces q) :=
        fun q hq => Option.some.inj ((Party.getElem?_placed hq).symm.trans (hopens q hq).2)
      refine ⟨fun q => (value q, nonces q), fun q hq => (hopens q hq).1, ?_, rfl, ?_⟩
      · rw [hhanded, revealing]
        congr 1
        exact exchange_congr fun q hq => by rw [hcommitment q hq]
      · rw [Party.placed_congr hcommitment]
        rfl
    · obtain ⟨_, -, h, -⟩ := (hfirst _ _ _ ho).mp hslice
      cases h
  · rintro ⟨others, hreduced, rfl, rfl, rfl⟩
    refine .inl ⟨(), _, _, _, rfl, (hfirst _ _ _ (decided_ok ())).mpr
      ⟨fun q => .commit (others q).1 (others q).2, rfl, rfl, rfl⟩, (hsecond _ _ _).mpr
      ⟨fun q => (others q).1, fun q => (others q).2, ?_, fun q hq =>
        ⟨hreduced q hq, Party.getElem?_placed hq⟩, rfl, rfl⟩⟩
    rw [hhanded]

theorem ends_combiner {o : Except Error Unit} (ho : Decided o) (hstage : v.check.stage = .idle)
    (hcommitments : v.check.commitments = none) (hout : v.check.outstanding = false)
    (hmodulus : v.check.modulus = me.modulus) :
    (do runSlice me; runSlice me).Ends v talk o v' ↔
      ∃ own source₁ nonce source₂, ∃ others : PartyId → Element × Nonce,
        me.modulus.draw v.generator = some (own, source₁) ∧
        Nonce.draw source₁ = some (nonce, source₂) ∧
        (∀ q ∈ me.peers, (others q).1 < me.modulus.value) ∧
        talk = revealing me (.macCheck v.check.number) (own, nonce) others ∧ o = .ok () ∧
        v' = v.afterSlice me { v.check with
          stage := .compressing
          combiner := me.total own others
          contribution := none
          commitments := none
          outstanding := false } source₂ [revealed me own nonce others] := by
  cases hdraw : me.modulus.draw v.generator with
  | none =>
    have hnext := MacCheck.nextSlice_idle_eq_none hstage hcommitments hout (hmodulus ▸ hdraw)
    constructor
    · intro h
      obtain ⟨_, _, _, _, -, h, -⟩ | ⟨_, -, h⟩ := Program.ends_bind.mp h
      · exact absurd h (not_ends_runSlice hnext)
      · exact absurd h (not_ends_runSlice hnext)
    · rintro ⟨_, _, _, _, _, h, -⟩
      cases h
  | some drawn =>
    obtain ⟨own, source₁⟩ := drawn
    obtain ⟨nonce, source₂, hnonce⟩ : ∃ nonce source₂,
        Nonce.draw source₁ = some (nonce, source₂) := ⟨_, _, rfl⟩
    rw [ends_reveal ho (fun _ => .ok ())
      (fun sum => { v.check with
        stage := .compressing
        combiner := sum
        contribution := none
        commitments := none
        outstanding := false })
      (MacCheck.nextSlice_idle hstage hcommitments hout (hmodulus ▸ hdraw) hnonce)
      (fun all hall => MacCheck.absorb_commitments rfl hall rfl hcommitments) (fun _ => rfl)
      (fun all => MacCheck.nextSlice_reveal (.inl rfl) rfl rfl rfl) (fun _ => rfl)
      (fun all sum => MacCheck.absorb_combiner rfl rfl rfl rfl) fun _ => rfl]
    constructor
    · rintro ⟨others, hreduced, rfl, rfl, rfl⟩
      exact ⟨own, source₁, nonce, source₂, others, rfl, hnonce, hreduced, rfl, rfl, rfl⟩
    · rintro ⟨_, _, _, _, others, h, hnonce', hreduced, rfl, rfl, rfl⟩
      cases h
      obtain ⟨rfl, rfl⟩ := Prod.mk.inj (Option.some.inj (hnonce.symm.trans hnonce'))
      exact ⟨others, hreduced, rfl, rfl, rfl⟩

theorem ends_checkValue {o : Except Error Unit} (ho : Decided o)
    (hstage : v.check.stage = .awaitingCommit) (hout : v.check.outstanding = false) :
    (do runSlice me; runSlice me).Ends v talk o v' ↔
      ∃ nonce source, ∃ others : PartyId → Element × Nonce,
        Nonce.draw v.generator = some (nonce, source) ∧
        (∀ q ∈ me.peers, (others q).1 < me.modulus.value) ∧
        talk = revealing me (.macCheck v.check.number) (v.check.checkValue, nonce) others ∧
        o = (if (me.total v.check.checkValue others).isZero then .ok ()
          else .error (.macCheckFailed v.check.number)) ∧
        v' = v.afterSlice me { v.check with
          stage := if (me.total v.check.checkValue others).isZero then .verified else .failed
          contribution := none
          commitments := none
          outstanding := false } source [revealed me v.check.checkValue nonce others] := by
  obtain ⟨nonce, source, hnonce⟩ : ∃ nonce source,
      Nonce.draw v.generator = some (nonce, source) := ⟨_, _, rfl⟩
  rw [ends_reveal ho
    (fun sum => if sum.isZero then .ok () else .error (.macCheckFailed v.check.number))
    (fun sum => { v.check with
      stage := if sum.isZero then .verified else .failed
      contribution := none
      commitments := none
      outstanding := false })
    (MacCheck.nextSlice_awaitingCommit hstage hout hnonce)
    (fun all hall => MacCheck.absorb_checkCommitments rfl hall hstage) (fun _ => rfl)
    (fun all => MacCheck.nextSlice_reveal (.inr rfl) rfl rfl rfl) (fun _ => rfl)
    (fun all sum => MacCheck.absorb_checkValues rfl rfl rfl) fun _ => rfl]
  constructor
  · rintro ⟨others, hreduced, rfl, rfl, rfl⟩
    exact ⟨nonce, source, others, hnonce, hreduced, rfl, rfl, rfl⟩
  · rintro ⟨_, _, others, hnonce', hreduced, rfl, rfl, rfl⟩
    obtain ⟨rfl, rfl⟩ := Prod.mk.inj (Option.some.inj (hnonce.symm.trans hnonce'))
    exact ⟨others, hreduced, rfl, rfl, rfl⟩

/-! ## Compressing -/

/-- A check in its compressing stage: the check value covers the records before the next one. -/
structure Compressing (me : Party) (check : MacCheck) : Prop where
  stage : check.stage = .compressing
  modulus : check.modulus = me.modulus
  outstanding : check.outstanding = false
  chunkSize : 0 < check.chunkSize
  sliceSize : 0 < check.sliceSize
  nextRecord : check.nextRecord < check.records.length
  checkValue : check.CoversTo me check.nextRecord check.checkValue

def compressed (check : MacCheck) (value : Element) : MacCheck :=
  { check with
    stage := .awaitingCommit
    records := []
    nextRecord := check.records.length
    checkValue := value }

theorem Compressing.runSlice (h : Compressing me v.check) :
    ∃ gates check', (Verifier.runSlice me).Ends v [] (.ok ())
        (v.afterSlice me check' v.generator gates) ∧
      ((∃ value, v.check.CoversTo me v.check.records.length value ∧
          check' = compressed v.check value) ∨
        Compressing me check' ∧ check'.number = v.check.number ∧
          check'.records = v.check.records ∧ check'.combiner = v.check.combiner ∧
          v.check.nextRecord < check'.nextRecord ∧
          ∀ value, compressed check' value = compressed v.check value) := by
  obtain ⟨hlt, hgates⟩ := MacCheck.lt_accumulateFrom h.nextRecord
    (lt_min h.sliceSize (Nat.zero_lt_of_lt h.nextRecord)) h.chunkSize
  obtain ⟨parts, hparts⟩ : ∃ parts : List AccumulateGate,
    v.check.nextParts.1 = parts.map .accumulate := MacCheck.exists_accumulateFrom _ _
  have hle : v.check.nextParts.2 ≤ v.check.records.length :=
    (MacCheck.accumulateFrom_le h.nextRecord.le _).2
  have hnext := @MacCheck.nextSlice_compressing v.check v.generator h.stage h.outstanding hgates
  obtain ⟨value, hcovers, habsorb⟩ := MacCheck.absorb_parts h.stage h.modulus h.checkValue hparts
  have hparts' : parts ≠ [] := fun hnil => hgates (hparts.trans (by rw [hnil, List.map_nil]))
  rw [hparts] at hnext
  refine ⟨_, _, ends_runSlice_accumulate hparts' hnext habsorb ?_, ?_⟩
  · split <;> rfl
  by_cases hall : v.check.records.length ≤ v.check.nextParts.2
  · have hlast := le_antisymm hle hall
    rw [hlast] at hcovers
    exact .inl ⟨value, hcovers, by rw [if_pos hall, compressed, hlast, h.outstanding]⟩
  · right
    rw [if_neg hall]
    exact ⟨⟨h.stage, h.modulus, rfl, h.chunkSize, h.sliceSize, not_le.mp hall, hcovers⟩, rfl, rfl,
      rfl, hlt, fun _ => by rw [compressed, compressed, h.outstanding]⟩

/-- The compressing stage takes no messages, and at most as many slices as records are left. -/
theorem Compressing.runSlices (h : Compressing me v.check)
    (hlimit : v.check.records.length - v.check.nextRecord ≤ limit) (extra : Nat) :
    ∃ value gates spare, v.check.CoversTo me v.check.records.length value ∧
      ∀ talk o v', (Verifier.runSlices me (limit + extra)).Ends v talk o v' ↔
        (Verifier.runSlices me (spare + extra)).Ends
          (v.afterSlice me (compressed v.check value) v.generator gates) talk o v' := by
  induction limit generalizing v with
  | zero =>
    have := h.nextRecord
    omega
  | succ limit ih =>
    obtain ⟨gates, check', hslice, hcheck⟩ := h.runSlice
    have hstep : ∀ talk o v', (Verifier.runSlices me (limit + 1 + extra)).Ends v talk o v' ↔
        (Verifier.runSlices me (limit + extra)).Ends
          (v.afterSlice me check' v.generator gates) talk o v' := by
      intro talk o v'
      rw [Nat.add_right_comm, Verifier.runSlices, Program.ends_get_bind,
        if_pos (by simp [MacCheck.hasNext, h.stage]), hslice.silent_bind_iff]
    obtain ⟨value, hcovers, rfl⟩ | ⟨hrest, hnumber, hrecords, hcombiner, hlt, hcompressed⟩ := hcheck
    · exact ⟨value, gates, limit, hcovers, hstep⟩
    · have hrest : Compressing me (v.afterSlice me check' v.generator gates).check := hrest
      have hplace := h.nextRecord
      obtain ⟨value, gates', spare, hcovers, hspare⟩ := ih hrest (by
        change check'.records.length - check'.nextRecord ≤ limit
        rw [hrecords]
        omega)
      refine ⟨value, gates', spare, ?_, fun talk o v' => (hstep talk o v').trans ?_⟩
      · have hcovers : check'.CoversTo me check'.records.length value := hcovers
        rwa [MacCheck.CoversTo, hrecords, hcombiner] at hcovers
      · rw [hspare, ← hcompressed]
        rfl

/-! ## Whole checks -/

theorem ends_runSlices_two {o : Except Error Unit} (hv : v.check.hasNext = true)
    (hmiddle : ∀ front middle, (runSlice me).Ends v front (.ok ()) middle →
      middle.check.hasNext = true) :
    (runSlices me (limit + 2)).Ends v talk o v' ↔
      ((do runSlice me; runSlice me) >>= fun _ => runSlices me limit).Ends v talk o v' := by
  rw [runSlices, Program.ends_get_bind, if_pos hv, bind_assoc]
  refine Program.ends_bind_congr fun _ middle front h talk outcome final => ?_
  rw [runSlices, Program.ends_get_bind, if_pos (hmiddle _ _ h)]

theorem hasNext_of_idle (hstage : v.check.stage = .idle)
    (hcommitments : v.check.commitments = none) (hout : v.check.outstanding = false)
    (h : (runSlice me).Ends v talk (.ok ()) v') : v'.check.hasNext = true := by
  cases hdraw : v.check.modulus.draw v.generator with
  | none =>
    exact absurd h (not_ends_runSlice
      (MacCheck.nextSlice_idle_eq_none hstage hcommitments hout hdraw))
  | some drawn =>
    obtain ⟨others, -, -, rfl⟩ := (ends_runSlice_commit (decided_ok ())
      (MacCheck.nextSlice_idle hstage hcommitments hout hdraw rfl)
      (fun all hall => MacCheck.absorb_commitments rfl hall rfl hcommitments) fun _ => rfl).mp h
    rfl

theorem hasNext_of_awaitingCommit (hstage : v.check.stage = .awaitingCommit)
    (hout : v.check.outstanding = false) (h : (runSlice me).Ends v talk (.ok ()) v') :
    v'.check.hasNext = true := by
  obtain ⟨others, -, -, rfl⟩ := (ends_runSlice_commit (decided_ok ())
    (MacCheck.nextSlice_awaitingCommit hstage hout rfl)
    (fun all hall => MacCheck.absorb_checkCommitments rfl hall hstage) fun _ => rfl).mp h
  rfl

theorem ends_runSlices_done {o : Except Error Unit} (h : v.check.hasNext = false) :
    (runSlices me (limit + 1)).Ends v talk o v' ↔ talk = [] ∧ o = .ok () ∧ v' = v := by
  rw [runSlices, Program.ends_get_bind, if_neg (by simp [h]), Program.ends_pure]

-- Only these equations open the loop from here on.
attribute [local irreducible] Verifier.runSlices

theorem ends_runSlices_last {o : Except Error Unit} (ho : Decided o)
    (hstage : v.check.stage = .awaitingCommit) (hout : v.check.outstanding = false) :
    (runSlices me (limit + 3)).Ends v talk o v' ↔
      (do runSlice me; runSlice me).Ends v talk o v' := by
  rw [ends_runSlices_two (by simp [MacCheck.hasNext, hstage])
    fun _ _ => hasNext_of_awaitingCommit hstage hout]
  constructor
  · intro h
    obtain ⟨_, middle, front, back, rfl, hslices, hdone⟩ | ⟨error, rfl, hslices⟩ :=
      Program.ends_bind.mp h
    · obtain ⟨nonce, source, others, -, -, -, hverdict, rfl⟩ :=
        (ends_checkValue (decided_ok ()) hstage hout).mp hslices
      have hzero : (me.total v.check.checkValue others).isZero = true := by
        by_contra hzero
        rw [if_neg hzero] at hverdict
        cases hverdict
      obtain ⟨rfl, rfl, rfl⟩ := (ends_runSlices_done (by
        simp [MacCheck.hasNext, afterSlice, hzero])).mp hdone
      rwa [List.append_nil]
    · exact hslices
  · intro hslices
    obtain ⟨nonce, source, others, -, -, -, hverdict, rfl⟩ :=
      (ends_checkValue ho hstage hout).mp hslices
    by_cases hzero : (me.total v.check.checkValue others).isZero = true
    · rw [if_pos hzero] at hverdict
      subst hverdict
      rw [← List.append_nil talk]
      exact hslices.bind ((ends_runSlices_done (by
        simp [MacCheck.hasNext, afterSlice, hzero])).mpr ⟨rfl, rfl, rfl⟩)
    · rw [if_neg hzero] at hverdict
      subst hverdict
      exact hslices.bind_error

/-- A check over some records that has not begun. -/
structure Fresh (me : Party) (check : MacCheck) : Prop where
  stage : check.stage = .idle
  modulus : check.modulus = me.modulus
  outstanding : check.outstanding = false
  commitments : check.commitments = none
  chunkSize : 0 < check.chunkSize
  sliceSize : 0 < check.sliceSize
  ne_nil : check.records ≠ []
  nextRecord : check.nextRecord = 0
  checkValue : check.checkValue = .zero

/-- A check over reduced records that has not begun. -/
structure Started (me : Party) (check : MacCheck) : Prop extends Fresh me check where
  records : ∀ record ∈ check.records, record.Reduced me.modulus

theorem fresh_start {number : UInt64} {records : List Record} {config : Config}
    (hne : records ≠ []) : Fresh me (MacCheck.start number records me.modulus config) where
  stage := by simp [MacCheck.start, hne]
  modulus := rfl
  outstanding := rfl
  commitments := rfl
  chunkSize := by simp [MacCheck.start]
  sliceSize := by simp [MacCheck.start]
  ne_nil := hne
  nextRecord := rfl
  checkValue := rfl

theorem started_start {number : UInt64} {records : List Record} {config : Config}
    (hrecords : ∀ record ∈ records, record.Reduced me.modulus) (hne : records ≠ []) :
    Started me (MacCheck.start number records me.modulus config) :=
  ⟨fresh_start hne, hrecords⟩

def combined (check : MacCheck) (combiner : Element) : MacCheck :=
  { check with
    stage := .compressing
    combiner := combiner
    contribution := none
    commitments := none
    outstanding := false }

theorem Fresh.compressing (h : Fresh me check) (combiner : Element) :
    Compressing me (combined check combiner) where
  stage := rfl
  modulus := h.modulus
  outstanding := rfl
  chunkSize := h.chunkSize
  sliceSize := h.sliceSize
  nextRecord := by
    change check.nextRecord < check.records.length
    rw [h.nextRecord]
    exact List.length_pos_iff.mpr h.ne_nil
  checkValue _ _ := by
    change check.checkValue = (compress _ _ _ (check.records.take check.nextRecord)).value
    rw [h.checkValue, h.nextRecord]
    rfl

theorem Fresh.runSlices (h : Fresh me v.check) (combiner : Element) (source : Source)
    (gates : List CheckGate) :
    ∃ value gates' spare, (combined v.check combiner).CoversTo me v.check.records.length value ∧
      ∀ talk o v', (Verifier.runSlices me (v.check.records.length + 3)).Ends
          (v.afterSlice me (combined v.check combiner) source gates) talk o v' ↔
        (Verifier.runSlices me (spare + 3)).Ends
          (v.afterSlice me (compressed (combined v.check combiner) value) source gates') talk o
          v' :=
  @Compressing.runSlices me (v.afterSlice me (combined v.check combiner) source gates)
    v.check.records.length (h.compressing combiner) (Nat.sub_le ..) 3

theorem Started.value_eq (h : Started me check) {combiner value : Element}
    (hcombiner : me.modulus.Reduced combiner)
    (hvalue : (combined check combiner).CoversTo me check.records.length value) :
    value = (compress me.modulus combiner me.keyShare check.records).value := by
  have hall := hvalue hcombiner h.records
  rwa [show (combined check combiner).records = check.records from rfl, List.take_length] at hall

/-- What a check has exchanged until it commits to its check value, whatever that is, and what is
left. -/
theorem Fresh.split_execute {o : Except Error Unit} (ho : Decided o) (h : Fresh me v.check)
    (hends : (execute me).Ends v talk o v') :
    ∃ own source₁ nonce source₂ value gates limit back, ∃ random : PartyId → Element × Nonce,
      me.modulus.draw v.generator = some (own, source₁) ∧
      Nonce.draw source₁ = some (nonce, source₂) ∧
      (∀ q ∈ me.peers, (random q).1 < me.modulus.value) ∧
      talk = revealing me (.macCheck v.check.number) (own, nonce) random ++ back ∧
      (combined v.check (me.total own random)).CoversTo me v.check.records.length value ∧
      (Verifier.runSlices me (limit + 3)).Ends (v.afterSlice me
        (compressed (combined v.check (me.total own random)) value) source₂ gates) back o v' := by
  have hlimit : sliceLimit v.check = v.check.records.length + 3 + 2 := rfl
  rw [execute, Program.ends_get_bind, hlimit,
    ends_runSlices_two (by simp [MacCheck.hasNext, h.stage])
      fun _ _ => hasNext_of_idle h.stage h.commitments h.outstanding, Program.ends_bind] at hends
  obtain ⟨_, middle, front, back, rfl, hslices, hback⟩ | ⟨error, rfl, hslices⟩ := hends
  · obtain ⟨own, source₁, nonce, source₂, random, hdraw, hnonce, hrandom, rfl, -, rfl⟩ :=
      (ends_combiner (decided_ok ()) h.stage h.commitments h.outstanding h.modulus).mp hslices
    obtain ⟨value, gates, spare, hvalue, hspare⟩ := h.runSlices (me.total own random) source₂ _
    exact ⟨own, source₁, nonce, source₂, value, gates, spare, back, random, hdraw, hnonce, hrandom,
      rfl, hvalue, (hspare _ _ _).mp hback⟩
  · obtain ⟨_, _, _, _, _, -, -, -, -, herror, -⟩ :=
      (ends_combiner ho h.stage h.commitments h.outstanding h.modulus).mp hslices
    cases herror

/-- The runs of a check that end well or with the verdict that it failed. -/
theorem ends_execute {o : Except Error Unit} (ho : Decided o) (h : Started me v.check) :
    (execute me).Ends v talk o v' ↔
      ∃ (transcript : Transcript) (source : Source),
        transcript.Drawn me v.generator source ∧ transcript.Reduced me ∧
        talk = transcript.talk me v.check.records v.check.number ∧
        o = (if transcript.passes me v.check.records then .ok ()
          else .error (.macCheckFailed v.check.number)) ∧
        v' = v.afterSlice me (transcript.checked me v.check) source
          [revealed me (transcript.sigma me v.check.records) transcript.nonce
            transcript.values] := by
  constructor
  · intro hends
    obtain ⟨own, source₁, nonce₁, source₂, value, gates, limit, back, random, hdraw, hnonce,
      hrandom, rfl, hvalue, hback⟩ := h.toFresh.split_execute ho hends
    obtain rfl := h.value_eq (Party.reduced_total (Modulus.reduced_draw hdraw) hrandom) hvalue
    obtain ⟨nonce, source, values, hnonce', hvalues, rfl, rfl, rfl⟩ :=
      (ends_checkValue ho rfl rfl).mp ((ends_runSlices_last ho rfl rfl).mp hback)
    exact ⟨⟨(own, nonce₁), random, nonce, values⟩, source,
      ⟨source₁, source₂, hdraw, hnonce, hnonce'⟩, ⟨hrandom, hvalues⟩, rfl, rfl, rfl⟩
  · rintro ⟨transcript, source, ⟨source₁, source₂, hdraw, hnonce, hnonce'⟩, hreduced, rfl, rfl, rfl⟩
    have hcombiner : me.modulus.Reduced (transcript.combiner me) :=
      Party.reduced_total (Modulus.reduced_draw hdraw) hreduced.random
    have hlimit : sliceLimit v.check = v.check.records.length + 3 + 2 := rfl
    rw [execute, Program.ends_get_bind, hlimit,
      ends_runSlices_two (by simp [MacCheck.hasNext, h.stage])
        fun _ _ => hasNext_of_idle h.stage h.commitments h.outstanding, Program.ends_bind]
    obtain ⟨value, gates, spare, hvalue, hspare⟩ := h.runSlices (transcript.combiner me) source₂ _
    obtain rfl := h.value_eq hcombiner hvalue
    refine .inl ⟨(), _, _, _, rfl, (ends_combiner (decided_ok ()) h.stage h.commitments
      h.outstanding h.modulus).mpr ⟨_, _, _, _, transcript.random, hdraw, hnonce, hreduced.random,
        rfl, rfl, rfl⟩, (hspare _ _ _).mpr ((ends_runSlices_last ho rfl rfl).mpr
          ((ends_checkValue ho rfl rfl).mpr
            ⟨transcript.nonce, source, transcript.values, hnonce', hreduced.values, rfl, rfl, rfl⟩))⟩

end Verifier
end AuthenticatedMpc
