import AuthenticatedMpc.Proofs.Sharing.Authentic

/-!
# Linear computation on shares

A straight-line program computes each new register from earlier ones: sums, differences, and sums
with and multiples by public constants. It has one meaning on residues and one on the shares of
each party. When every party runs it on its own shares, all registers stand for what the program
computes on the values.
-/

namespace AuthenticatedMpc

inductive LinearStep (p : Modulus) (registers : ℕ)
  | add (a b : Fin registers)
  | sub (a b : Fin registers)
  | addPublic (a : Fin registers) (constant : Element) (reduced : p.Reduced constant)
  | mulPublic (a : Fin registers) (constant : Element) (reduced : p.Reduced constant)

/-- Starts from `inputs` registers and adds one after the other until there are `registers`. -/
inductive LinearProgram (p : Modulus) : (inputs registers : ℕ) → Type
  | done {registers : ℕ} : LinearProgram p registers registers
  | step {inputs registers : ℕ} (first : LinearStep p inputs)
      (rest : LinearProgram p (inputs + 1) registers) : LinearProgram p inputs registers

/-- A meaning of the operations. -/
structure LinearReading (α : Type) where
  add : α → α → α
  sub : α → α → α
  addPublic : α → Element → α
  mulPublic : α → Element → α

namespace LinearReading

def residues (p : Modulus) : LinearReading (ZMod p.value.toNat) where
  add a b := a + b
  sub a b := a - b
  addPublic a constant := a + p.residue constant
  mulPublic a constant := a * p.residue constant

def shares (p : Modulus) (keyShare : Element) (party : PartyId) : LinearReading Share where
  add := Share.add p
  sub := Share.sub p
  addPublic a constant := Share.addPublic p a constant keyShare party
  mulPublic := Share.mulPublic p

end LinearReading

variable {α : Type} {p : Modulus} {inputs registers parties : ℕ}

def LinearStep.eval (reading : LinearReading α) (held : Fin registers → α) :
    LinearStep p registers → α
  | add a b => reading.add (held a) (held b)
  | sub a b => reading.sub (held a) (held b)
  | addPublic a constant _ => reading.addPublic (held a) constant
  | mulPublic a constant _ => reading.mulPublic (held a) constant

/-- All registers at the end, the inputs being the first ones. -/
def LinearProgram.run (reading : LinearReading α) {inputs registers : ℕ} :
    LinearProgram p inputs registers → (Fin inputs → α) → Fin registers → α
  | done, held => held
  | step first rest, held =>
    rest.run reading (Fin.snoc (α := fun _ => α) held (first.eval reading held))

/-! ## All parties together -/

section

variable {key : ZMod p.value.toNat} {keyShares : Fin (parties + 1) → Element}

/-- If the shares in all registers stand for the values, so do those in the next one. -/
theorem LinearStep.authentic_eval (hkey : p.Splits keyShares key)
    {held : Fin registers → Fin (parties + 1) → Share} {values : Fin registers → ZMod p.value.toNat}
    (hheld : ∀ k, p.Authentic key (held k) (values k)) (step : LinearStep p registers) :
    p.Authentic key
      (fun party => step.eval (.shares p (keyShares party) party) fun k => held k party)
      (step.eval (.residues p) values) := by
  cases step with
  | add a b => exact (hheld a).add (hheld b)
  | sub a b => exact (hheld a).sub (hheld b)
  | addPublic a constant hconstant => exact (hheld a).addPublic hkey hconstant
  | mulPublic a constant hconstant => exact (hheld a).mulPublic hconstant

theorem LinearProgram.authentic_run (hkey : p.Splits keyShares key)
    (program : LinearProgram p inputs registers) {held : Fin inputs → Fin (parties + 1) → Share}
    {values : Fin inputs → ZMod p.value.toNat} (hheld : ∀ k, p.Authentic key (held k) (values k))
    (register : Fin registers) :
    p.Authentic key
      (fun party => program.run (.shares p (keyShares party) party) (held · party) register)
      (program.run (.residues p) values register) := by
  induction program with
  | done => exact hheld register
  | @step inputs registers first rest ih =>
    have hfirst := first.authentic_eval hkey hheld
    -- The registers of all parties grow together.
    have hsnoc : ∀ party, Fin.snoc (α := fun _ => Share) (held · party)
        (first.eval (.shares p (keyShares party) party) (held · party)) =
        fun k => Fin.snoc (α := fun _ => Fin (parties + 1) → Share) held
          (fun party => first.eval (.shares p (keyShares party) party) (held · party)) k party := by
      intro party
      funext k
      refine Fin.lastCases ?_ (fun k => ?_) k
      · rw [Fin.snoc_last, Fin.snoc_last]
      · rw [Fin.snoc_castSucc, Fin.snoc_castSucc]
    simp only [run, hsnoc]
    refine ih (Fin.lastCases ?_ fun k => ?_) register
    · rw [Fin.snoc_last, Fin.snoc_last]
      exact hfirst
    · rw [Fin.snoc_castSucc, Fin.snoc_castSucc]
      exact hheld k

end

/-- After a dealing, a program that every party runs on its own shares leaves shares in every
register that open to the result on the values, and to its product with the key. -/
theorem LinearProgram.openAll_run {source : Source} {values : List Element}
    (hparties : 0 < parties) (hvalues : ∀ value ∈ values, p.Reduced value)
    (hdraws : (Dealing.drawMany p (Dealing.draws values.length parties) source).isSome)
    (program : LinearProgram p values.length registers) :
    ∃ (key : Element) (keyShares : Fin parties → Element)
      (shares : Fin values.length → Fin parties → Share) (rest : Source),
      Dealing.session p values parties source =
        some (((key, List.ofFn keyShares), List.ofFn fun k => List.ofFn (shares k)), rest) ∧
      ∀ register,
        let result := program.run (.residues p) (fun k => p.residue values[k]) register
        Share.openAll p (List.ofFn fun party =>
          program.run (.shares p (keyShares party) party) (shares · party) register) =
          ⟨.ofNat result.val, .ofNat (key.toNat * result.val % p.value.toNat)⟩ := by
  obtain ⟨parties, rfl⟩ := Nat.exists_eq_add_one.mpr hparties
  obtain ⟨⟨elements, rest⟩, hdrawn⟩ := Option.isSome_iff_exists.mp hdraws
  obtain ⟨key, keyShares, shares, hsession, hkey, hshares⟩ := Dealing.session_eq hvalues hdrawn
  exact ⟨key, keyShares, shares, rest, hsession, fun register =>
    (program.authentic_run hkey hshares register).openAll_ofFn⟩

/-- Two parties compute `2 * (x + y + 4)` modulo seven. -/
theorem LinearProgram.openAll_run_seven :
    let p : Modulus := ⟨.ofNat 7, by decide⟩
    let values : List Element := [.ofNat 3, .ofNat 5]
    let program : LinearProgram p values.length 5 :=
      .step (.add ⟨0, by decide⟩ ⟨1, by decide⟩) <|
        .step (.addPublic (Fin.last _) (.ofNat 4) (by decide)) <|
          .step (.mulPublic (Fin.last _) (.ofNat 2) (by decide)) .done
    ∃ (key : Element) (keyShares : Fin 2 → Element) (shares : Fin values.length → Fin 2 → Share)
      (rest : Source),
      Dealing.session p values 2 ⟨fun _ => 3, 0⟩ =
        some (((key, List.ofFn keyShares), List.ofFn fun k => List.ofFn (shares k)), rest) ∧
      ∀ register,
        let result := program.run (.residues p) (fun k => p.residue values[k]) register
        Share.openAll p (List.ofFn fun party =>
          program.run (.shares p (keyShares party) party) (shares · party) register) =
          ⟨.ofNat result.val, .ofNat (key.toNat * result.val % p.value.toNat)⟩ := by
  intro p values program
  let source : Source := ⟨fun _ => 3, 0⟩
  have hdraws : Source.Draws p source.word := fun position =>
    ⟨_, _, Modulus.draw_of_lt (show p.masked 3 3 < p.value by decide)⟩
  exact LinearProgram.openAll_run (by decide) (by decide) (Dealing.isSome_drawMany hdraws _) program

end AuthenticatedMpc
