import AuthenticatedMpc.Proofs.Sharing.Authentic
import Mathlib.Probability.Distributions.Uniform

/-!
# What all parties but one learn from a dealing

Whichever party is left out, the shares of the others and the elements that were drawn determine each
other: the shares add up to the value, so that the one left out is what the others leave of it. Hence
uniform draws give the others uniform shares, whatever the value is. This also covers the first party,
whose share is not drawn.
-/

namespace AuthenticatedMpc

open Finset

/-- A map that hits everything once takes a uniform choice to a uniform choice. -/
theorem map_uniformOfFintype {α β : Type} [Fintype α] [Nonempty α] [Fintype β] [Nonempty β]
    {f : α → β} (hf : Function.Bijective f) :
    (PMF.uniformOfFintype α).map f = PMF.uniformOfFintype β := by
  ext b
  obtain ⟨a, rfl⟩ := hf.surjective b
  rw [PMF.map_apply, tsum_eq_single a, if_pos rfl]
  · rw [PMF.uniformOfFintype_apply, PMF.uniformOfFintype_apply, Fintype.card_of_bijective hf]
  · intro other hne
    exact if_neg fun h => hne (hf.injective h.symm)

/-! ## Reduced elements -/

namespace Modulus

variable (p : Modulus)

/-- An element that is known to be below the modulus. -/
abbrev ReducedElement := {a : Element // p.Reduced a}

def residueEquiv : p.ReducedElement ≃ ZMod p.value.toNat where
  toFun a := p.residue a
  invFun v := ⟨.ofNat v.val, reduced_ofNat (ZMod.val_lt v)⟩
  left_inv a := by
    refine Subtype.ext ((residue_inj (reduced_ofNat (ZMod.val_lt _)) a.2).mp ?_)
    rw [residue_ofNat (ZMod.val_lt _), ZMod.natCast_zmod_val]
  right_inv v := (residue_ofNat (ZMod.val_lt v)).trans (ZMod.natCast_zmod_val v)

instance : Fintype p.ReducedElement := .ofEquiv _ p.residueEquiv.symm

instance : Nonempty p.ReducedElement := ⟨⟨.zero, reduced_zero⟩⟩

variable {p}

def ReducedElement.mac (key value : p.ReducedElement) : p.ReducedElement :=
  ⟨p.mul key value, reduced_mul key.2 value.2⟩

end Modulus

namespace Dealing

variable {p : Modulus} {parties : ℕ} {source rest : Source} {value key : p.ReducedElement}

/-! ## Dealings as functions of the draws -/

def listed (elements : Fin parties → p.ReducedElement) : List Element :=
  List.ofFn fun party => (elements party).val

/-- The shares of all parties when those behind the first draw the given elements. -/
def sharesOf (value : p.ReducedElement) (drawn : Fin parties → p.ReducedElement) :
    Fin (parties + 1) → p.ReducedElement :=
  Fin.cons ⟨p.sub value (p.sum (listed drawn)), (splits_cons value.2 fun party => (drawn party).2).reduced 0⟩
    drawn

theorem listed_sharesOf (drawn : Fin parties → p.ReducedElement) :
    listed (sharesOf value drawn) = complete p value (listed drawn) := List.ofFn_succ

variable (value) in
theorem splits_sharesOf (drawn : Fin parties → p.ReducedElement) :
    p.Splits (fun party => (sharesOf value drawn party).val) (p.residue value) := by
  have hcons : (fun party => (sharesOf value drawn party).val) =
      Fin.cons (p.sub value (p.sum (listed drawn))) fun party => (drawn party).val := by
    funext party
    cases party using Fin.cases <;> rfl
  rw [hcons]
  exact splits_cons value.2 fun party => (drawn party).2

theorem sum_sharesOf (drawn : Fin parties → p.ReducedElement) :
    (∑ party, (sharesOf value drawn party).val.toNat) % p.value.toNat = value.val.toNat := by
  have hsum := (splits_sharesOf value drawn).sum_residue
  simp only [Modulus.residue] at hsum
  rw [← Nat.cast_sum, ZMod.natCast_eq_natCast_iff'] at hsum
  rw [hsum, Nat.mod_eq_of_lt value.2]

theorem exists_listed_of_drawMany {elements : List Element}
    (h : drawMany p parties source = some (elements, rest)) :
    ∃ drawn : Fin parties → p.ReducedElement, elements = listed drawn := by
  obtain ⟨drawn, rfl, hdrawn⟩ := drawMany_eq_ofFn h
  exact ⟨fun party => ⟨drawn party, hdrawn party⟩, rfl⟩

theorem additiveShares_eq_some_iff {shares : List Element} :
    additiveShares p value (parties + 1) source = some (shares, rest) ↔
      ∃ drawn : Fin parties → p.ReducedElement,
        drawMany p parties source = some (listed drawn, rest) ∧
          shares = listed (sharesOf value drawn) := by
  refine Draw.bind_eq_some_iff.trans ⟨?_, ?_⟩
  · rintro ⟨others, between, hothers, hshares⟩
    obtain ⟨drawn, rfl⟩ := exists_listed_of_drawMany hothers
    obtain ⟨rfl, rfl⟩ := Prod.mk.inj (Option.some.inj hshares)
    exact ⟨drawn, hothers, (listed_sharesOf drawn).symm⟩
  · rintro ⟨drawn, hdrawn, rfl⟩
    exact ⟨listed drawn, rest, hdrawn, by rw [listed_sharesOf]; rfl⟩

theorem zipWith_listed (values macs : Fin parties → p.ReducedElement) :
    List.zipWith Share.mk (listed values) (listed macs) =
      List.ofFn fun party => ⟨values party, macs party⟩ :=
  List.ext_getElem (by simp [listed]) fun _ _ _ => by
    simp only [List.getElem_zipWith, listed, List.getElem_ofFn]

theorem shareValue_eq_some_iff {shares : List Share} :
    shareValue p value key (parties + 1) source = some (shares, rest) ↔
      ∃ (drawn : (Fin parties → p.ReducedElement) × (Fin parties → p.ReducedElement))
        (between : Source),
        drawMany p parties source = some (listed drawn.1, between) ∧
        drawMany p parties between = some (listed drawn.2, rest) ∧
        shares = List.ofFn fun party =>
          ⟨sharesOf value drawn.1 party, sharesOf (key.mac value) drawn.2 party⟩ := by
  refine Draw.bind_eq_some_iff.trans ⟨?_, ?_⟩
  · rintro ⟨values, between, hvalues, hrest⟩
    obtain ⟨macs, last, hmacs, hshares⟩ := Draw.bind_eq_some_iff.mp hrest
    obtain ⟨drawn, hdrawn, rfl⟩ := additiveShares_eq_some_iff.mp hvalues
    obtain ⟨drawn', hdrawn', rfl⟩ :=
      (@additiveShares_eq_some_iff p parties _ _ (key.mac value) _).mp hmacs
    obtain ⟨rfl, rfl⟩ := Prod.mk.inj (Option.some.inj hshares)
    exact ⟨(drawn, drawn'), between, hdrawn, hdrawn', zipWith_listed _ _⟩
  · rintro ⟨drawn, between, hdrawn, hdrawn', rfl⟩
    refine ⟨_, between, additiveShares_eq_some_iff.mpr ⟨_, hdrawn, rfl⟩,
      Draw.bind_eq_some_iff.mpr ⟨_, rest,
        (@additiveShares_eq_some_iff p parties _ _ (key.mac value) _).mpr ⟨_, hdrawn', rfl⟩, ?_⟩⟩
    rw [zipWith_listed]
    rfl

/-! ## The shares of all parties but one -/

variable (excluded : Fin (parties + 1))

/-- The shares of the others determine the one left out, and so all draws. -/
theorem injective_view : Function.Injective
    fun (drawn : Fin parties → p.ReducedElement) (party : {party // party ≠ excluded}) =>
      sharesOf value drawn party := by
  intro drawn drawn' hview
  have hothers : ∀ party ≠ excluded, sharesOf value drawn party = sharesOf value drawn' party :=
    fun party hne => congrFun hview ⟨party, hne⟩
  have hresidue : p.residue (sharesOf value drawn excluded) =
      p.residue (sharesOf value drawn' excluded) := by
    have hsum := (splits_sharesOf value drawn).sum_residue.trans
      (splits_sharesOf value drawn').sum_residue.symm
    rw [← add_sum_erase _ _ (mem_univ excluded), ← add_sum_erase _ _ (mem_univ excluded),
      sum_congr rfl fun party hparty => by rw [hothers party (ne_of_mem_erase hparty)]] at hsum
    exact add_right_cancel hsum
  have hexcluded : sharesOf value drawn excluded = sharesOf value drawn' excluded :=
    Subtype.ext ((Modulus.residue_inj (sharesOf value drawn excluded).2
      (sharesOf value drawn' excluded).2).mp hresidue)
  funext party
  by_cases hparty : party.succ = excluded
  · rw [← hparty] at hexcluded
    exact hexcluded
  · exact hothers party.succ hparty

theorem bijective_view (value : p.ReducedElement) : Function.Bijective
    fun (drawn : Fin parties → p.ReducedElement) (party : {party // party ≠ excluded}) =>
      sharesOf value drawn party :=
  (Fintype.bijective_iff_injective_and_card _).mpr ⟨injective_view excluded,
    Fintype.card_congr ((finSuccAboveEquiv excluded).arrowCongr (Equiv.refl _))⟩

/-- A dealing is a function of what is drawn. Whatever the value, the shares add up to it, each assignment
of shares to all parties but one comes from exactly one choice of draws, and from uniform draws these
parties jointly get uniform shares of the value and of its MAC. -/
theorem dealing_private (value key : p.ReducedElement) :
    (∀ source shares rest, additiveShares p value (parties + 1) source = some (shares, rest) ↔
      ∃ drawn : Fin parties → p.ReducedElement,
        drawMany p parties source = some (listed drawn, rest) ∧
          shares = listed (sharesOf value drawn)) ∧
    (∀ view : {party // party ≠ excluded} → p.ReducedElement,
      ∃! drawn : Fin parties → p.ReducedElement,
        ∀ party : {party // party ≠ excluded}, sharesOf value drawn party = view party) ∧
    (∀ drawn : Fin parties → p.ReducedElement,
      (∑ party, (sharesOf value drawn party).val.toNat) % p.value.toNat = value.val.toNat) ∧
    (PMF.uniformOfFintype (Fin parties → p.ReducedElement)).map
        (fun drawn (party : {party // party ≠ excluded}) => sharesOf value drawn party) =
      PMF.uniformOfFintype ({party // party ≠ excluded} → p.ReducedElement) ∧
    (∀ source shares rest, shareValue p value key (parties + 1) source = some (shares, rest) ↔
      ∃ (drawn : (Fin parties → p.ReducedElement) × (Fin parties → p.ReducedElement))
        (between : Source),
        drawMany p parties source = some (listed drawn.1, between) ∧
        drawMany p parties between = some (listed drawn.2, rest) ∧
        shares = List.ofFn fun party =>
          ⟨sharesOf value drawn.1 party, sharesOf (key.mac value) drawn.2 party⟩) ∧
    (PMF.uniformOfFintype
        ((Fin parties → p.ReducedElement) × (Fin parties → p.ReducedElement))).map
        (fun drawn (party : {party // party ≠ excluded}) =>
          (sharesOf value drawn.1 party, sharesOf (key.mac value) drawn.2 party)) =
      PMF.uniformOfFintype ({party // party ≠ excluded} → p.ReducedElement × p.ReducedElement) := by
  have hvalues := bijective_view excluded value
  have hmacs := bijective_view excluded (key.mac value)
  refine ⟨fun source shares rest => additiveShares_eq_some_iff, fun view => ?_, sum_sharesOf,
    map_uniformOfFintype hvalues, fun source shares rest => shareValue_eq_some_iff,
    map_uniformOfFintype ?_⟩
  · simpa only [funext_iff] using hvalues.existsUnique view
  · exact (Equiv.arrowProdEquivProdArrow _ _ _).symm.bijective.comp (hvalues.prodMap hmacs)

/-- Three parties share the value 4 modulo 7. The first gets 5 and the last gets 6 exactly if 0 and 6 are
drawn, and then the middle one, which is left out, has 0. -/
theorem dealing_private_seven :
    let p : Modulus := ⟨.ofNat 7, by decide⟩
    let element (v : Fin 7) : p.ReducedElement := ⟨.ofNat v, by revert v; decide⟩
    let drawn : Fin 2 → p.ReducedElement := ![element 0, element 6]
    sharesOf (element 4) drawn = ![element 5, element 0, element 6] ∧
      (∀ other : Fin 2 → p.ReducedElement, sharesOf (element 4) other 0 = element 5 →
        sharesOf (element 4) other 2 = element 6 → other = drawn) ∧
      (∑ party, (sharesOf (element 4) drawn party).val.toNat) % 7 = 4 := by
  intro p element drawn
  have hshares : sharesOf (element 4) drawn = ![element 5, element 0, element 6] := by decide
  obtain ⟨-, hview, hsum, -⟩ := dealing_private (1 : Fin 3) (element 4) (element 2)
  refine ⟨hshares, fun other hfirst hlast => ?_, hsum drawn⟩
  obtain ⟨_, -, hunique⟩ := hview fun party => ![element 5, element 0, element 6] party
  have hother := hunique other fun party => by
    obtain ⟨party, hparty⟩ := party
    fin_cases party
    · exact hfirst
    · exact absurd rfl hparty
    · exact hlast
  exact hother.trans (hunique drawn fun party => congrFun hshares party).symm

end Dealing
end AuthenticatedMpc
