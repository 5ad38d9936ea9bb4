import AuthenticatedMpc.Proofs.Field.Residue
import AuthenticatedMpc.Proofs.Field.Sampling
import AuthenticatedMpc.Share
import Mathlib.Algebra.BigOperators.Fin
import Mathlib.Algebra.BigOperators.Ring.Finset

/-!
# Shares that stand for a value

Reduced shares stand for the residue that they add up to. Authenticated shares stand for a value
under a key if the MAC shares stand for the product of the two. Each operation on shares keeps
this, and a dealing establishes it.
-/

namespace AuthenticatedMpc

open Finset

variable {p : Modulus} {parties : ℕ}

/-- One reduced share for each party, adding up to a residue. -/
structure Modulus.Splits (p : Modulus) (shares : Fin parties → Element)
    (v : ZMod p.value.toNat) : Prop where
  reduced : ∀ party, p.Reduced (shares party)
  sum_residue : ∑ party, p.residue (shares party) = v

namespace Modulus.Splits

variable {a b : Fin parties → Element} {u v : ZMod p.value.toNat} {constant : Element}

theorem add (ha : p.Splits a u) (hb : p.Splits b v) :
    p.Splits (fun party => p.add (a party) (b party)) (u + v) where
  reduced party := reduced_add (ha.reduced party) (hb.reduced party)
  sum_residue := by
    simp only [residue_add (ha.reduced _) (hb.reduced _), sum_add_distrib, ha.sum_residue,
      hb.sum_residue]

theorem sub (ha : p.Splits a u) (hb : p.Splits b v) :
    p.Splits (fun party => p.sub (a party) (b party)) (u - v) where
  reduced party := reduced_sub (ha.reduced party) (hb.reduced party)
  sum_residue := by
    simp only [residue_sub (ha.reduced _) (hb.reduced _), sum_sub_distrib, ha.sum_residue,
      hb.sum_residue]

theorem mul (ha : p.Splits a u) (hconstant : p.Reduced constant) :
    p.Splits (fun party => p.mul (a party) constant) (u * p.residue constant) where
  reduced party := reduced_mul (ha.reduced party) hconstant
  sum_residue := by
    simp only [residue_mul (ha.reduced _) hconstant, ← sum_mul, ha.sum_residue]

theorem add_first {a : Fin (parties + 1) → Element} (ha : p.Splits a u)
    (hconstant : p.Reduced constant) :
    p.Splits (fun party => if party.val = firstParty then p.add (a party) constant else a party)
      (u + p.residue constant) where
  reduced party := by
    split
    · exact reduced_add (ha.reduced party) hconstant
    · exact ha.reduced party
  sum_residue := by
    have hsum := ha.sum_residue
    rw [Fin.sum_univ_succ] at hsum ⊢
    simp only [firstParty, Fin.val_zero, Fin.val_succ, Nat.succ_ne_zero, if_true, if_false,
      residue_add (ha.reduced 0) hconstant]
    rw [← hsum]
    ring

theorem sum_ofFn (ha : p.Splits a u) : p.sum (List.ofFn a) = .ofNat u.val := by
  have hreduced : ∀ share ∈ List.ofFn a, p.Reduced share :=
    List.forall_mem_ofFn_iff.mpr ha.reduced
  have hopened : p.residue (p.sum (List.ofFn a)) = u := by
    rw [Modulus.sum, residue_foldl_add reduced_zero hreduced, residue_zero, zero_add, List.map_ofFn,
      List.sum_ofFn, ← ha.sum_residue]
    rfl
  refine (residue_inj (reduced_foldl_add reduced_zero hreduced)
    (reduced_ofNat (ZMod.val_lt u))).mp ?_
  exact hopened.trans (by rw [residue_ofNat (ZMod.val_lt u), ZMod.natCast_zmod_val])

end Modulus.Splits

/-- One authenticated share for each party, which stand for a value under a key. -/
structure Modulus.Authentic (p : Modulus) (key : ZMod p.value.toNat) (shares : Fin parties → Share)
    (v : ZMod p.value.toNat) : Prop where
  value : p.Splits (fun party => (shares party).value) v
  mac : p.Splits (fun party => (shares party).mac) (key * v)

namespace Modulus.Authentic

variable {key : ZMod p.value.toNat} {a b : Fin parties → Share} {u v : ZMod p.value.toNat}
  {constant : Element}

theorem add (ha : p.Authentic key a u) (hb : p.Authentic key b v) :
    p.Authentic key (fun party => Share.add p (a party) (b party)) (u + v) where
  value := ha.value.add hb.value
  mac := mul_add key u v ▸ ha.mac.add hb.mac

theorem sub (ha : p.Authentic key a u) (hb : p.Authentic key b v) :
    p.Authentic key (fun party => Share.sub p (a party) (b party)) (u - v) where
  value := ha.value.sub hb.value
  mac := mul_sub key u v ▸ ha.mac.sub hb.mac

theorem mulPublic (ha : p.Authentic key a u) (hconstant : p.Reduced constant) :
    p.Authentic key (fun party => Share.mulPublic p (a party) constant)
      (u * p.residue constant) where
  value := ha.value.mul hconstant
  mac := mul_assoc key u (p.residue constant) ▸ ha.mac.mul hconstant

/-- Only one share of the value moves, but every share of the MAC does. -/
theorem addPublic {a : Fin (parties + 1) → Share} {keyShares : Fin (parties + 1) → Element}
    (ha : p.Authentic key a u) (hkey : p.Splits keyShares key) (hconstant : p.Reduced constant) :
    p.Authentic key
      (fun party => Share.addPublic p (a party) constant (keyShares party) party)
      (u + p.residue constant) where
  value := ha.value.add_first hconstant
  mac := mul_add key u (p.residue constant) ▸ ha.mac.add (hkey.mul hconstant)

/-- All parties' shares open to the value and its MAC. -/
theorem openAll_ofFn {key : Element} (ha : p.Authentic (p.residue key) a u) :
    Share.openAll p (List.ofFn a) = ⟨.ofNat u.val, .ofNat (key.toNat * u.val % p.value.toNat)⟩ := by
  have hmac : (p.residue key * u).val = key.toNat * u.val % p.value.toNat := by
    rw [ZMod.val_mul, residue, ZMod.val_natCast, Nat.mod_mul_mod]
  rw [Share.openAll, List.map_ofFn, List.map_ofFn, ← hmac, ← ha.value.sum_ofFn, ← ha.mac.sum_ofFn]
  rfl

end Modulus.Authentic

/-! ## Dealings -/

namespace Dealing

variable {source rest : Source} {key value : Element} {elements : List Element}

theorem drawMany_add {count₁ count₂ : ℕ}
    (h : drawMany p (count₁ + count₂) source = some (elements, rest)) :
    ∃ first between second, drawMany p count₁ source = some (first, between) ∧
      drawMany p count₂ between = some (second, rest) := by
  induction count₁ generalizing source elements with
  | zero => exact ⟨[], source, elements, rfl, by rwa [Nat.zero_add] at h⟩
  | succ count₁ ih =>
    rw [Nat.succ_add] at h
    obtain ⟨value, after, hvalue, h⟩ := Draw.bind_eq_some_iff.mp h
    obtain ⟨others, last, hothers, h⟩ := Draw.bind_eq_some_iff.mp h
    obtain ⟨-, rfl⟩ := Prod.mk.inj (Option.some.inj h)
    obtain ⟨first, between, second, hfirst, hsecond⟩ := ih hothers
    exact ⟨value :: first, between, second, Draw.bind_eq_some_iff.mpr ⟨value, after, hvalue,
      Draw.bind_eq_some_iff.mpr ⟨first, between, hfirst, rfl⟩⟩, hsecond⟩

theorem isSome_drawMany (hdraws : Source.Draws p source.word) (count : ℕ) :
    (drawMany p count source).isSome := by
  induction count generalizing source with
  | zero => rfl
  | succ count ih =>
    obtain ⟨value, after, hvalue⟩ := hdraws source.position
    have hafter : Source.Draws p after.word := by rwa [Modulus.word_draw hvalue]
    obtain ⟨⟨others, last⟩, hothers⟩ := Option.isSome_iff_exists.mp (ih hafter)
    exact Option.isSome_iff_exists.mpr ⟨(value :: others, last), Draw.bind_eq_some_iff.mpr
      ⟨value, after, hvalue, Draw.bind_eq_some_iff.mpr ⟨others, last, hothers, rfl⟩⟩⟩

theorem drawMany_eq_ofFn {count : ℕ} (h : drawMany p count source = some (elements, rest)) :
    ∃ drawn : Fin count → Element, elements = List.ofFn drawn ∧ ∀ i, p.Reduced (drawn i) := by
  induction count generalizing source elements with
  | zero =>
    obtain ⟨rfl, -⟩ := Prod.mk.inj (Option.some.inj h)
    exact ⟨Fin.elim0, rfl, fun i => i.elim0⟩
  | succ count ih =>
    obtain ⟨value, after, hvalue, h⟩ := Draw.bind_eq_some_iff.mp h
    obtain ⟨others, last, hothers, h⟩ := Draw.bind_eq_some_iff.mp h
    obtain ⟨rfl, rfl⟩ := Prod.mk.inj (Option.some.inj h)
    obtain ⟨drawn, rfl, hdrawn⟩ := ih hothers
    refine ⟨Fin.cons value drawn, (List.ofFn_cons value drawn).symm, Fin.cases ?_ hdrawn⟩
    exact Modulus.reduced_draw hvalue

theorem splits_cons {others : Fin parties → Element} (hvalue : p.Reduced value)
    (hothers : ∀ party, p.Reduced (others party)) :
    p.Splits (Fin.cons (p.sub value (p.sum (List.ofFn others))) others) (p.residue value) := by
  have hmem : ∀ share ∈ List.ofFn others, p.Reduced share := List.forall_mem_ofFn_iff.mpr hothers
  have hsum : p.Reduced (p.sum (List.ofFn others)) :=
    Modulus.reduced_foldl_add Modulus.reduced_zero hmem
  refine { reduced := Fin.cases ?reduced hothers, sum_residue := ?sum }
  case reduced => exact Modulus.reduced_sub hvalue hsum
  case sum =>
    simp only [Fin.sum_univ_succ, Fin.cons_zero, Fin.cons_succ]
    rw [Modulus.residue_sub hvalue hsum, Modulus.sum,
      Modulus.residue_foldl_add Modulus.reduced_zero hmem, List.map_ofFn, List.sum_ofFn,
      Modulus.residue_zero, zero_add]
    exact sub_add_cancel _ _

/-- The shares of all parties but the first are drawn, and the first share is what is left. -/
theorem additiveShares_eq (hvalue : p.Reduced value)
    (h : drawMany p parties source = some (elements, rest)) :
    ∃ shares : Fin (parties + 1) → Element,
      additiveShares p value (parties + 1) source = some (List.ofFn shares, rest) ∧
        p.Splits shares (p.residue value) := by
  obtain ⟨others, rfl, hothers⟩ := drawMany_eq_ofFn h
  refine ⟨_, ?_, splits_cons hvalue hothers⟩
  rw [List.ofFn_cons]
  exact Draw.bind_eq_some_iff.mpr ⟨_, rest, h, rfl⟩

theorem macKey_eq (h : drawMany p (parties + 1) source = some (elements, rest)) :
    ∃ (key : Element) (keyShares : Fin (parties + 1) → Element),
      macKey p (parties + 1) source = some ((key, List.ofFn keyShares), rest) ∧
        p.Reduced key ∧ p.Splits keyShares (p.residue key) := by
  obtain ⟨key, after, hkey, h⟩ := Draw.bind_eq_some_iff.mp h
  obtain ⟨others, last, hothers, h⟩ := Draw.bind_eq_some_iff.mp h
  obtain ⟨-, rfl⟩ := Prod.mk.inj (Option.some.inj h)
  obtain ⟨keyShares, hshares, hsplits⟩ := additiveShares_eq (Modulus.reduced_draw hkey) hothers
  exact ⟨key, keyShares, Draw.bind_eq_some_iff.mpr ⟨key, after, hkey,
    Draw.bind_eq_some_iff.mpr ⟨_, last, hshares, rfl⟩⟩, Modulus.reduced_draw hkey, hsplits⟩

theorem shareValue_eq (hkey : p.Reduced key) (hvalue : p.Reduced value)
    (h : drawMany p (parties + parties) source = some (elements, rest)) :
    ∃ shares : Fin (parties + 1) → Share,
      shareValue p value key (parties + 1) source = some (List.ofFn shares, rest) ∧
        p.Authentic (p.residue key) shares (p.residue value) := by
  obtain ⟨first, between, second, hfirst, hsecond⟩ := drawMany_add h
  obtain ⟨values, hvalues, hsplits⟩ := additiveShares_eq hvalue hfirst
  obtain ⟨macs, hmacs, hsplits'⟩ := additiveShares_eq (Modulus.reduced_mul hkey hvalue) hsecond
  refine ⟨fun party => ⟨values party, macs party⟩, ?_, hsplits, ?_⟩
  · have hzip : List.zipWith Share.mk (List.ofFn values) (List.ofFn macs) =
        List.ofFn fun party => ⟨values party, macs party⟩ :=
      List.ext_getElem (by simp) fun _ _ _ => by simp only [List.getElem_zipWith, List.getElem_ofFn]
    rw [← hzip]
    exact Draw.bind_eq_some_iff.mpr ⟨_, between, hvalues,
      Draw.bind_eq_some_iff.mpr ⟨_, rest, hmacs, rfl⟩⟩
  · rwa [Modulus.residue_mul hkey hvalue] at hsplits'

/-- A key, and under it the shares of each of the values. -/
def session (p : Modulus) (values : List Element) (parties : ℕ) :
    Draw ((Element × List Element) × List (List Share)) := do
  let (key, keyShares) ← macKey p parties
  let shares ← values.mapM fun value => shareValue p value key parties
  pure ((key, keyShares), shares)

def draws (count parties : ℕ) : ℕ := parties + count * (2 * (parties - 1))

theorem mapM_shareValue_eq {values : List Element} (hkey : p.Reduced key)
    (hvalues : ∀ value ∈ values, p.Reduced value)
    (h : drawMany p (values.length * (2 * parties)) source = some (elements, rest)) :
    ∃ shares : Fin values.length → Fin (parties + 1) → Share,
      values.mapM (fun value => shareValue p value key (parties + 1)) source =
        some (List.ofFn fun k => List.ofFn (shares k), rest) ∧
      ∀ k, p.Authentic (p.residue key) (shares k) (p.residue values[k]) := by
  induction values generalizing source elements with
  | nil =>
    rw [List.length_nil, Nat.zero_mul] at h
    obtain ⟨-, rfl⟩ := Prod.mk.inj (Option.some.inj h)
    exact ⟨Fin.elim0, rfl, fun k => k.elim0⟩
  | cons value values ih =>
    rw [List.length_cons, Nat.succ_mul, Nat.add_comm, Nat.two_mul] at h
    obtain ⟨hvalue, hvalues⟩ := List.forall_mem_cons.mp hvalues
    obtain ⟨first, between, others, hfirst, hothers⟩ := drawMany_add h
    obtain ⟨shares, hshares, hauthentic⟩ := shareValue_eq hkey hvalue hfirst
    rw [← Nat.two_mul] at hothers
    obtain ⟨table, htable, hall⟩ := ih hvalues hothers
    refine ⟨Fin.cons shares table, ?_, Fin.cases hauthentic hall⟩
    rw [List.mapM_cons, List.ofFn_succ]
    exact Draw.bind_eq_some_iff.mpr ⟨_, between, hshares,
      Draw.bind_eq_some_iff.mpr ⟨_, rest, htable, rfl⟩⟩

/-- On a stream on which the draws end, a dealing ends with shares that stand for the values. -/
theorem session_eq {values : List Element} (hvalues : ∀ value ∈ values, p.Reduced value)
    (h : drawMany p (draws values.length (parties + 1)) source = some (elements, rest)) :
    ∃ (key : Element) (keyShares : Fin (parties + 1) → Element)
      (shares : Fin values.length → Fin (parties + 1) → Share),
      session p values (parties + 1) source =
        some (((key, List.ofFn keyShares), List.ofFn fun k => List.ofFn (shares k)), rest) ∧
      p.Splits keyShares (p.residue key) ∧
      ∀ k, p.Authentic (p.residue key) (shares k) (p.residue values[k]) := by
  obtain ⟨first, between, others, hfirst, hothers⟩ := drawMany_add h
  obtain ⟨key, keyShares, hmac, hkey, hsplits⟩ := macKey_eq hfirst
  obtain ⟨shares, hshares, hauthentic⟩ := mapM_shareValue_eq hkey hvalues hothers
  exact ⟨key, keyShares, shares, Draw.bind_eq_some_iff.mpr ⟨_, between, hmac,
    Draw.bind_eq_some_iff.mpr ⟨_, rest, hshares, rfl⟩⟩, hsplits, hauthentic⟩

end Dealing
end AuthenticatedMpc
