import AuthenticatedMpc.Field.Sampling
import AuthenticatedMpc.Proofs.Field.Arithmetic

/-!
# Drawn elements
-/

namespace AuthenticatedMpc

theorem Draw.bind_eq_some_iff {α β : Type} {first : Draw α} {next : α → Draw β} {source : Source}
    {result : β × Source} :
    (first >>= next) source = some result ↔
      ∃ a between, first source = some (a, between) ∧ next a between = some result :=
  Option.bind_eq_some_iff.trans Prod.exists

namespace Modulus

variable {p : Modulus} {source source' : Source} {value : Element}

theorem pick_eq_some_iff {i : ℕ} : p.pick i source = some (value, source') ↔
    p.candidate (source.advance (2 * i)) = value ∧ value < p.value ∧
      source' = source.advance (2 * (i + 1)) := by
  unfold pick
  dsimp only
  constructor
  · intro h
    split at h
    · next hlt =>
      obtain ⟨rfl, rfl⟩ := Prod.mk.inj (Option.some.inj h)
      exact ⟨rfl, hlt, rfl⟩
    · cases h
  · rintro ⟨rfl, hlt, rfl⟩
    rw [if_pos hlt]

theorem isSome_pick_iff {i : ℕ} :
    (p.pick i source).isSome = true ↔ p.candidate (source.advance (2 * i)) < p.value := by
  unfold pick
  dsimp only
  split <;> simpa

/-- A search tries the pair it has come to, and goes on behind it. -/
theorem search_eq (source : Source) (i : ℕ) :
    p.search source i = if (p.pick i source).isSome then some i else p.search source (i + 1) := by
  rw [search, repeatM_eq_of_monadTail]
  by_cases h : (p.pick i source).isSome = true
  · simp [repeatM.body, h]
  · simp [repeatM.body, h, search]

theorem search_of_first {i k : ℕ} (hle : i ≤ k)
    (hskip : ∀ j < k, ¬(p.pick j source).isSome = true) (hk : (p.pick k source).isSome = true) :
    p.search source i = some k := by
  induction hle using Nat.decreasingInduction with
  | self => rw [search_eq, if_pos hk]
  | of_succ i hlt ih =>
    rw [search_eq, if_neg (hskip i hlt), ih]

/-- A draw picks the first candidate below the modulus and uses up the pairs before it. -/
theorem draw_of_first {i : ℕ} (hskip : ∀ j < i, ¬(p.pick j source).isSome = true)
    (h : (p.pick i source).isSome = true) : p.draw source = p.pick i source := by
  unfold draw
  cases i with
  | zero =>
    obtain ⟨result, hresult⟩ := Option.isSome_iff_exists.mp h
    rw [hresult]
    rfl
  | succ i =>
    rw [Option.not_isSome_iff_eq_none.mp (hskip 0 i.succ_pos), search_of_first i.succ_pos hskip h]
    rfl

theorem exists_pick_of_draw (h : p.draw source = some (value, source')) :
    ∃ i, p.pick i source = some (value, source') := by
  unfold draw at h
  cases hfirst : p.pick 0 source with
  | some result =>
    rw [hfirst] at h
    exact ⟨0, hfirst.trans h⟩
  | none =>
    rw [hfirst] at h
    obtain ⟨i, -, hi⟩ := Option.bind_eq_some_iff.mp h
    exact ⟨i, hi⟩

theorem draw_of_lt (h : p.candidate source < p.value) :
    p.draw source = some (p.candidate source, source.advance 2) := by
  have hpick : p.pick 0 source = some (p.candidate source, source.advance 2) := if_pos h
  rw [draw, hpick]
  rfl

theorem reduced_draw (h : p.draw source = some (value, source')) : p.Reduced value := by
  obtain ⟨i, hi⟩ := exists_pick_of_draw h
  obtain ⟨-, hlt, -⟩ := pick_eq_some_iff.mp hi
  exact reduced_iff.mpr hlt

theorem word_draw (h : p.draw source = some (value, source')) : source'.word = source.word := by
  obtain ⟨i, hi⟩ := exists_pick_of_draw h
  obtain ⟨-, -, rfl⟩ := pick_eq_some_iff.mp hi
  rfl

end Modulus

theorem Nonce.word_draw {source source' : Source} {nonce : Nonce}
    (h : Nonce.draw source = some (nonce, source')) : source'.word = source.word := by
  obtain ⟨-, rfl⟩ := Prod.mk.inj (Option.some.inj h)
  rfl

/-- A draw ends wherever in the stream it begins. -/
def Source.Draws (p : Modulus) (word : Nat → UInt64) : Prop :=
  ∀ position, ∃ value source, p.draw ⟨word, position⟩ = some (value, source)

/-- From zeros alone, every draw ends at once. -/
theorem Source.draws_default {p : Modulus} : Source.Draws p (default : Source).word := by
  intro position
  have hzero : p.candidate ⟨(default : Source).word, position⟩ = .zero := by
    show p.masked 0 0 = .zero
    simp only [Modulus.masked, UInt64.zero_and]
    rfl
  have hlt : p.candidate ⟨(default : Source).word, position⟩ < p.value := by
    rw [hzero, Limbs.lt_iff]
    exact Modulus.reduced_zero
  exact ⟨_, _, Modulus.draw_of_lt hlt⟩

end AuthenticatedMpc
