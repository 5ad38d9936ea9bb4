import AuthenticatedMpc.Proofs.Field.Arithmetic

/-!
# Decimal numerals of moduli

A numeral is read exactly where its text has the form of one, and as the number that its digits spell,
however many there are. A modulus is accepted exactly if that number is at least two and fits in 128
bits, and the digits that display a modulus read back as the same modulus.
-/

namespace AuthenticatedMpc
namespace Numeral

/-- Digits with underscores among them: some digit, and no underscore in front. -/
structure IsUnsigned (body : List Char) : Prop where
  isDigit_or : ∀ c ∈ body, c.isDigit ∨ c = '_'
  head?_ne : body.head? ≠ some '_'
  exists_isDigit : ∃ c ∈ body, c.isDigit

/-- The number that the digits spell, whatever stands between them. -/
def unsignedValue (body : List Char) : ℕ := Nat.ofDigitChars 10 (body.filter Char.isDigit) 0

/-- A text is a numeral of `v`: after one plus sign or none, digits and underscores that spell it. -/
def Spells (text : String) (v : ℕ) : Prop :=
  ∃ body, (text.toList = body ∨ text.toList = '+' :: body) ∧ IsUnsigned body ∧
    unsignedValue body = v

/-! ## Digits -/

theorem digit?_of_isDigit {c : Char} (h : c.isDigit) : digit? c = some (c.toNat - '0'.toNat) :=
  if_pos (Char.isDigit_iff_toNat.mp h)

theorem digit?_of_not_isDigit {c : Char} (h : ¬c.isDigit) : digit? c = none :=
  if_neg fun hrange => h (Char.isDigit_iff_toNat.mpr hrange)

theorem readDigits_eq_ok_iff {acc v : ℕ} {body : List Char} :
    readDigits acc body = .ok v ↔
      (∀ c ∈ body, c.isDigit ∨ c = '_') ∧
        Nat.ofDigitChars 10 (body.filter Char.isDigit) acc = v := by
  induction body generalizing acc with
  | nil => simp [readDigits]
  | cons c rest ih =>
    unfold readDigits
    by_cases hc : c = '_'
    · simp [hc, ih]
    · by_cases hdigit : c.isDigit
      · simp [hc, hdigit, digit?_of_isDigit, ih, Nat.ofDigitChars_cons]
      · simp [hc, hdigit, digit?_of_not_isDigit]

theorem readUnsigned_eq_ok_iff {body : List Char} {v : ℕ} :
    readUnsigned body = .ok v ↔ IsUnsigned body ∧ unsignedValue body = v := by
  cases body with
  | nil =>
    simp only [readUnsigned, reduceCtorEq, false_iff, not_and]
    intro h
    obtain ⟨c, hc, -⟩ := h.exists_isDigit
    cases hc
  | cons c rest =>
    rw [readUnsigned]
    split
    · next hc =>
      simp only [reduceCtorEq, false_iff, not_and]
      intro h
      exact absurd (congrArg some hc) h.head?_ne
    · next hc =>
      rw [readDigits_eq_ok_iff]
      apply and_congr_left'
      constructor
      · intro h
        have hdigit : c.isDigit := (h c List.mem_cons_self).resolve_right hc
        exact ⟨h, by simpa using hc, c, List.mem_cons_self, hdigit⟩
      · exact IsUnsigned.isDigit_or

/-! ## Signs -/

theorem IsUnsigned.head?_ne_plus {body : List Char} (h : IsUnsigned body) :
    body.head? ≠ some '+' := by
  intro hhead
  have hplus := h.isDigit_or '+' (List.mem_of_mem_head? hhead)
  revert hplus
  decide

/-- The numerals are what is read, and are read as what they spell. -/
theorem read_eq_ok_iff {text : String} {v : ℕ} : read text = .ok v ↔ Spells text v := by
  unfold read Spells
  generalize text.toList = chars
  rw [readUnsigned_eq_ok_iff]
  constructor
  · intro h
    refine ⟨dropSign chars, ?_, h⟩
    unfold dropSign
    split
    · split
      · exact .inl rfl
      · exact .inr rfl
    · exact .inl rfl
  · rintro ⟨body, rfl | rfl, h⟩
    · have hplus := h.1.head?_ne_plus
      have hdrop : dropSign chars = chars := by
        unfold dropSign
        split
        · exact absurd rfl hplus
        · rfl
      rwa [hdrop]
    · have hdrop : dropSign ('+' :: body) = body := if_neg h.1.head?_ne_plus
      rwa [hdrop]

theorem spells_toString (v : ℕ) : Spells (toString v) v := by
  have hdigits : ∀ c ∈ Nat.toDigits 10 v, c.isDigit := fun c =>
    Nat.isDigit_of_mem_toDigits (by decide) (by decide)
  obtain ⟨c, hc⟩ := List.exists_mem_of_ne_nil _ (Nat.toDigits_ne_nil (b := 10) (n := v))
  refine ⟨Nat.toDigits 10 v, .inl ?_, ⟨fun c hc => .inl (hdigits c hc), ?_, c, hc, hdigits c hc⟩, ?_⟩
  · rw [Nat.toString_eq_ofList_toDigits, String.toList_ofList]
  · intro hhead
    exact Nat.underscore_not_in_toDigits (List.mem_of_mem_head? hhead)
  · rw [unsignedValue, List.filter_eq_self.mpr hdigits, Nat.ofDigitChars_ten_toDigits]

end Numeral

namespace Modulus

variable {text : String} {v : ℕ}

theorem ofNumeral_of_lt (hspells : Numeral.Spells text v) (hlow : 2 ≤ v) (hhigh : v < 2 ^ 128) :
    ∃ p, ofNumeral text = .ok p ∧ p.value.toNat = v := by
  have hvalue : (Element.ofNat v).toNat = v := Element.toNat_ofNat_of_lt hhigh
  refine ⟨⟨Element.ofNat v, by rwa [hvalue]⟩, ?_, hvalue⟩
  rw [ofNumeral, Numeral.read_eq_ok_iff.mpr hspells]
  exact (if_neg (Nat.not_le.mpr hhigh)).trans (dif_pos (by rwa [hvalue]))

theorem ofNumeral_of_lt_two (hspells : Numeral.Spells text v) (hlow : v < 2) :
    ofNumeral text = .error (.tooSmall v) := by
  have hvalue : (Element.ofNat v).toNat = v := Element.toNat_ofNat_of_lt (by omega)
  have hsmall : ofElement (Element.ofNat v) = .error (.tooSmall v) := by
    rw [ofElement, dif_neg (by omega), hvalue]
  rw [ofNumeral, Numeral.read_eq_ok_iff.mpr hspells]
  exact (if_neg (by omega)).trans hsmall

theorem ofNumeral_of_le (hspells : Numeral.Spells text v) (hhigh : 2 ^ 128 ≤ v) :
    ofNumeral text = .error (.tooWide v) := by
  rw [ofNumeral, Numeral.read_eq_ok_iff.mpr hspells]
  exact if_pos hhigh

theorem ofNumeral_of_not_spells (hspells : ∀ v, ¬Numeral.Spells text v) :
    ∃ cause, ofNumeral text = .error (.numeral cause) := by
  unfold ofNumeral
  cases hread : Numeral.read text with
  | error cause => exact ⟨cause, rfl⟩
  | ok v => exact absurd (Numeral.read_eq_ok_iff.mp hread) (hspells v)

theorem eq_of_toNat_value_eq {p q : Modulus} (h : p.value.toNat = q.value.toNat) : p = q := by
  cases p
  cases q
  simpa [Limbs.toNat_inj] using h

theorem ofNumeral_eq_ok_iff {p : Modulus} :
    ofNumeral text = .ok p ↔ Numeral.Spells text p.value.toNat := by
  constructor
  · intro h
    cases hread : Numeral.read text with
    | error cause =>
      rw [ofNumeral, hread] at h
      cases h
    | ok v =>
      have hspells := Numeral.read_eq_ok_iff.mp hread
      rcases Nat.lt_or_ge v 2 with hlow | hlow
      · rw [ofNumeral_of_lt_two hspells hlow] at h
        cases h
      · rcases Nat.lt_or_ge v (2 ^ 128) with hhigh | hhigh
        · obtain ⟨q, hq, rfl⟩ := ofNumeral_of_lt hspells hlow hhigh
          cases h.symm.trans hq
          exact hspells
        · rw [ofNumeral_of_le hspells hhigh] at h
          cases h
  · intro hspells
    obtain ⟨q, hq, hvalue⟩ := ofNumeral_of_lt hspells p.two_le p.value_lt
    rw [hq, eq_of_toNat_value_eq hvalue]

/-- A text is read as a modulus exactly if it is a numeral of it. Numerals below two or beyond 128 bits
are refused with the number that they spell, everything else as no numeral, and what displays a modulus
is a numeral of it. -/
theorem ofNumeral_exact :
    (∀ text p, ofNumeral text = .ok p ↔
        ∃ v, Numeral.Spells text v ∧ 2 ≤ v ∧ v < 2 ^ 128 ∧ p.value.toNat = v) ∧
      (∀ text v, Numeral.Spells text v → 2 ≤ v → v < 2 ^ 128 →
        ∃ p, ofNumeral text = .ok p ∧ p.value.toNat = v) ∧
      (∀ text v, Numeral.Spells text v → v < 2 → ofNumeral text = .error (.tooSmall v)) ∧
      (∀ text v, Numeral.Spells text v → 2 ^ 128 ≤ v → ofNumeral text = .error (.tooWide v)) ∧
      (∀ text, (∀ v, ¬Numeral.Spells text v) →
        ∃ cause, ofNumeral text = .error (.numeral cause)) ∧
      ∀ p : Modulus, ofNumeral p.display = .ok p := by
  refine ⟨fun text p => ?_, fun text v => ofNumeral_of_lt, fun text v => ofNumeral_of_lt_two,
    fun text v => ofNumeral_of_le, fun text => ofNumeral_of_not_spells,
    fun p => ofNumeral_eq_ok_iff.mpr (Numeral.spells_toString _)⟩
  rw [ofNumeral_eq_ok_iff]
  constructor
  · intro h
    exact ⟨_, h, p.two_le, p.value_lt, rfl⟩
  · rintro ⟨v, h, -, -, rfl⟩
    exact h

/-- The greatest modulus with its sign and an underscore, the number after it, a small number that ends
in underscores, and a text that begins with one. -/
theorem ofNumeral_exact_boundary :
    (∃ p, ofNumeral "+34028236692093846346_3374607431768211455" = .ok p ∧
        p.value.toNat = 2 ^ 128 - 1 ∧ ofNumeral p.display = .ok p) ∧
      ofNumeral "340282366920938463463374607431768211456" = .error (.tooWide (2 ^ 128)) ∧
      ofNumeral "1__" = .error (.tooSmall 1) ∧
      ∃ cause, ofNumeral "_17" = .error (.numeral cause) := by
  obtain ⟨-, haccepted, hsmall, hwide, hrefused, hdisplay⟩ := ofNumeral_exact
  have hspells : ∀ {text v}, Numeral.read text = .ok v → Numeral.Spells text v :=
    Numeral.read_eq_ok_iff.mp
  refine ⟨?_, hwide _ _ (hspells rfl) le_rfl, hsmall _ _ (hspells rfl) (by decide), ?_⟩
  · obtain ⟨p, hp, hvalue⟩ := haccepted "+34028236692093846346_3374607431768211455" (2 ^ 128 - 1)
      (hspells rfl) (by decide) (by decide)
    exact ⟨p, hp, hvalue, hdisplay p⟩
  · apply hrefused
    intro v hv
    cases Numeral.read_eq_ok_iff.mpr hv

end Modulus
end AuthenticatedMpc
