import AuthenticatedMpc.Proofs.Json.Grammar
import Mathlib.Data.List.Basic
import Mathlib.Data.List.Induction
import Mathlib.Data.List.TakeDrop
import Mathlib.Data.List.TakeWhile
import Mathlib.Tactic.IntervalCases

/-!
# Numerals of JSON texts

A numeral is read up to where it ends, which is before any character that could continue it, and as a
plain natural exactly where it consists of the decimal digits of one.
-/

namespace AuthenticatedMpc
namespace Json
namespace Token

variable {chars rest digits fraction exponent : List Char}

/-! ## Runs of digits -/

def EndsDigits (rest : List Char) : Prop := ∀ c ∈ rest.head?, ¬c.isDigit

theorem spanDigits_append (hdigits : ∀ c ∈ digits, c.isDigit) (hrest : EndsDigits rest) :
    spanDigits (digits ++ rest) = (digits, rest) := by
  have htake : rest.takeWhile Char.isDigit = [] := by
    cases rest with
    | nil => rfl
    | cons c rest => exact List.takeWhile_cons_of_neg (hrest c rfl)
  have hdrop : rest.dropWhile Char.isDigit = rest := by
    cases rest with
    | nil => rfl
    | cons c rest => exact List.dropWhile_cons_of_neg (hrest c rfl)
  rw [spanDigits, List.span_eq_takeWhile_dropWhile, List.takeWhile_append_of_pos hdigits,
    List.dropWhile_append_of_pos hdigits, htake, hdrop, List.append_nil]

theorem eq_of_spanDigits (h : spanDigits chars = (digits, rest)) :
    chars = digits ++ rest ∧ ∀ c ∈ digits, c.isDigit := by
  rw [spanDigits, List.span_eq_takeWhile_dropWhile] at h
  cases h
  exact ⟨List.takeWhile_append_dropWhile.symm, fun c => List.mem_takeWhile_imp⟩

theorem digits?_append (h : IsDigits digits) (hrest : EndsDigits rest) :
    digits? (digits ++ rest) = some (digits, rest) := by
  rw [digits?, spanDigits_append h.2 hrest]
  obtain ⟨c, digits, rfl⟩ := List.exists_cons_of_ne_nil h.1
  rfl

theorem eq_of_digits? (h : digits? chars = some (digits, rest)) :
    chars = digits ++ rest ∧ IsDigits digits := by
  unfold digits? at h
  split at h
  · cases h
  · next hne hspan =>
    cases h
    obtain ⟨hchars, hdigits⟩ := eq_of_spanDigits hspan
    exact ⟨hchars, hne, hdigits⟩

theorem wholePart?_append (h : IsWhole digits) (hrest : EndsDigits rest) :
    wholePart? (digits ++ rest) = some (digits, rest) := by
  rw [wholePart?, spanDigits_append h.1.2 hrest]
  split
  · next heq => exact absurd (Prod.mk.inj heq).1 h.1.1
  · next heq =>
    obtain ⟨rfl, -⟩ := Prod.mk.inj heq
    cases h.2 rfl
  · next heq =>
    cases heq
    rfl

theorem eq_of_wholePart? (h : wholePart? chars = some (digits, rest)) :
    chars = digits ++ rest ∧ IsWhole digits := by
  unfold wholePart? at h
  split at h
  · cases h
  · cases h
  · next hne hzero hspan =>
    cases h
    obtain ⟨hchars, hdigits⟩ := eq_of_spanDigits hspan
    refine ⟨hchars, ⟨hne, hdigits⟩, fun hhead => ?_⟩
    match digits, hhead with
    | [c], hhead => exact congrArg (fun c => [c]) (Option.some.inj hhead)
    | c :: next :: digits, hhead =>
      cases hhead
      exact absurd rfl (hzero next digits)

/-! ## Fractions and exponents -/

theorem fraction?_append (h : IsFraction fraction) (hrest : EndsDigits rest)
    (hpoint : rest.head? ≠ some '.') : fraction? (fraction ++ rest) = some (fraction, rest) := by
  cases h with
  | absent =>
    rw [List.nil_append, fraction?.eq_def]
    split
    · exact absurd rfl hpoint
    · rfl
  | present hdigits =>
    rw [List.cons_append, fraction?, digits?_append hdigits hrest, Option.map_some]

theorem eq_of_fraction? (h : fraction? chars = some (fraction, rest)) :
    chars = fraction ++ rest ∧ IsFraction fraction := by
  unfold fraction? at h
  split at h
  · obtain ⟨⟨digits, rest⟩, hread, heq⟩ := Option.map_eq_some_iff.mp h
    cases heq
    obtain ⟨rfl, hdigits⟩ := eq_of_digits? hread
    exact ⟨rfl, .present hdigits⟩
  · cases h
    exact ⟨rfl, .absent⟩

theorem exponent?_append (h : IsExponent exponent) (hrest : EndsDigits rest)
    (hmark : ∀ c ∈ rest.head?, c ≠ 'e' ∧ c ≠ 'E') :
    exponent? (exponent ++ rest) = some (exponent, rest) := by
  cases h with
  | absent =>
    cases rest with
    | nil => rfl
    | cons c rest =>
      obtain ⟨hsmall, hlarge⟩ := hmark c rfl
      exact if_neg (not_or.mpr ⟨hsmall, hlarge⟩)
  | @present mark sign digits hmark' hsign hdigits =>
    rw [List.cons_append, List.append_assoc, exponent?.eq_def]
    simp only [if_pos hmark']
    rcases hsign with rfl | rfl | rfl
    · obtain ⟨d, digits, rfl⟩ := List.exists_cons_of_ne_nil hdigits.1
      have hd : ¬(d = '+' ∨ d = '-') := by
        have hdigit := hdigits.2 d List.mem_cons_self
        rintro (rfl | rfl) <;> cases hdigit
      have hread := digits?_append hdigits hrest
      rw [List.cons_append] at hread
      simp only [List.nil_append, List.cons_append, if_neg hd, hread, Option.map_some]
    · simp only [List.cons_append, List.nil_append, digits?_append hdigits hrest, Option.map_some]
      rfl
    · simp only [List.cons_append, List.nil_append, digits?_append hdigits hrest, Option.map_some]
      rfl

theorem eq_of_exponent? (h : exponent? chars = some (exponent, rest)) :
    chars = exponent ++ rest ∧ IsExponent exponent := by
  unfold exponent? at h
  split at h
  · next mark chars =>
    split_ifs at h with hmark
    · split at h
      · next s chars =>
        split_ifs at h with hsign
        · obtain ⟨⟨digits, rest⟩, hread, heq⟩ := Option.map_eq_some_iff.mp h
          cases heq
          obtain ⟨rfl, hdigits⟩ := eq_of_digits? hread
          exact ⟨rfl, @IsExponent.present mark [s] digits hmark (by simpa using hsign) hdigits⟩
        · obtain ⟨⟨digits, rest⟩, hread, heq⟩ := Option.map_eq_some_iff.mp h
          cases heq
          obtain ⟨hchars, hdigits⟩ := eq_of_digits? hread
          rw [hchars]
          exact ⟨rfl, @IsExponent.present mark [] digits hmark (.inl rfl) hdigits⟩
      · cases h
    · cases h
      exact ⟨rfl, .absent⟩
  · cases h
    exact ⟨rfl, .absent⟩

/-! ## Plain naturals -/

theorem digitsValue_toDigits (value : ℕ) : digitsValue (Nat.toDigits 10 value) = value :=
  Nat.ofDigitChars_ten_toDigits

theorem digitsValue_append_singleton (front : List Char) (c : Char) :
    digitsValue (front ++ [c]) = 10 * digitsValue front + (c.toNat - '0'.toNat) := by
  rw [digitsValue, List.foldl_append]
  rfl

theorem digitChar_of_isDigit {c : Char} (h : c.isDigit) :
    c.toNat - '0'.toNat < 10 ∧ Nat.digitChar (c.toNat - '0'.toNat) = c := by
  obtain ⟨hlow, hhigh⟩ : 48 ≤ c.toNat ∧ c.toNat ≤ 57 := Char.isDigit_iff_toNat.mp h
  have hc : c = Char.ofNat c.toNat := (Char.ofNat_toNat c).symm
  rw [hc]
  generalize c.toNat = n at hlow hhigh
  interval_cases n <;> decide

theorem head?_toDigits_ne {value : ℕ} (h : value ≠ 0) :
    (Nat.toDigits 10 value).head? ≠ some '0' := by
  induction value using Nat.strong_induction_on with
  | _ value ih =>
    rcases Nat.lt_or_ge value 10 with hlt | hge
    · rw [Nat.toDigits_of_lt_base hlt]
      interval_cases value <;> first | exact absurd rfl h | decide
    · rw [Nat.toDigits_of_base_le (by decide) hge, List.head?_append_of_ne_nil _ Nat.toDigits_ne_nil]
      exact ih (value / 10) (by omega) (by omega)

theorem isWhole_toDigits (value : ℕ) : IsWhole (Nat.toDigits 10 value) := by
  refine ⟨⟨Nat.toDigits_ne_nil, fun c => Nat.isDigit_of_mem_toDigits (by decide) (by decide)⟩,
    fun hhead => ?_⟩
  by_cases h : value = 0
  · rw [h]
    rfl
  · exact absurd hhead (head?_toDigits_ne h)

/-- Digits without a leading zero are those of the number that they spell. -/
theorem toDigits_digitsValue (h : IsWhole digits) :
    Nat.toDigits 10 (digitsValue digits) = digits := by
  -- Digits are taken from the back, where dividing by ten drops them.
  induction digits using List.reverseRecOn with
  | nil => exact absurd rfl h.1.1
  | append_singleton front c ih =>
    obtain ⟨hlt, hchar⟩ := digitChar_of_isDigit (h.1.2 c (by simp))
    rw [digitsValue_append_singleton]
    by_cases hfront : front = []
    · subst hfront
      rw [show digitsValue [] = 0 from rfl, Nat.mul_zero, Nat.zero_add, Nat.toDigits_of_lt_base hlt,
        hchar, List.nil_append]
    · have hhead : front.head? ≠ some '0' := by
        intro hhead
        have hone := h.2 (by rw [List.head?_append_of_ne_nil _ hfront, hhead])
        have hlength := congrArg List.length hone
        simp [hfront] at hlength
      have hwhole : IsWhole front :=
        ⟨⟨hfront, fun d hd => h.1.2 d (List.mem_append_left _ hd)⟩, fun h => absurd h hhead⟩
      have hpos : digitsValue front ≠ 0 := by
        intro hzero
        rw [← ih hwhole, hzero] at hhead
        exact hhead rfl
      rw [Nat.toDigits_of_base_le (by decide) (by omega), Nat.mul_add_div (by decide),
        Nat.div_eq_of_lt hlt, Nat.add_zero, ih hwhole, Nat.mul_add_mod, Nat.mod_eq_of_lt hlt, hchar]

/-! ## Whole numerals -/

/-- No character follows that could continue a numeral. -/
def EndsNumeral (rest : List Char) : Prop :=
  ∀ c ∈ rest.head?, ¬c.isDigit ∧ c ≠ '.' ∧ c ≠ 'e' ∧ c ≠ 'E'

theorem endsDigits_fraction (h : IsFraction fraction) (hrest : EndsDigits rest) :
    EndsDigits (fraction ++ rest) := by
  cases h with
  | absent => exact hrest
  | present =>
    intro c hc
    cases hc
    decide

theorem endsDigits_exponent (h : IsExponent exponent) (hrest : EndsDigits rest) :
    EndsDigits (exponent ++ rest) := by
  cases h with
  | absent => exact hrest
  | present hmark =>
    intro c hc
    cases hc
    rcases hmark with rfl | rfl <;> decide

theorem head?_exponent_ne (h : IsExponent exponent) (hrest : rest.head? ≠ some '.') :
    (exponent ++ rest).head? ≠ some '.' := by
  cases h with
  | absent => exact hrest
  | present hmark =>
    rintro hc
    cases hc
    rcases hmark with h | h <;> cases h

theorem unsigned?_append (sign : List Char) {whole : List Char} (hwhole : IsWhole whole)
    (hfraction : IsFraction fraction) (hexponent : IsExponent exponent) (hrest : EndsNumeral rest) :
    unsigned? sign (whole ++ (fraction ++ (exponent ++ rest))) =
      some (if sign.isEmpty && fraction.isEmpty && exponent.isEmpty then natural (digitsValue whole)
        else numeral (String.ofList (sign ++ whole ++ fraction ++ exponent)), rest) := by
  have hdigits : EndsDigits rest := fun c hc => (hrest c hc).1
  have hpoint : rest.head? ≠ some '.' := fun hc => (hrest '.' hc).2.1 rfl
  have hexp := endsDigits_exponent hexponent hdigits
  have hread := wholePart?_append hwhole (endsDigits_fraction hfraction hexp)
  have hread' := fraction?_append hfraction hexp (head?_exponent_ne hexponent hpoint)
  have hread'' := exponent?_append hexponent hdigits fun c hc => (hrest c hc).2.2
  simp only [unsigned?, hread, hread', hread'', Option.bind_eq_bind, Option.bind_some,
    Option.pure_def]
  split <;> rfl

theorem number?_of_isDigit {c : Char} (h : c.isDigit) (chars : List Char) :
    number? (c :: chars) = unsigned? [] (c :: chars) := by
  rw [number?.eq_def]
  split
  · next heq =>
    cases heq
    cases h
  · rfl

theorem number?_append {sign whole : List Char} (hsign : sign = [] ∨ sign = ['-'])
    (hwhole : IsWhole whole) (hfraction : IsFraction fraction) (hexponent : IsExponent exponent)
    (hrest : EndsNumeral rest) :
    number? (sign ++ whole ++ fraction ++ exponent ++ rest) =
      some (if sign.isEmpty && fraction.isEmpty && exponent.isEmpty then natural (digitsValue whole)
        else numeral (String.ofList (sign ++ whole ++ fraction ++ exponent)), rest) := by
  rw [← unsigned?_append sign hwhole hfraction hexponent hrest]
  simp only [List.append_assoc]
  rcases hsign with rfl | rfl
  · obtain ⟨c, digits, rfl⟩ := List.exists_cons_of_ne_nil hwhole.1.1
    exact number?_of_isDigit (hwhole.1.2 c List.mem_cons_self) _
  · rfl

theorem exists_of_unsigned? {sign : List Char} {token : Token} (hsign : sign = [] ∨ sign = ['-'])
    (h : unsigned? sign chars = some (token, rest)) :
    ∃ front, chars = front ++ rest ∧ token.SpelledBy (sign ++ front) := by
  simp only [unsigned?, Option.bind_eq_bind, Option.bind_eq_some_iff, Prod.exists] at h
  obtain ⟨whole, _, hread, fraction, _, hread', exponent, _, hread'', h⟩ := h
  obtain ⟨rfl, hwhole⟩ := eq_of_wholePart? hread
  obtain ⟨rfl, hfraction⟩ := eq_of_fraction? hread'
  obtain ⟨rfl, hexponent⟩ := eq_of_exponent? hread''
  refine ⟨whole ++ fraction ++ exponent, ?_⟩
  split_ifs at h with hplain
  · cases h
    simp only [Bool.and_eq_true, List.isEmpty_iff] at hplain
    obtain ⟨⟨rfl, rfl⟩, rfl⟩ := hplain
    have hspelled := @SpelledBy.natural (digitsValue whole)
    rw [toDigits_digitsValue hwhole] at hspelled
    exact ⟨by simp, by simpa using hspelled⟩
  · cases h
    have hplain : sign ≠ [] ∨ fraction ≠ [] ∨ exponent ≠ [] := by
      by_contra hnone
      simp only [not_or, not_not] at hnone
      obtain ⟨rfl, rfl, rfl⟩ := hnone
      exact hplain rfl
    have hspelled := SpelledBy.numeral hsign hwhole hfraction hexponent hplain
    exact ⟨by simp, by simpa using hspelled⟩

theorem exists_of_number? {token : Token} (h : number? chars = some (token, rest)) :
    ∃ front, chars = front ++ rest ∧ token.SpelledBy front := by
  unfold number? at h
  split at h
  · obtain ⟨front, rfl, hfront⟩ := exists_of_unsigned? (.inr rfl) h
    exact ⟨_, rfl, hfront⟩
  · exact exists_of_unsigned? (.inl rfl) h

end Token
end Json
end AuthenticatedMpc
