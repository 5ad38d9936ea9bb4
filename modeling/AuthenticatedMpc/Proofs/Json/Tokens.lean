import AuthenticatedMpc.Proofs.Json.Numbers
import AuthenticatedMpc.Proofs.Json.Texts
import Mathlib.Data.List.Chain

/-!
# Scanning a JSON text

Reading the first token gives a token and a spelling of it. The other way round, a spelled token is the
first one that is read unless it is a numeral that goes on, so that a text is scanned into the tokens
that it spells where no two numerals are neighbours.
-/

namespace AuthenticatedMpc
namespace Json
namespace Token

variable {token : Token} {front chars rest : List Char}

/-- The tokens that do not show where they end. -/
def IsNumeral : Token → Prop
  | natural _ => True
  | numeral _ => True
  | _ => False

/-! ## The first token -/

theorem next?_of_isDigit {c : Char} (h : c.isDigit) (chars : List Char) :
    next? (c :: chars) = number? (c :: chars) := by
  rw [next?.eq_def]
  split <;> first | rfl | (next heq => cases heq <;> cases h)

theorem next?_numeral {sign whole : List Char} (hsign : sign = [] ∨ sign = ['-'])
    (hwhole : IsWhole whole) (chars : List Char) :
    next? (sign ++ whole ++ chars) = number? (sign ++ whole ++ chars) := by
  rcases hsign with rfl | rfl
  · obtain ⟨c, digits, rfl⟩ := List.exists_cons_of_ne_nil hwhole.1.1
    exact next?_of_isDigit (hwhole.1.2 c List.mem_cons_self) _
  · rfl

theorem next?_append (h : token.SpelledBy front) (hrest : token.IsNumeral → EndsNumeral rest) :
    next? (front ++ rest) = some (token, rest) := by
  cases h with
  | @natural value =>
    have hwhole := isWhole_toDigits value
    have hread := number?_append (.inl rfl) hwhole .absent .absent (hrest trivial)
    have hnext := next?_numeral (.inl rfl) hwhole rest
    simp only [List.nil_append, List.append_nil] at hread hnext
    rw [hnext, hread, digitsValue_toDigits]
    rfl
  | @numeral sign whole fraction exponent hsign hwhole hfraction hexponent hplain =>
    have hsome : (sign.isEmpty && fraction.isEmpty && exponent.isEmpty) = false := by
      simp only [Bool.and_eq_false_iff, List.isEmpty_eq_false_iff]
      rcases hplain with h | h | h
      · exact .inl (.inl h)
      · exact .inl (.inr h)
      · exact .inr h
    rw [List.append_assoc, List.append_assoc, next?_numeral hsign hwhole, ← List.append_assoc,
      ← List.append_assoc, number?_append hsign hwhole hfraction hexponent (hrest trivial), hsome]
    rfl
  | text hbody =>
    rw [List.cons_append, List.append_assoc, List.singleton_append]
    exact text?_append hbody rest
  | _ => rfl

theorem exists_of_next? (h : next? chars = some (token, rest)) :
    ∃ front, chars = front ++ rest ∧ token.SpelledBy front := by
  unfold next? at h
  split at h
  case h_1 => cases h
  case h_8 =>
    obtain ⟨content, body, rfl, rfl, hbody⟩ := exists_textBody h
    exact ⟨_, by simp, .text hbody⟩
  case h_12 => exact exists_of_number? h
  all_goals
    cases h
    exact ⟨_, rfl, by constructor⟩

/-! ## The front of a spelling -/

theorem isBlank_iff {c : Char} : isBlank c = true ↔ c ∈ [' ', '\n', '\r', '\t'] := by
  simp [isBlank, or_assoc]

theorem not_isBlank_of_isDigit {c : Char} (h : c.isDigit) : isBlank c = false := by
  rw [← Bool.not_eq_true, isBlank_iff]
  intro hc
  simp only [List.mem_cons, List.not_mem_nil, or_false] at hc
  rcases hc with rfl | rfl | rfl | rfl <;> cases h

theorem exists_cons_of_spelledBy (h : token.SpelledBy front) :
    ∃ c chars, front = c :: chars ∧ isBlank c = false := by
  cases h with
  | @natural value =>
    have hdigits := (isWhole_toDigits value).1
    obtain ⟨c, digits, hcons⟩ := List.exists_cons_of_ne_nil hdigits.1
    have hc := hdigits.2 c (hcons ▸ List.mem_cons_self)
    exact ⟨c, digits, hcons, not_isBlank_of_isDigit hc⟩
  | numeral hsign hwhole =>
    rcases hsign with rfl | rfl
    · obtain ⟨c, digits, rfl⟩ := List.exists_cons_of_ne_nil hwhole.1.1
      exact ⟨c, _, rfl, not_isBlank_of_isDigit (hwhole.1.2 c List.mem_cons_self)⟩
    · exact ⟨'-', _, rfl, rfl⟩
  | _ => exact ⟨_, _, rfl, rfl⟩

theorem endsNumeral_spelledBy (h : token.SpelledBy front) (hnumeral : ¬token.IsNumeral)
    (rest : List Char) : EndsNumeral (front ++ rest) := by
  cases h with
  | natural => exact absurd trivial hnumeral
  | numeral => exact absurd trivial hnumeral
  | _ =>
    intro c hc
    cases hc
    decide

/-! ## Scanning -/

/-- No two numerals are neighbours. -/
def Separated (tokens : List Token) : Prop :=
  tokens.IsChain fun first next => ¬(first.IsNumeral ∧ next.IsNumeral)

theorem endsNumeral_spaced {token : Token} {tokens : List Token} (hnumeral : token.IsNumeral)
    (hseparated : Separated (token :: tokens)) (h : Spaced tokens rest) : EndsNumeral rest := by
  cases h with
  | nil =>
    intro c hc
    cases hc
  | blank hblank =>
    intro c hc
    cases hc
    simp only [List.mem_cons, List.not_mem_nil, or_false] at hblank
    rcases hblank with rfl | rfl | rfl | rfl <;> decide
  | token hfront =>
    have hne := (List.isChain_cons_cons.mp hseparated).1
    exact endsNumeral_spelledBy hfront (fun hnext => hne ⟨hnumeral, hnext⟩) _

theorem scan_of_spaced {tokens : List Token} (h : Spaced tokens chars) (hseparated : Separated tokens)
    {fuel : ℕ} (hfuel : chars.length ≤ fuel) : scan fuel chars = some tokens := by
  induction h generalizing fuel with
  | nil => rw [scan]
  | @blank c tokens rest hblank _ ih =>
    obtain ⟨fuel, rfl⟩ := Nat.exists_eq_add_one_of_ne_zero (Nat.ne_zero_of_lt hfuel)
    rw [scan, if_pos (isBlank_iff.mpr hblank)]
    exact ih hseparated (Nat.le_of_succ_le_succ hfuel)
  | @token token tokens front rest hfront hrest ih =>
    -- Only a numeral could go on, and what follows one is no numeral.
    have hnext := next?_append hfront fun hnumeral => endsNumeral_spaced hnumeral hseparated hrest
    obtain ⟨c, chars, rfl, hblank⟩ := exists_cons_of_spelledBy hfront
    obtain ⟨fuel, rfl⟩ := Nat.exists_eq_add_one_of_ne_zero (Nat.ne_zero_of_lt hfuel)
    have hlength : rest.length ≤ fuel := by
      simp only [List.length_append, List.length_cons] at hfuel
      omega
    have htail := ih (List.IsChain.tail hseparated) hlength
    rw [List.cons_append] at hnext ⊢
    simp only [scan, hblank, hnext, htail, Bool.false_eq_true, if_false, Option.bind_eq_bind,
      Option.bind_some, Option.pure_def]

theorem spaced_of_scan {tokens : List Token} {fuel : ℕ} (h : scan fuel chars = some tokens) :
    Spaced tokens chars := by
  fun_induction scan fuel chars generalizing tokens with
  | case1 =>
    cases h
    exact .nil
  | case2 => cases h
  | case3 fuel c chars hblank ih => exact .blank (isBlank_iff.mp hblank) (ih h)
  | case4 fuel c chars hblank ih =>
    simp only [Option.bind_eq_bind, Option.bind_eq_some_iff, Prod.exists, Option.pure_def,
      Option.some.injEq] at h
    obtain ⟨token, rest, hnext, tokens, htail, rfl⟩ := h
    obtain ⟨front, hchars, hfront⟩ := exists_of_next? hnext
    rw [hchars]
    exact .token hfront (ih rest htail)

end Token
end Json
end AuthenticatedMpc
