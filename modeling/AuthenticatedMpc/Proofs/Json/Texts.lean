import AuthenticatedMpc.Proofs.Json.Grammar
import Mathlib.Tactic.IntervalCases

/-!
# Texts in quotes

The code units read from a text are those of its pieces, and joining surrogates gives the characters
that the pieces spell, if they spell any.
-/

namespace AuthenticatedMpc
namespace Json
namespace Token

/-! ## Escapes -/

theorem exists_ofNat_eq {c : Char} {low high : ℕ} (h : low ≤ c.toNat ∧ c.toNat ≤ high) :
    ∃ n, low ≤ n ∧ n ≤ high ∧ Char.ofNat n = c :=
  ⟨c.toNat, h.1, h.2, Char.ofNat_toNat c⟩

theorem hexValue?_eq_some_iff {c : Char} {d : ℕ} : hexValue? c = some d ↔ IsHexDigit d c := by
  constructor
  · intro h
    unfold hexValue? at h
    split_ifs at h with hdigit hlower hupper <;> cases h
    · obtain ⟨n, hlow, hhigh, rfl⟩ := @exists_ofNat_eq c 48 57 hdigit
      interval_cases n <;> exact ⟨by decide, by decide⟩
    · obtain ⟨n, hlow, hhigh, rfl⟩ := @exists_ofNat_eq c 97 102 hlower
      interval_cases n <;> exact ⟨by decide, by decide⟩
    · obtain ⟨n, hlow, hhigh, rfl⟩ := @exists_ofNat_eq c 65 70 hupper
      interval_cases n <;> exact ⟨by decide, by decide⟩
  · rintro ⟨hd, rfl | rfl⟩ <;> interval_cases d <;> decide

theorem codeUnit?_eq_some_iff {a b c d : Char} {unit : ℕ} :
    codeUnit? a b c d = some unit ↔
      ∃ i j k l, IsHexDigit i a ∧ IsHexDigit j b ∧ IsHexDigit k c ∧ IsHexDigit l d ∧
        4096 * i + 256 * j + 16 * k + l = unit := by
  simp [codeUnit?, Option.bind_eq_some_iff, hexValue?_eq_some_iff]

theorem simpleEscape?_eq_some_iff {letter c : Char} :
    simpleEscape? letter = some c ↔ (letter, c) ∈ shortEscapes := by
  constructor
  · intro h
    unfold simpleEscape? at h
    split_ifs at h with hself <;> cases h
    · rcases hself with rfl | rfl | rfl <;> decide
    all_goals subst_vars; decide
  · intro h
    simp only [shortEscapes, List.mem_cons, Prod.mk.injEq, List.not_mem_nil, or_false] at h
    rcases h with ⟨rfl, rfl⟩ | ⟨rfl, rfl⟩ | ⟨rfl, rfl⟩ | ⟨rfl, rfl⟩ | ⟨rfl, rfl⟩ | ⟨rfl, rfl⟩ |
      ⟨rfl, rfl⟩ | ⟨rfl, rfl⟩ <;> rfl

/-! ## Pieces -/

theorem units?_cons {c : Char} (hslash : c ≠ '\\') (chars : List Char) :
    units? (c :: chars) =
      if c = '"' then some ([], chars)
      else if c.toNat < 32 then none
      else (units? chars).map fun p => (c.toNat :: p.1, p.2) := by
  rw [units?.eq_def]
  split
  · next h => cases h
  · next h => exact absurd (List.cons.inj h).1 hslash
  · next h => exact absurd (List.cons.inj h).1 hslash
  · next h =>
    cases h
    simp only [hslash, false_or]
    cases units? chars <;> rfl

theorem units?_escape {letter : Char} (hletter : letter ≠ 'u') (chars : List Char) :
    units? ('\\' :: letter :: chars) =
      (simpleEscape? letter).bind fun c => (units? chars).map fun p => (c.toNat :: p.1, p.2) := by
  rw [units?.eq_def]
  split
  · next h => cases h
  · next h => exact absurd (List.cons.inj (List.cons.inj h).2).1 hletter
  · next h =>
    cases h
    cases simpleEscape? letter <;> cases units? chars <;> rfl
  · next hne h =>
    cases h
    exact absurd rfl (hne letter chars rfl)

/-- A piece in front of a text gives the first of its units. -/
theorem units?_piece {unit : ℕ} {front : List Char} (h : Piece unit front) (chars : List Char) :
    units? (front ++ chars) = (units? chars).map fun p => (unit :: p.1, p.2) := by
  cases h with
  | plain hquote hslash hcontrol =>
    rw [List.singleton_append, units?_cons hslash, if_neg hquote, if_neg (Nat.not_lt.mpr hcontrol)]
  | @short letter c hmem =>
    have hescape := simpleEscape?_eq_some_iff.mpr hmem
    have hletter : letter ≠ 'u' := by
      rintro rfl
      cases hescape
    rw [List.cons_append, List.singleton_append, units?_escape hletter, hescape, Option.bind_some]
  | unit ha hb hc hd =>
    have hunit := codeUnit?_eq_some_iff.mpr ⟨_, _, _, _, ha, hb, hc, hd, rfl⟩
    simp only [List.cons_append, List.nil_append, units?, hunit]
    cases units? chars <;> rfl

theorem units?_joined {units : List ℕ} {body : List Char} (h : Joined Piece units body)
    (rest : List Char) : units? (body ++ '"' :: rest) = some (units, rest) := by
  induction h with
  | nil => rw [List.nil_append, units?_cons (by decide), if_pos rfl]
  | cons hfront _ ih => rw [List.append_assoc, units?_piece hfront, ih, Option.map_some]

theorem exists_joined_of_units? {chars : List Char} {units : List ℕ} {rest : List Char}
    (h : units? chars = some (units, rest)) :
    ∃ body, chars = body ++ '"' :: rest ∧ Joined Piece units body := by
  fun_induction units? chars generalizing units rest with
  | case1 => cases h
  | case2 a b c d chars ih =>
    simp only [Option.pure_def, Option.bind_eq_bind, Option.bind_eq_some_iff, Prod.exists,
      Option.some.injEq, Prod.mk.injEq] at h
    obtain ⟨unit, hunit, units, rest, htail, rfl, rfl⟩ := h
    obtain ⟨body, rfl, hbody⟩ := ih htail
    obtain ⟨i, j, k, l, ha, hb, hc, hd, rfl⟩ := codeUnit?_eq_some_iff.mp hunit
    exact ⟨_, rfl, .cons (.unit ha hb hc hd) hbody⟩
  | case3 letter chars _ ih =>
    simp only [Option.pure_def, Option.bind_eq_bind, Option.bind_eq_some_iff, Prod.exists,
      Option.some.injEq, Prod.mk.injEq] at h
    obtain ⟨c, hc, units, rest, htail, rfl, rfl⟩ := h
    obtain ⟨body, rfl, hbody⟩ := ih htail
    exact ⟨_, rfl, .cons (.short (simpleEscape?_eq_some_iff.mp hc)) hbody⟩
  | case4 chars =>
    cases h
    exact ⟨[], rfl, .nil⟩
  | case5 => cases h
  | case6 c chars _ _ hquote hplain ih =>
    simp only [Option.pure_def, Option.bind_eq_bind, Option.bind_eq_some_iff, Prod.exists,
      Option.some.injEq, Prod.mk.injEq] at h
    obtain ⟨units, rest, htail, rfl, rfl⟩ := h
    obtain ⟨body, rfl, hbody⟩ := ih htail
    obtain ⟨hslash, hcontrol⟩ := not_or.mp hplain
    exact ⟨_, rfl, .cons (.plain hquote hslash (Nat.not_lt.mp hcontrol)) hbody⟩

/-! ## Surrogates -/

theorem isLead_iff {unit : ℕ} : isLead unit = true ↔ 0xd800 ≤ unit ∧ unit < 0xdc00 := by
  simp [isLead]

theorem isTrail_iff {unit : ℕ} : isTrail unit = true ↔ 0xdc00 ≤ unit ∧ unit < 0xe000 := by
  simp [isTrail]

theorem char_not_surrogate (c : Char) : isLead c.toNat = false ∧ isTrail c.toNat = false := by
  have hvalid : c.toNat < 0xd800 ∨ 0xdfff < c.toNat ∧ c.toNat < 0x110000 := c.valid
  simp only [← Bool.not_eq_true, isLead_iff, isTrail_iff]
  omega

theorem joinUnits?_cons (c : Char) (units : List ℕ) :
    joinUnits? (c.toNat :: units) = (joinUnits? units).map (c :: ·) := by
  obtain ⟨hlead, htrail⟩ := char_not_surrogate c
  cases units <;> simp [joinUnits?, hlead, htrail]

theorem joinUnits?_pair {lead trail : ℕ} (hlead : isLead lead = true) (htrail : isTrail trail = true)
    (units : List ℕ) :
    joinUnits? (lead :: trail :: units) =
      (joinUnits? units).map
        (Char.ofNat (0x10000 + 0x400 * (lead - 0xd800) + (trail - 0xdc00)) :: ·) := by
  simp [joinUnits?, hlead, htrail]

theorem exists_units_of_joined {cs body : List Char} (h : Joined CharSpelling cs body) :
    ∃ units, Joined Piece units body ∧ joinUnits? units = some cs := by
  induction h with
  | nil => exact ⟨[], .nil, rfl⟩
  | @cons c cs front rest hfront _ ih =>
    obtain ⟨units, hunits, hjoin⟩ := ih
    cases hfront with
    | piece h => exact ⟨_, .cons h hunits, by rw [joinUnits?_cons, hjoin, Option.map_some]⟩
    | @pair lead trail front rest' hlead htrail hc hfront hrest =>
      refine ⟨lead :: trail :: units, ?_, ?_⟩
      · rw [List.append_assoc]
        exact .cons hfront (.cons hrest hunits)
      · rw [joinUnits?_pair (isLead_iff.mpr hlead) (isTrail_iff.mpr htrail), hjoin, ← hc,
          Char.ofNat_toNat, Option.map_some]

theorem exists_char_of_piece {unit : ℕ} {front : List Char} (h : Piece unit front)
    (hlead : isLead unit = false) (htrail : isTrail unit = false) : ∃ c : Char, c.toNat = unit := by
  cases h with
  | plain => exact ⟨_, rfl⟩
  | short => exact ⟨_, rfl⟩
  | unit ha hb hc hd =>
    have ha := ha.1
    have hb := hb.1
    have hc := hc.1
    have hd := hd.1
    simp only [← Bool.not_eq_true, isLead_iff, isTrail_iff] at hlead htrail
    refine ⟨Char.ofNatAux _ ?_, rfl⟩
    unfold Nat.isValidChar
    omega

theorem exists_char_of_pair {lead trail : ℕ} (hlead : isLead lead = true)
    (htrail : isTrail trail = true) :
    ∃ c : Char, c.toNat = 0x10000 + 0x400 * (lead - 0xd800) + (trail - 0xdc00) := by
  rw [isLead_iff] at hlead
  rw [isTrail_iff] at htrail
  refine ⟨Char.ofNatAux _ ?_, rfl⟩
  unfold Nat.isValidChar
  omega

/-- A piece that is no surrogate spells a character by itself. -/
theorem charSpelling_of_piece {unit : ℕ} {front : List Char} (h : Piece unit front)
    (hlead : isLead unit = false) (htrail : isTrail unit = false) :
    CharSpelling (Char.ofNat unit) front := by
  obtain ⟨c, rfl⟩ := exists_char_of_piece h hlead htrail
  rw [Char.ofNat_toNat]
  exact .piece h

theorem joined_of_joinUnits? {units : List ℕ} {cs body : List Char} (h : Joined Piece units body)
    (hjoin : joinUnits? units = some cs) : Joined CharSpelling cs body := by
  -- The induction follows the joining, which takes one piece at a time or the two of a pair.
  fun_induction joinUnits? units generalizing cs body with
  | case1 =>
    cases hjoin
    cases h
    exact .nil
  | case2 => cases hjoin
  | case3 unit hplain =>
    cases hjoin
    obtain ⟨hlead, htrail⟩ := Bool.or_eq_false_iff.mp (Bool.not_eq_true _ ▸ hplain)
    obtain _ | ⟨hfront, hnil⟩ := h
    cases hnil
    exact .cons (charSpelling_of_piece hfront hlead htrail) .nil
  | case4 lead trail units hlead htrail point =>
    rename_i ih
    obtain ⟨cs', hcs, hcons⟩ := Option.map_eq_some_iff.mp hjoin
    obtain _ | ⟨hfront, h⟩ := h
    obtain _ | ⟨hnext, hrest⟩ := h
    obtain ⟨c, hc⟩ := exists_char_of_pair hlead htrail
    have hpair : cs = c :: cs' := by rw [← hcons, ← Char.ofNat_toNat c, hc]
    rw [hpair, ← List.append_assoc]
    exact .cons (.pair (isLead_iff.mp hlead) (isTrail_iff.mp htrail) hc hfront hnext) (ih hrest hcs)
  | case5 => cases hjoin
  | case6 => cases hjoin
  | case7 unit next units hlead htrail ih =>
    obtain ⟨cs, hcs, rfl⟩ := Option.map_eq_some_iff.mp hjoin
    obtain _ | ⟨hfront, hrest⟩ := h
    rw [Bool.not_eq_true] at hlead htrail
    exact .cons (charSpelling_of_piece hfront hlead htrail) (ih hrest hcs)

/-! ## Bodies of texts -/

/-- The content of a text is what its units join to. -/
theorem textBody_iff {content : Option String} {body : List Char} :
    TextBody content body ↔
      ∃ units, Joined Piece units body ∧ (joinUnits? units).map String.ofList = content := by
  constructor
  · intro h
    cases content with
    | some content =>
      obtain ⟨units, hunits, hjoin⟩ := exists_units_of_joined h
      exact ⟨units, hunits, by rw [hjoin, Option.map_some, String.ofList_toList]⟩
    | none =>
      obtain ⟨⟨units, hunits⟩, hnone⟩ := h
      refine ⟨units, hunits, ?_⟩
      cases hjoin : joinUnits? units with
      | none => rfl
      | some cs => exact absurd (joined_of_joinUnits? hunits hjoin) (hnone cs)
  · rintro ⟨units, hunits, rfl⟩
    cases hjoin : joinUnits? units with
    | some cs =>
      have hbody := joined_of_joinUnits? hunits hjoin
      simpa [TextBody] using hbody
    | none =>
      refine ⟨⟨units, hunits⟩, fun cs hcs => ?_⟩
      obtain ⟨units', hunits', hjoin'⟩ := exists_units_of_joined hcs
      have heq := (units?_joined hunits []).symm.trans (units?_joined hunits' [])
      cases heq
      rw [hjoin] at hjoin'
      cases hjoin'

theorem text?_append {content : Option String} {body : List Char} (h : TextBody content body)
    (rest : List Char) : text? (body ++ '"' :: rest) = some (text content, rest) := by
  obtain ⟨units, hunits, rfl⟩ := textBody_iff.mp h
  rw [text?, units?_joined hunits, Option.map_some]

theorem exists_textBody {chars rest : List Char} {token : Token}
    (h : text? chars = some (token, rest)) :
    ∃ content body, token = text content ∧ chars = body ++ '"' :: rest ∧ TextBody content body := by
  obtain ⟨⟨units, rest⟩, hunits, heq⟩ := Option.map_eq_some_iff.mp h
  cases heq
  obtain ⟨body, rfl, hbody⟩ := exists_joined_of_units? hunits
  exact ⟨_, body, rfl, rfl, textBody_iff.mpr ⟨units, hbody, rfl⟩⟩

end Token
end Json
end AuthenticatedMpc
