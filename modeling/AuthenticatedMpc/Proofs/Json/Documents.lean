import AuthenticatedMpc.Proofs.Json.Tokens

/-!
# Reading a JSON document

A text is read as a document exactly if it spells it. In particular a text spells at most one document,
and a document is read back from its compact text.
-/

namespace AuthenticatedMpc
namespace Json

/-! ## Tokens of documents -/

theorem exists_cons_tokens (json : Json) :
    ∃ token rest, json.tokens = token :: rest ∧ token ≠ .closeBracket := by
  cases json with
  | array items => cases items <;> exact ⟨_, _, rfl, by simp⟩
  | object members => cases members <;> exact ⟨_, _, rfl, by simp⟩
  | _ => exact ⟨_, _, rfl, by simp⟩

theorem separated_cons {token : Token} {list : List Token} (htoken : ¬token.IsNumeral)
    (h : Token.Separated list) : Token.Separated (token :: list) :=
  List.isChain_cons.mpr ⟨fun _ _ hboth => htoken hboth.1, h⟩

theorem separated_append {list : List Token} {token : Token} {rest : List Token}
    (h : Token.Separated list) (htoken : ¬token.IsNumeral) (hrest : Token.Separated (token :: rest)) :
    Token.Separated (list ++ token :: rest) := by
  refine h.append hrest fun first _ next hnext hboth => ?_
  cases hnext
  exact htoken hboth.2

mutual

theorem separated_tokens : ∀ json : Json, Token.Separated json.tokens
  | null => .singleton _
  | bool _ => .singleton _
  | natural _ => .singleton _
  | numeral _ => .singleton _
  | text _ => .singleton _
  | array [] => separated_cons id (.singleton _)
  | array (item :: items) => separated_cons id (separated_itemTokens items _ (separated_tokens item))
  | object [] => separated_cons id (.singleton _)
  | object ((_, item) :: members) =>
    separated_cons id (separated_cons id (separated_cons id
      (separated_memberTokens members _ (separated_tokens item))))

theorem separated_itemTokens : ∀ (items : List Json) (list : List Token), Token.Separated list →
    Token.Separated (list ++ itemTokens items)
  | [], _, h => separated_append h id (.singleton _)
  | item :: items, _, h =>
    separated_append h id (separated_cons id (separated_itemTokens items _ (separated_tokens item)))

theorem separated_memberTokens : ∀ (members : List (Option String × Json)) (list : List Token),
    Token.Separated list → Token.Separated (list ++ memberTokens members)
  | [], _, h => separated_append h id (.singleton _)
  | (_, item) :: members, _, h =>
    separated_append h id (separated_cons id (separated_cons id (separated_cons id
      (separated_memberTokens members _ (separated_tokens item)))))

end

/-! ## Reading the tokens of a document -/

/-- With enough fuel, the document is read in front of anything. -/
def IsRead (json : Json) : Prop :=
  ∀ fuel rest, 2 * json.tokens.length ≤ fuel + 1 →
    value? fuel (json.tokens ++ rest) = some (json, rest)

mutual

theorem isRead : ∀ json : Json, IsRead json
  | null, fuel + 1, _, _ => rfl
  | bool _, fuel + 1, _, _ => rfl
  | natural _, fuel + 1, _, _ => rfl
  | numeral _, fuel + 1, _, _ => rfl
  | text _, fuel + 1, _, _ => rfl
  | array [], fuel + 1, _, _ => rfl
  -- A list costs two units of fuel, one for itself and one for its entries, and has two brackets.
  | array (item :: items), fuel + 1, rest, hfuel => by
    have hread := items?_tokens item items (isRead item) fuel rest (by
      simp only [tokens, List.length_cons] at hfuel
      omega)
    obtain ⟨token, list, htokens, hne⟩ := exists_cons_tokens item
    rw [htokens, List.cons_append, List.cons_append] at hread
    rw [tokens, htokens, List.cons_append, List.cons_append, List.cons_append, value?, hread,
      Option.map_some]
    exact fun _ heq => hne (List.cons.inj heq).1
  | object [], fuel + 1, _, _ => rfl
  | object ((key, item) :: members), fuel + 1, rest, hfuel => by
    have hread := members?_tokens key item members (isRead item) fuel rest (by
      simp only [tokens, List.length_cons] at hfuel
      omega)
    simp only [tokens, List.cons_append, value?, hread, Option.map_some]

theorem items?_tokens : ∀ (item : Json) (items : List Json), IsRead item → ∀ fuel rest,
    2 * (item.tokens ++ itemTokens items).length ≤ fuel →
    items? fuel (item.tokens ++ itemTokens items ++ rest) = some (item :: items, rest)
  | item, items, _, 0, _, hfuel => by
    cases items <;> simp [itemTokens] at hfuel
  | item, [], hitem, fuel + 1, rest, hfuel => by
    have hvalue := hitem fuel (.closeBracket :: rest) (by
      simp only [itemTokens, List.length_append, List.length_cons] at hfuel
      omega)
    simp only [items?, itemTokens, List.append_assoc, List.cons_append, List.nil_append, hvalue]
  | item, next :: items, hitem, fuel + 1, rest, hfuel => by
    simp only [itemTokens, List.length_append, List.length_cons] at hfuel
    have hread := items?_tokens next items (isRead next) fuel rest (by
      simp only [List.length_append]
      omega)
    have hvalue := hitem fuel (.comma :: (next.tokens ++ itemTokens items ++ rest)) (by omega)
    simp only [List.append_assoc] at hread hvalue
    simp only [items?, itemTokens, List.append_assoc, List.cons_append, hvalue, hread,
      Option.map_some]

theorem members?_tokens : ∀ (key : Option String) (item : Json)
    (members : List (Option String × Json)), IsRead item → ∀ fuel rest,
    2 * (item.tokens ++ memberTokens members).length ≤ fuel →
    members? fuel (.text key :: .colon :: (item.tokens ++ memberTokens members ++ rest)) =
      some ((key, item) :: members, rest)
  | _, _, members, _, 0, _, hfuel => by
    rcases members with _ | ⟨⟨_, _⟩, _⟩ <;> simp [memberTokens] at hfuel
  | key, item, [], hitem, fuel + 1, rest, hfuel => by
    have hvalue := hitem fuel (.closeBrace :: rest) (by
      simp only [memberTokens, List.length_append, List.length_cons] at hfuel
      omega)
    simp only [members?, memberTokens, List.append_assoc, List.cons_append, List.nil_append, hvalue]
  | key, item, (next, value) :: members, hitem, fuel + 1, rest, hfuel => by
    simp only [memberTokens, List.length_append, List.length_cons] at hfuel
    have hread := members?_tokens next value members (isRead value) fuel rest (by
      simp only [List.length_append]
      omega)
    have hvalue := hitem fuel
      (.comma :: .text next :: .colon :: (value.tokens ++ memberTokens members ++ rest)) (by omega)
    simp only [List.append_assoc] at hread hvalue
    simp only [members?, memberTokens, List.append_assoc, List.cons_append, hvalue, hread,
      Option.map_some]

end

mutual

theorem eq_of_value? : ∀ (fuel : ℕ) (list : List Token) (json : Json) (rest : List Token),
    value? fuel list = some (json, rest) → list = json.tokens ++ rest
  | 0, _, _, _, h => by cases h
  | fuel + 1, [], _, _, h => by cases h
  | fuel + 1, token :: list, json, rest, h => by
    cases token with
    | openBracket =>
      simp only [value?] at h
      split at h
      · cases h
        rfl
      · obtain ⟨⟨items, rest⟩, hread, heq⟩ := Option.map_eq_some_iff.mp h
        cases heq
        obtain ⟨item, others, rfl, hlist⟩ := eq_of_items? fuel list items rest hread
        rw [hlist]
        rfl
    | openBrace =>
      simp only [value?] at h
      split at h
      · cases h
        rfl
      · obtain ⟨⟨members, rest⟩, hread, heq⟩ := Option.map_eq_some_iff.mp h
        cases heq
        obtain ⟨key, item, others, rfl, hlist⟩ := eq_of_members? fuel list members rest hread
        rw [hlist]
        rfl
    | _ => first | (cases h; rfl) | cases h

theorem eq_of_items? : ∀ (fuel : ℕ) (list : List Token) (items : List Json) (rest : List Token),
    items? fuel list = some (items, rest) →
    ∃ item others, items = item :: others ∧ list = item.tokens ++ itemTokens others ++ rest
  | 0, _, _, _, h => by cases h
  | fuel + 1, list, items, rest, h => by
    unfold items? at h
    split at h
    · next item list' hvalue =>
      obtain ⟨⟨others, rest⟩, hread, heq⟩ := Option.map_eq_some_iff.mp h
      cases heq
      obtain ⟨next, others, rfl, hlist⟩ := eq_of_items? fuel list' others rest hread
      refine ⟨item, _, rfl, ?_⟩
      rw [eq_of_value? fuel list item _ hvalue, hlist]
      simp [itemTokens]
    · next item list' hvalue =>
      cases h
      refine ⟨item, [], rfl, ?_⟩
      rw [eq_of_value? fuel list item _ hvalue]
      simp [itemTokens]
    · cases h

theorem eq_of_members? : ∀ (fuel : ℕ) (list : List Token) (members : List (Option String × Json))
    (rest : List Token), members? fuel list = some (members, rest) →
    ∃ key item others, members = (key, item) :: others ∧
      list = .text key :: .colon :: (item.tokens ++ memberTokens others ++ rest)
  | 0, _, _, _, h => by cases h
  | fuel + 1, list, members, rest, h => by
    unfold members? at h
    split at h
    · next key list =>
      split at h
      · next item list' hvalue =>
        obtain ⟨⟨others, rest⟩, hread, heq⟩ := Option.map_eq_some_iff.mp h
        cases heq
        obtain ⟨next, value, others, rfl, hlist⟩ := eq_of_members? fuel list' others rest hread
        refine ⟨key, item, _, rfl, ?_⟩
        rw [eq_of_value? fuel list item _ hvalue, hlist]
        simp [memberTokens]
      · next item list' hvalue =>
        cases h
        refine ⟨key, item, [], rfl, ?_⟩
        rw [eq_of_value? fuel list item _ hvalue]
        simp [memberTokens]
      · cases h
    · cases h

end

theorem ofTokens?_eq_some_iff {list : List Token} {json : Json} :
    ofTokens? list = some json ↔ list = json.tokens := by
  constructor
  · intro h
    unfold ofTokens? at h
    split at h
    · next hvalue =>
      cases h
      rw [eq_of_value? _ _ _ _ hvalue, List.append_nil]
    · cases h
  · rintro rfl
    have hread := isRead json (2 * json.tokens.length) [] (Nat.le_add_right _ 1)
    rw [List.append_nil] at hread
    rw [ofTokens?, hread]

/-- A text is scanned into the tokens of a document only if it spells it. -/
theorem spelledBy_of_tokens {text : String} {json : Json}
    (h : Token.ofText? text = some json.tokens) : json.SpelledBy text :=
  Token.spaced_of_scan h

/-- The reader accepts a text exactly as the document that it spells. -/
theorem read?_eq_some_iff {text : String} {json : Json} :
    read? text = some json ↔ json.SpelledBy text := by
  constructor
  · intro h
    obtain ⟨list, hlist, hread⟩ := Option.bind_eq_some_iff.mp h
    obtain rfl := ofTokens?_eq_some_iff.mp hread
    exact spelledBy_of_tokens hlist
  · intro h
    have hscan := Token.scan_of_spaced h (separated_tokens json) (Nat.le_refl _)
    exact Option.bind_eq_some_iff.mpr ⟨_, hscan, ofTokens?_eq_some_iff.mpr rfl⟩

/-! ## Compact texts -/

theorem piece_escape (c : Char) : Piece c.toNat (escape c) := by
  unfold escape
  split_ifs with hquote hslash hline hreturn htab hback hfeed hcontrol
  -- Seven characters have a short escape.
  any_goals
    subst_vars
    exact .short (by decide)
  · have hzero : IsHexDigit 0 '0' := ⟨by decide, .inl rfl⟩
    have hhigh : IsHexDigit (c.toNat / 16) (hexDigit (c.toNat / 16)) := ⟨by omega, .inl rfl⟩
    have hlow : IsHexDigit (c.toNat % 16) (hexDigit (c.toNat % 16)) := ⟨by omega, .inl rfl⟩
    have hunit : 4096 * 0 + 256 * 0 + 16 * (c.toNat / 16) + c.toNat % 16 = c.toNat := by omega
    have hpiece := Piece.unit hzero hzero hhigh hlow
    rwa [hunit] at hpiece
  · exact .plain hquote hslash (Nat.not_lt.mp hcontrol)

theorem joined_escape (cs : List Char) : Joined CharSpelling cs (cs.flatMap escape) := by
  induction cs with
  | nil => exact .nil
  | cons c cs ih =>
    rw [List.flatMap_cons]
    exact .cons (.piece (piece_escape c)) ih

theorem spelledBy_quote (content : Option String) : (Token.text content).SpelledBy (quote content) := by
  cases content with
  | some content => exact .text (joined_escape content.toList)
  | none =>
    have hunit : Piece (4096 * 13 + 256 * 8 + 16 * 0 + 0) ['\\', 'u', 'd', '8', '0', '0'] :=
      .unit (Token.hexValue?_eq_some_iff.mp rfl) (Token.hexValue?_eq_some_iff.mp rfl)
        (Token.hexValue?_eq_some_iff.mp rfl) (Token.hexValue?_eq_some_iff.mp rfl)
    exact .text (Token.textBody_iff.mpr ⟨[0xd800], .cons hunit .nil, rfl⟩)

/-- The numerals of a document can be read as numerals. -/
def HasNumerals (list : List Token) : Prop :=
  ∀ spelling, .numeral spelling ∈ list → (Token.numeral spelling).SpelledBy spelling.toList

theorem HasNumerals.tail {token : Token} {list : List Token} (h : HasNumerals (token :: list)) :
    HasNumerals list := fun spelling hmem => h spelling (List.mem_cons_of_mem _ hmem)

theorem HasNumerals.left {list rest : List Token} (h : HasNumerals (list ++ rest)) :
    HasNumerals list := fun spelling hmem => h spelling (List.mem_append_left _ hmem)

theorem HasNumerals.right {list rest : List Token} (h : HasNumerals (list ++ rest)) :
    HasNumerals rest := fun spelling hmem => h spelling (List.mem_append_right _ hmem)

mutual

theorem spaced_chars : ∀ (json : Json), HasNumerals json.tokens → ∀ {list : List Token}
    {rest : List Char}, Spaced list rest → Spaced (json.tokens ++ list) (json.chars ++ rest)
  | null, _, _, _, h => .token .null h
  | bool true, _, _, _, h => .token .true h
  | bool false, _, _, _, h => .token .false h
  | natural value, _, _, _, h => by
    rw [chars, Nat.toString_eq_ofList_toDigits, String.toList_ofList]
    exact .token .natural h
  | numeral spelling, hnumerals, _, _, h =>
    .token (hnumerals spelling (List.mem_singleton_self _)) h
  | text content, _, _, _, h => .token (spelledBy_quote content) h
  | array [], _, _, _, h => by
    rw [chars]
    exact @Spaced.token .openBracket _ ['['] _ .openBracket (.token .closeBracket h)
  | array (item :: items), hnumerals, _, _, h => by
    have hitem : HasNumerals item.tokens := hnumerals.tail.left
    have hitems : HasNumerals (itemTokens items) := hnumerals.tail.right
    have hrest := spaced_chars item hitem (spaced_itemChars items hitems h)
    simp only [tokens, chars, List.cons_append, List.append_assoc]
    exact .token .openBracket hrest
  | object [], _, _, _, h => by
    rw [chars]
    exact @Spaced.token .openBrace _ ['\x7b'] _ .openBrace (.token .closeBrace h)
  | object ((key, item) :: members), hnumerals, _, _, h => by
    have hitem : HasNumerals item.tokens := hnumerals.tail.tail.tail.left
    have hmembers : HasNumerals (memberTokens members) := hnumerals.tail.tail.tail.right
    have hrest := spaced_chars item hitem (spaced_memberChars members hmembers h)
    simp only [tokens, chars, List.cons_append, List.append_assoc]
    exact .token .openBrace (.token (spelledBy_quote key) (.token .colon hrest))

theorem spaced_itemChars : ∀ (items : List Json), HasNumerals (itemTokens items) →
    ∀ {list : List Token} {rest : List Char}, Spaced list rest →
      Spaced (itemTokens items ++ list) (itemChars items ++ rest)
  | [], _, _, _, h => .token .closeBracket h
  | item :: items, hnumerals, _, _, h => by
    have hitem : HasNumerals item.tokens := hnumerals.tail.left
    have hitems : HasNumerals (itemTokens items) := hnumerals.tail.right
    have hrest := spaced_chars item hitem (spaced_itemChars items hitems h)
    simp only [itemTokens, itemChars, List.cons_append, List.append_assoc]
    exact .token .comma hrest

theorem spaced_memberChars : ∀ (members : List (Option String × Json)),
    HasNumerals (memberTokens members) → ∀ {list : List Token} {rest : List Char}, Spaced list rest →
      Spaced (memberTokens members ++ list) (memberChars members ++ rest)
  | [], _, _, _, h => .token .closeBrace h
  | (key, item) :: members, hnumerals, _, _, h => by
    have hitem : HasNumerals item.tokens := hnumerals.tail.tail.tail.left
    have hmembers : HasNumerals (memberTokens members) := hnumerals.tail.tail.tail.right
    have hrest := spaced_chars item hitem (spaced_memberChars members hmembers h)
    simp only [memberTokens, memberChars, List.cons_append, List.append_assoc]
    exact .token .comma (.token (spelledBy_quote key) (.token .colon hrest))

end

theorem HasNumerals.cons {token : Token} {list : List Token} (h : HasNumerals list)
    (htoken : ∀ spelling, token ≠ .numeral spelling) : HasNumerals (token :: list) := by
  intro spelling hmem
  rcases List.mem_cons.mp hmem with heq | hmem
  · exact absurd heq.symm (htoken spelling)
  · exact h spelling hmem

theorem HasNumerals.append {list rest : List Token} (h : HasNumerals list)
    (hrest : HasNumerals rest) : HasNumerals (list ++ rest) := fun spelling hmem =>
  (List.mem_append.mp hmem).elim (h spelling) (hrest spelling)

theorem hasNumerals_natural (value : ℕ) : HasNumerals (natural value).tokens := by
  intro spelling hmem
  cases List.mem_singleton.mp hmem

theorem hasNumerals_itemTokens {items : List Json} (h : ∀ item ∈ items, HasNumerals item.tokens) :
    HasNumerals (itemTokens items) := by
  induction items with
  | nil =>
    intro spelling hmem
    cases List.mem_singleton.mp hmem
  | cons item items ih =>
    have hitem := h item List.mem_cons_self
    have hitems := ih fun item hmem => h item (List.mem_cons_of_mem _ hmem)
    exact (hitem.append hitems).cons (by simp)

theorem hasNumerals_memberTokens {members : List (Option String × Json)}
    (h : ∀ member ∈ members, HasNumerals member.2.tokens) : HasNumerals (memberTokens members) := by
  induction members with
  | nil =>
    intro spelling hmem
    cases List.mem_singleton.mp hmem
  | cons member members ih =>
    have hmember := h member List.mem_cons_self
    have hmembers := ih fun member hmem => h member (List.mem_cons_of_mem _ hmem)
    exact (((hmember.append hmembers).cons (by simp)).cons (by simp)).cons (by simp)

theorem hasNumerals_array {items : List Json} (h : ∀ item ∈ items, HasNumerals item.tokens) :
    HasNumerals (array items).tokens := by
  cases items with
  | nil => exact (hasNumerals_itemTokens h).cons (by simp)
  | cons item items =>
    have hitem := h item List.mem_cons_self
    have hitems := hasNumerals_itemTokens fun item hmem => h item (List.mem_cons_of_mem _ hmem)
    exact (hitem.append hitems).cons (by simp)

theorem hasNumerals_object {members : List (Option String × Json)}
    (h : ∀ member ∈ members, HasNumerals member.2.tokens) : HasNumerals (object members).tokens := by
  cases members with
  | nil => exact (hasNumerals_memberTokens h).cons (by simp)
  | cons member members =>
    have hmember := h member List.mem_cons_self
    have hmembers := hasNumerals_memberTokens fun member hmem =>
      h member (List.mem_cons_of_mem _ hmem)
    exact (((hmember.append hmembers).cons (by simp)).cons (by simp)).cons (by simp)

theorem spelledBy_render {json : Json} (h : HasNumerals json.tokens) : json.SpelledBy json.render := by
  have hspaced := spaced_chars json h .nil
  rw [List.append_nil, List.append_nil] at hspaced
  rwa [SpelledBy, render, String.toList_ofList]

end Json
end AuthenticatedMpc
