import AuthenticatedMpc.Json.Reader
import Mathlib.Data.Nat.Notation

/-!
# The grammar of JSON texts

What the text of a document may look like, said without a reader: each document has one list of tokens,
each token has its spellings, and blanks may stand before, between and behind the tokens. The reader
accepts exactly these texts, which is shown elsewhere.
-/

namespace AuthenticatedMpc
namespace Json

/-- The texts of the entries of a list, one after the other. -/
inductive Joined {α : Type} (R : α → List Char → Prop) : List α → List Char → Prop
  | nil : Joined R [] []
  | cons {x : α} {xs : List α} {front rest : List Char} :
      R x front → Joined R xs rest → Joined R (x :: xs) (front ++ rest)

/-! ## Texts -/

/-- The letters of the short escapes, with the characters that they stand for. -/
def shortEscapes : List (Char × Char) :=
  [('"', '"'), ('\\', '\\'), ('/', '/'), ('b', Char.ofNat 8), ('f', Char.ofNat 12), ('n', '\n'),
    ('r', '\r'), ('t', '\t')]

def IsHexDigit (d : ℕ) (c : Char) : Prop :=
  d < 16 ∧ (c = Nat.digitChar d ∨ c = (Nat.digitChar d).toUpper)

/-- What stands inside quotes for one code point or one code unit. -/
inductive Piece : ℕ → List Char → Prop
  | plain {c : Char} (hquote : c ≠ '"') (hslash : c ≠ '\\') (hcontrol : 32 ≤ c.toNat) :
      Piece c.toNat [c]
  | short {letter c : Char} (h : (letter, c) ∈ shortEscapes) : Piece c.toNat ['\\', letter]
  | unit {i j k l : ℕ} {a b c d : Char} (ha : IsHexDigit i a) (hb : IsHexDigit j b)
      (hc : IsHexDigit k c) (hd : IsHexDigit l d) :
      Piece (4096 * i + 256 * j + 16 * k + l) ['\\', 'u', a, b, c, d]

/-- A character inside quotes: one piece, or a pair of escaped surrogates. -/
inductive CharSpelling (c : Char) : List Char → Prop
  | piece {front : List Char} (h : Piece c.toNat front) : CharSpelling c front
  | pair {lead trail : ℕ} {front rest : List Char} (hlead : 0xd800 ≤ lead ∧ lead < 0xdc00)
      (htrail : 0xdc00 ≤ trail ∧ trail < 0xe000)
      (hc : c.toNat = 0x10000 + 0x400 * (lead - 0xd800) + (trail - 0xdc00))
      (hfront : Piece lead front) (hrest : Piece trail rest) : CharSpelling c (front ++ rest)

/-- What stands between the quotes of a text. Pieces that spell no characters are a text without
content: a surrogate among them is alone. -/
def TextBody : Option String → List Char → Prop
  | some content, body => Joined CharSpelling content.toList body
  | none, body => (∃ units, Joined Piece units body) ∧ ∀ cs, ¬Joined CharSpelling cs body

/-! ## Numerals -/

def IsDigits (digits : List Char) : Prop := digits ≠ [] ∧ ∀ c ∈ digits, c.isDigit

/-- The digits before the point: a zero in front is alone. -/
def IsWhole (digits : List Char) : Prop :=
  IsDigits digits ∧ (digits.head? = some '0' → digits = ['0'])

inductive IsFraction : List Char → Prop
  | absent : IsFraction []
  | present {digits : List Char} (h : IsDigits digits) : IsFraction ('.' :: digits)

inductive IsExponent : List Char → Prop
  | absent : IsExponent []
  | present {mark : Char} {sign digits : List Char} (hmark : mark = 'e' ∨ mark = 'E')
      (hsign : sign = [] ∨ sign = ['+'] ∨ sign = ['-']) (h : IsDigits digits) :
      IsExponent (mark :: (sign ++ digits))

/-! ## Tokens -/

namespace Token

/-- The spellings of a token. Plain naturals have one; other numerals stand for themselves. -/
inductive SpelledBy : Token → List Char → Prop
  | openBrace : SpelledBy openBrace ['\x7b']
  | closeBrace : SpelledBy closeBrace ['\x7d']
  | openBracket : SpelledBy openBracket ['[']
  | closeBracket : SpelledBy closeBracket [']']
  | colon : SpelledBy colon [':']
  | comma : SpelledBy comma [',']
  | null : SpelledBy null "null".toList
  | true : SpelledBy (bool true) "true".toList
  | false : SpelledBy (bool false) "false".toList
  | natural {value : ℕ} : SpelledBy (natural value) (Nat.toDigits 10 value)
  | numeral {sign whole fraction exponent : List Char} (hsign : sign = [] ∨ sign = ['-'])
      (hwhole : IsWhole whole) (hfraction : IsFraction fraction) (hexponent : IsExponent exponent)
      (hplain : sign ≠ [] ∨ fraction ≠ [] ∨ exponent ≠ []) :
      SpelledBy (numeral (String.ofList (sign ++ whole ++ fraction ++ exponent)))
        (sign ++ whole ++ fraction ++ exponent)
  | text {content : Option String} {body : List Char} (h : TextBody content body) :
      SpelledBy (text content) ('"' :: (body ++ ['"']))

end Token

/-- Characters that spell tokens in order, with any number of blanks around each. -/
inductive Spaced : List Token → List Char → Prop
  | nil : Spaced [] []
  | blank {c : Char} {tokens : List Token} {rest : List Char} (hc : c ∈ [' ', '\n', '\r', '\t'])
      (h : Spaced tokens rest) : Spaced tokens (c :: rest)
  | token {token : Token} {tokens : List Token} {front rest : List Char}
      (hfront : token.SpelledBy front) (h : Spaced tokens rest) :
      Spaced (token :: tokens) (front ++ rest)

/-! ## Documents -/

mutual

def tokens : Json → List Token
  | null => [.null]
  | bool value => [.bool value]
  | natural value => [.natural value]
  | numeral spelling => [.numeral spelling]
  | text content => [.text content]
  | array [] => [.openBracket, .closeBracket]
  | array (item :: items) => .openBracket :: (tokens item ++ itemTokens items)
  | object [] => [.openBrace, .closeBrace]
  | object ((key, item) :: members) =>
    .openBrace :: .text key :: .colon :: (tokens item ++ memberTokens members)

/-- The tokens from the first comma of an array, or from its closing bracket. -/
def itemTokens : List Json → List Token
  | [] => [.closeBracket]
  | item :: items => .comma :: (tokens item ++ itemTokens items)

/-- The tokens from the first comma of an object, or from its closing brace. -/
def memberTokens : List (Option String × Json) → List Token
  | [] => [.closeBrace]
  | (key, item) :: members =>
    .comma :: .text key :: .colon :: (tokens item ++ memberTokens members)

end

/-- A text of a document: its tokens in any spelling, with any blanks. -/
def SpelledBy (json : Json) (text : String) : Prop := Spaced json.tokens text.toList

end Json
end AuthenticatedMpc
